import NestedCss.Proofs.Extend.Unmatched
import NestedCss.Proofs.Selector.Equality
import NestedCss.Proofs.Selector.Resolved
import NestedCss.Proofs.Selector.RoundTrip

/-!
# Extending without regard to quotes

Selectors are compared by their keys wherever extends are applied. Nothing that is decided depends on
more, so two stylesheets that differ in quoting only are extended alike. The whole argument is that
each step, when it is given keys, does what it does otherwise and takes keys of the outcome.

* `Request.produce?_key`, `offers_key`, `fresh_key`, `Growth.step_key`: the steps;
* `Rule.Alike`, `Store.Alike`: rules and stores with the same keys ask for the same;
* `Store.Counterpart`: stores that come from the same calls with equal selectors and targets;
* **`Store.resolve_counterpart`**: all extends applied to such stores.
-/

namespace NestedCss

/-! ## Markers and targets -/

namespace Selector

theorem takeMarkers_map_key (fragments : List Fragment) :
    takeMarkers (fragments.map Fragment.key) =
      ((takeMarkers fragments).1.map Fragment.key, (takeMarkers fragments).2) := by
  fun_induction takeMarkers fragments with
  | case1 p before targets hextend rest lists hrest ih =>
    rw [hrest] at ih
    rw [List.map_cons, Fragment.key_pseudo, takeMarkers]
    simp only [hextend, ih]
  | case2 p before hextend =>
    rw [List.map_cons, Fragment.key_pseudo, takeMarkers]
    simp only [hextend]
  | case3 fragments hpseudo =>
    rw [takeMarkers]
    intro p before h
    obtain ⟨f, rest, rfl, hf, -⟩ := List.map_eq_cons_iff.mp h
    exact hpseudo p rest (by rw [Fragment.key_eq_pseudo_iff.mp hf])

theorem takeExtends?_key (s : Selector) :
    s.key.takeExtends? = s.takeExtends?.map (Prod.map key id) := by
  have htake : takeMarkers s.key.fragments.reverse =
      ((takeMarkers s.fragments.reverse).1.map Fragment.key, (takeMarkers s.fragments.reverse).2) := by
    rw [key, ← List.map_reverse, takeMarkers_map_key]
  unfold takeExtends?
  rw [htake]
  dsimp only
  rw [← List.map_reverse, ofFragments_map_key, isEmpty_key]
  split
  · rfl
  · cases (takeMarkers s.fragments.reverse).2.mapM (Extend.Target.readList true) <;> rfl

/-- What is left of a selector without the markers at its end. -/
theorem takeExtends?_getD_key (s : Selector) :
    (s.key.takeExtends?.map Prod.fst).getD s.key = ((s.takeExtends?.map Prod.fst).getD s).key := by
  rw [takeExtends?_key]
  cases s.takeExtends? <;> rfl

end Selector

namespace Extend

namespace Target

/-- The target without what does not count when selectors are compared. -/
def key (t : Target) : Target := { t with selector := t.selector.key }

theorem accepts_key (t : Target) (s : Selector) : t.key.accepts s.key = t.accepts s := by
  obtain ⟨selector, mode⟩ := t
  cases mode with
  | strict => exact Selector.same_key s selector
  | anywhere => exact Selector.contains_key s selector

theorem beforeAll?_map_key (fragments : List Fragment) :
    beforeAll? (fragments.map Fragment.key) = (beforeAll? fragments).map (List.map Fragment.key) := by
  fun_induction beforeAll? fragments with
  | case1 f name hall =>
    simp only [List.map_cons, List.map_nil, Fragment.key_space, Fragment.key_type, beforeAll?,
      if_pos hall, Option.map_some]
  | case2 f name hall =>
    simp only [List.map_cons, List.map_nil, Fragment.key_space, Fragment.key_type, beforeAll?,
      if_neg hall, Option.map_none]
  | case3 f rest hne ih =>
    rw [List.map_cons, beforeAll?, ih, Option.map_map, Option.map_map]
    · rfl
    · rintro name hrest
      obtain ⟨g, rest, rfl, hg, hrest⟩ := List.map_eq_cons_iff.mp hrest
      obtain ⟨g', rest, rfl, hg', hrest⟩ := List.map_eq_cons_iff.mp hrest
      refine hne name ?_
      rw [Fragment.key_eq_space_iff.mp hg, Fragment.key_eq_type_iff.mp hg',
        List.map_eq_nil_iff.mp hrest]
  | case4 => rfl

/-- How a target is to be compared does not depend on quotes. -/
theorem ofSelector_key (allowsAll : Bool) (s : Selector) :
    ofSelector allowsAll s.key = (ofSelector allowsAll s).key := by
  rw [ofSelector, Selector.key, beforeAll?_map_key, ofSelector]
  cases beforeAll? s.fragments with
  | none => rfl
  | some rest =>
    cases allowsAll with
    | false => rfl
    | true => simp [key, Selector.ofFragments_map_key]

end Target

namespace Marker

variable {m m' : Marker} {list list' : List Selector}

/-- What counts of an extend: its dialect and the keys of its targets. -/
def key (m : Marker) : Dialect × List Target := (m.dialect, m.targetList.map Target.key)

/-- Extends of the same dialect whose targets correspond and are equal, in the same modes. -/
structure Alike (m m' : Marker) : Prop where
  dialect : m.dialect = m'.dialect
  targets : List.Forall₂ (fun t t' => t.mode = t'.mode ∧ t.selector.same t'.selector) m.targetList
    m'.targetList

theorem alike_iff : m.Alike m' ↔ m.key = m'.key := by
  have htargets : (fun t t' : Target => t.mode = t'.mode ∧ t.selector.same t'.selector) =
      fun t t' => t.key = t'.key := by
    funext t t'
    simp only [Target.key, Target.mk.injEq, Selector.same_iff, and_comm]
  rw [key, key, Prod.mk.injEq, ← forall₂_iff_map_eq, ← htargets]
  exact ⟨fun h => ⟨h.dialect, h.targets⟩, fun h => ⟨h.1, h.2⟩⟩

/-- It is enough that the lists which are read from the texts differ in quoting only. -/
theorem Alike.of_readList (hdialect : m.dialect = m'.dialect)
    (hm : Selector.readList ⟨false, true⟩ (Source.ofText m.targets) = .ok list)
    (hm' : Selector.readList ⟨false, true⟩ (Source.ofText m'.targets) = .ok list')
    (h : List.Forall₂ (fun u u' => u.same u') list list') : m.Alike m' := by
  have hkeys (m : Marker) (list : List Selector)
      (hm : Selector.readList ⟨false, true⟩ (Source.ofText m.targets) = .ok list) :
      m.targetList.map Target.key = (list.map Selector.key).map (Target.ofSelector m.allowsAll) := by
    simp [targetList, Target.readList, Selector.readList_eq_ok.mp hm, Target.ofSelector_key]
  have hlist : list.map Selector.key = list'.map Selector.key := by
    simpa only [Selector.same_iff, forall₂_iff_map_eq] using h
  rw [alike_iff, key, key, hkeys m list hm, hkeys m' list' hm', hlist, allowsAll, allowsAll, hdialect]

end Marker

/-! ## Requests and entries -/

/-- The request without what does not count when selectors are compared. -/
def Request.key (q : Request) : Request :=
  { q with extender := q.extender.key, target := q.target.key }

/-- The entry without what does not count when selectors are compared. -/
def Entry.key (e : Entry) : Entry := { e with selector := e.selector.key }

variable {requests : List Request} {id : RuleId} {containers : List ContainerId}

namespace Request

theorem isSatisfiedBy_key (q : Request) (s : Selector) :
    q.key.isSatisfiedBy containers s.key = q.isSatisfiedBy containers s :=
  congrArg (q.reaches containers && ·) (q.target.accepts_key s)

theorem replacement_key (q : Request) (s : Selector) :
    q.key.replacement s.key = (q.replacement s).key := by
  obtain ⟨requester, extender, ⟨selector, mode⟩, scope⟩ := q
  cases mode with
  | strict => rfl
  | anywhere => exact Selector.replaceAll_key s selector extender

/-- A request makes of a key the key of what it makes otherwise. -/
theorem produce?_key (q : Request) (e : Entry) :
    q.key.produce? id e.key = (q.produce? id e).map Entry.key := by
  have hown : e.key.selector.same q.key.extender = e.selector.same q.extender :=
    Selector.same_key _ _
  have hreplacement : q.key.replacement e.key.selector = (q.replacement e.selector).key :=
    q.replacement_key e.selector
  have horigins : e.key.origins.contains q.key.requester = e.origins.contains q.requester := rfl
  have hrequester : (id == q.key.requester) = (id == q.requester) := rfl
  simp only [produce?, hown, hreplacement, horigins, hrequester, Selector.isEmpty_key]
  split
  · rfl
  · split <;> rfl

end Request

theorem offers_key (e : Entry) : offers (requests.map Request.key) id containers e.key =
    (offers requests id containers e).map Entry.key := by
  have hsatisfied : (fun q : Request => q.isSatisfiedBy containers e.key.selector) ∘ Request.key =
      (·.isSatisfiedBy containers e.selector) :=
    funext fun q => q.isSatisfiedBy_key e.selector
  rw [offers, offers, List.filter_map, hsatisfied, List.filterMap_map, List.map_filterMap]
  congr 1
  funext q
  exact q.produce?_key e

theorem fresh_key (known l : List Entry) : fresh (known.map Entry.key) (l.map Entry.key) =
    (fresh known l).map Entry.key := by
  induction l generalizing known with
  | nil => rfl
  | cons e l ih =>
    have hany : (known.map Entry.key).any (·.selector.same e.key.selector) =
        known.any (·.selector.same e.selector) := by
      rw [List.any_map]
      congr 1
      funext x
      exact Selector.same_key _ _
    rw [List.map_cons, fresh, fresh, hany]
    split
    · exact ih known
    · have := ih (known ++ [e])
      rw [List.map_append] at this
      rw [List.map_cons, ← this]
      rfl

/-! ## Growth -/

namespace Growth

/-- The entries of a rule between two rounds, without what does not count. -/
def key (g : Growth) : Growth := ⟨g.entries.map Entry.key, g.latest.map Entry.key⟩

theorem entries_key (g : Growth) : g.key.entries = g.entries.map Entry.key := rfl

/-- **A round goes as it does with keys.** -/
theorem step_key (g : Growth) : (g.step (offers requests id containers)).key =
    g.key.step (offers (requests.map Request.key) id containers) := by
  have hoffers : (g.latest.map Entry.key).flatMap (offers (requests.map Request.key) id containers) =
      (g.latest.flatMap (offers requests id containers)).map Entry.key := by
    rw [List.flatMap_map, List.map_flatMap]
    congr 1
    funext e
    exact offers_key e
  simp only [step, added, key, hoffers, fresh_key, List.map_append]

end Growth

/-! ## Rules -/

/-- Rules that differ in quoting only. -/
structure Rule.Alike (r r' : Rule) : Prop where
  entries : r.entries.map Entry.key = r'.entries.map Entry.key
  containers : r.containers = r'.containers
  markers : r.markers.map Marker.key = r'.markers.map Marker.key

namespace Rule

variable {dialect : Dialect} {r r' : Rule} {m m' : Marker}

theorem key_growth (r : Rule) (n : ℕ) : (r.growth requests id n).key =
    (Growth.step (offers (requests.map Request.key) id r.containers))^[n]
      ⟨r.entries.map Entry.key, r.entries.map Entry.key⟩ := by
  have hround : Function.Semiconj Growth.key (Growth.step (offers requests id r.containers))
      (Growth.step (offers (requests.map Request.key) id r.containers)) := Growth.step_key
  exact hround.iterate_right n ⟨r.entries, r.entries⟩

/-- The selectors in markers at the ends of selectors are text, which is compared as it stands. -/
theorem key_trailingRequests (r : Rule) : (r.trailingRequests .less id).map Request.key =
    (r.selectors.map Selector.key).flatMap fun u =>
      (u.takeExtends?.map fun taken =>
        taken.2.map fun target => ⟨id, taken.1, target.key, r.containers⟩).getD [] := by
  rw [trailingRequests, List.map_flatMap, List.flatMap_map]
  congr 1
  funext u
  rw [Selector.takeExtends?_key]
  cases u.takeExtends? <;> simp [Request.key]

theorem key_markerRequests (r : Rule) (m : Marker) : (r.markerRequests id m).map Request.key =
    (r.selectors.map Selector.key).flatMap fun u =>
      (m.targetList.map Target.key).map fun target => ⟨id, u, target, m.scope r.containers⟩ := by
  rw [markerRequests, Marker.targetList]
  cases Target.readList m.allowsAll m.targets with
  | none => simp
  | some targets => simp [List.map_flatMap, List.flatMap_map, Request.key, Function.comp_def]

namespace Alike

theorem selectors (h : r.Alike r') : r.selectors.map Selector.key = r'.selectors.map Selector.key := by
  simpa [Rule.selectors, Entry.key, Function.comp_def] using congrArg (List.map Entry.selector) h.entries

theorem stripped (h : r.Alike r') (dialect : Dialect) :
    (r.stripped dialect).Alike (r'.stripped dialect) where
  entries := by
    cases dialect with
    | scss => exact h.entries
    | less =>
      have hstrip (r : Rule) : (r.stripped .less).entries.map Entry.key =
          (r.entries.map Entry.key).map fun e =>
            { e with selector := (e.selector.takeExtends?.map Prod.fst).getD e.selector } := by
        simp [Rule.stripped, Entry.key, Selector.takeExtends?_getD_key]
      rw [hstrip, hstrip, h.entries]
  containers := by rw [containers_stripped, containers_stripped, h.containers]
  markers := by rw [markers_stripped, markers_stripped, h.markers]

theorem key_markerRequests (h : r.Alike r') (hm : m.key = m'.key) :
    (r.markerRequests id m).map Request.key = (r'.markerRequests id m').map Request.key := by
  have hdialect : m.dialect = m'.dialect := congrArg Prod.fst hm
  have htargets : m.targetList.map Target.key = m'.targetList.map Target.key := congrArg Prod.snd hm
  have hscope : m.scope r.containers = m'.scope r'.containers := by
    rw [Marker.scope, Marker.scope, hdialect, h.containers]
  rw [Rule.key_markerRequests, Rule.key_markerRequests, h.selectors, htargets, hscope]

/-- **Rules that differ in quoting only ask for the same.** -/
theorem key_requests (h : r.Alike r') (dialect : Dialect) (id : RuleId) :
    (r.requests dialect id).map Request.key = (r'.requests dialect id).map Request.key := by
  have htrailing : (r.trailingRequests dialect id).map Request.key =
      (r'.trailingRequests dialect id).map Request.key := by
    cases dialect with
    | scss => rfl
    | less => rw [key_trailingRequests, key_trailingRequests, h.selectors, h.containers]
  rw [Rule.requests, Rule.requests, List.map_append, List.map_append, htrailing, List.map_flatMap,
    List.map_flatMap]
  congr 1
  have hstripped := h.stripped dialect
  have hmarkers := forall₂_iff_map_eq.mpr h.markers
  generalize r.markers = markers at hmarkers
  generalize r'.markers = markers' at hmarkers
  induction hmarkers with
  | nil => rfl
  | cons hm _ ih => rw [List.flatMap_cons, List.flatMap_cons, hstripped.key_markerRequests hm, ih]

theorem key_growth (h : r.Alike r') {requests requests' : List Request}
    (hrequests : requests.map Request.key = requests'.map Request.key) (id : RuleId) (n : ℕ) :
    (r.growth requests id n).key = (r'.growth requests' id n).key := by
  rw [Rule.key_growth, Rule.key_growth, h.entries, h.containers, hrequests]

end Alike

end Rule

/-! ## Stores -/

/-- Stores that differ in quoting only. -/
structure Store.Alike (s s' : Store) : Prop where
  dialect : s.dialect = s'.dialect
  rules : List.Forall₂ Rule.Alike s.rules s'.rules
  containers : s.containers = s'.containers

namespace Store

variable {s s' : Store}

namespace Alike

theorem key_requests (h : s.Alike s') :
    s.requests.map Request.key = s'.requests.map Request.key := by
  have hlists : List.Forall₂ (fun l l' => List.map Request.key l = l'.map Request.key)
      (s.rules.mapIdx fun id r => r.requests s.dialect id)
      (s'.rules.mapIdx fun id r => r.requests s'.dialect id) := by
    rw [h.dialect]
    exact forall₂_mapIdx (fun id _ _ hr => hr.key_requests s'.dialect id) h.rules
  rw [Store.requests, Store.requests, List.map_flatten, List.map_flatten,
    forall₂_iff_map_eq.mp hlists]

theorem resolve (h : s.Alike s') : s.resolve.Alike s'.resolve where
  dialect := h.dialect
  rules := by
    rw [rules_resolve_eq_mapIdx, rules_resolve_eq_mapIdx, h.dialect]
    refine forall₂_mapIdx (fun id r r' hr => ?_) h.rules
    have hstripped := hr.stripped s'.dialect
    have hgrowth := hstripped.key_growth h.key_requests id maxRounds
    refine ⟨?_, hstripped.containers, hstripped.markers⟩
    dsimp only
    rw [← Growth.entries_key, hgrowth, Growth.entries_key]
  containers := h.containers

theorem selectors (h : s.Alike s') (id : RuleId) :
    List.Forall₂ (fun u u' => u.same u') (s.selectors id) (s'.selectors id) := by
  simp only [Selector.same_iff, forall₂_iff_map_eq, Store.selectors]
  rcases getElem?_of_forall₂ h.rules id with ⟨hr, hr'⟩ | ⟨r, r', hr, hr', halike⟩
  · rw [hr, hr']
  · rw [hr, hr']
    exact halike.selectors

end Alike

/-- Stores of a dialect that come from the same calls, with selectors and targets that count as
equal. -/
inductive Counterpart (dialect : Dialect) : Store → Store → Prop
  | empty : Counterpart dialect (.empty dialect) (.empty dialect)
  | addContainer {s s' : Store} : Counterpart dialect s s' →
      Counterpart dialect s.addContainer.2 s'.addContainer.2
  | addRule {s s' : Store} {list list' : List Selector} (containers : List ContainerId) :
      Counterpart dialect s s' → List.Forall₂ (fun u u' => u.same u') list list' →
      Counterpart dialect (s.addRule list containers).2 (s'.addRule list' containers).2
  | addMarker {s s' : Store} {m m' : Marker} (id : RuleId) : Counterpart dialect s s' →
      m.Alike m' → Counterpart dialect (s.addMarker id m) (s'.addMarker id m')
  | resolve {s s' : Store} : Counterpart dialect s s' → Counterpart dialect s.resolve s'.resolve

theorem Counterpart.alike {dialect : Dialect} (h : Counterpart dialect s s') : s.Alike s' := by
  induction h with
  | empty => exact ⟨rfl, .nil, rfl⟩
  | addContainer _ ih => exact ⟨ih.dialect, ih.rules, congrArg (· + 1) ih.containers⟩
  | addRule containers _ hlist ih =>
    refine ⟨ih.dialect, List.rel_append ih.rules (.cons ⟨?_, rfl, rfl⟩ .nil), ih.containers⟩
    simp only [Selector.same_iff, forall₂_iff_map_eq] at hlist
    simpa [Rule.ofSelectors, Entry.key, Function.comp_def] using congrArg (List.map (Entry.mk · [])) hlist
  | addMarker id _ hm ih =>
    refine ⟨ih.dialect, forall₂_modify (fun r r' hr => ?_) ih.rules id, ih.containers⟩
    refine ⟨hr.entries, hr.containers, ?_⟩
    rw [List.map_append, List.map_append, hr.markers, List.map_singleton, List.map_singleton, Marker.alike_iff.mp hm]
  | resolve _ ih => exact ih.resolve

/-- **Extending cannot tell quoting apart.** Equality of fragments is an equivalence relation which
normal forms, searches and cuts respect, and all extends applied to stores that come from the same calls
with equal selectors and targets give every rule as many selectors, each equal to its counterpart. -/
theorem resolve_counterpart (dialect : Dialect) :
    Equivalence (fun f g : Fragment => f.same g) ∧
      (∀ a b : Selector, a.same b ↔ List.Forall₂ (fun f g => f.same g) a.fragments b.fragments) ∧
      (∀ l l' : List Fragment, List.Forall₂ (fun f g => f.same g) l l' →
        (Selector.ofFragments l).same (.ofFragments l')) ∧
      (∀ a a' b b' : Selector, a.same a' → b.same b' →
        (∀ start, a.find? b start = a'.find? b' start) ∧
        ∀ start stop, (a.splice start stop b).same (a'.splice start stop b')) ∧
      ∀ s s' : Store, Counterpart dialect s s' →
        s.resolve.rules.length = s'.resolve.rules.length ∧
        ∀ id, (s.resolve.selectors id).length = (s'.resolve.selectors id).length ∧
          List.Forall₂ (fun u u' => u.same u') (s.resolve.selectors id) (s'.resolve.selectors id) := by
  refine ⟨Fragment.equivalence_same, fun _ _ => Selector.same_iff_forall₂, fun l l' h => ?_,
    fun a a' b b' ha hb => ?_, fun s s' h => ?_⟩
  · simp only [Fragment.same_iff, forall₂_iff_map_eq] at h
    rw [Selector.same_iff, ← Selector.ofFragments_map_key, h, Selector.ofFragments_map_key]
  · rw [Selector.same_iff] at ha hb
    constructor
    · intro start
      rw [← Selector.find?_key, ha, hb, Selector.find?_key]
    · intro start stop
      rw [Selector.same_iff, ← Selector.splice_key, ha, hb, Selector.splice_key]
  · have halike := h.alike.resolve
    exact ⟨halike.rules.length_eq, fun id => ⟨(halike.selectors id).length_eq, halike.selectors id⟩⟩

/-- The attribute selector `[name=value]`, quoted in some way. -/
def quotedAttribute (name value : Text) (quote : Quote) (modifier : Option Char) : Fragment :=
  .attribute ⟨name, some ⟨.equals, value, quote, modifier⟩⟩

/-- The store of a rule for two attributes, and of `.c { &:extend(...); }` with the given targets. -/
def quotedStore (quote : Quote) (modifier : Option Char) (targets : Text) : Store :=
  ((((Store.empty .less).addRule [⟨[quotedAttribute ['p'] ['q'] quote modifier, .space,
    quotedAttribute ['a'] ['b'] quote modifier]⟩] []).2).addRule [⟨[.className ['c']]⟩] []).2.addMarker 1
      ⟨.less, targets⟩

/-- The rule of `[p="q"] [a="b"]` gains `[p="q"] .c`, and that of `[p=q i] [a=b i]` its counterpart. -/
theorem resolve_quotedStore :
    Counterpart .less (quotedStore .double none "[a='b'] all".toList)
      (quotedStore .bare (some 'i') "[a=b] all".toList) ∧
    (quotedStore .double none "[a='b'] all".toList).resolve.selectors 0 =
      [⟨[quotedAttribute ['p'] ['q'] .double none, .space, quotedAttribute ['a'] ['b'] .double none]⟩,
        ⟨[quotedAttribute ['p'] ['q'] .double none, .space, .className ['c']]⟩] ∧
    List.Forall₂ (fun u u' => u.same u')
      ((quotedStore .double none "[a='b'] all".toList).resolve.selectors 0)
      ((quotedStore .bare (some 'i') "[a=b] all".toList).resolve.selectors 0) := by
  have hread : Selector.readList ⟨false, true⟩ (Source.ofText "[a='b'] all".toList) =
      .ok [⟨[quotedAttribute ['a'] ['b'] .single none, .space, .type "all".toList]⟩] := by
    decide +kernel
  have hread' : Selector.readList ⟨false, true⟩ (Source.ofText "[a=b] all".toList) =
      .ok [⟨[quotedAttribute ['a'] ['b'] .bare none, .space, .type "all".toList]⟩] := by
    decide +kernel
  have hmarkers : Marker.Alike ⟨.less, "[a='b'] all".toList⟩ ⟨.less, "[a=b] all".toList⟩ :=
    .of_readList rfl hread hread' (.cons rfl .nil)
  have h : Counterpart .less (quotedStore .double none "[a='b'] all".toList)
      (quotedStore .bare (some 'i') "[a=b] all".toList) :=
    .addMarker 1 (.addRule [] (.addRule [] .empty (.cons rfl .nil)) (.cons rfl .nil)) hmarkers
  exact ⟨h, by decide +kernel, ((resolve_counterpart .less).2.2.2.2 _ _ h).2 0 |>.2⟩

end Store

end Extend

end NestedCss
