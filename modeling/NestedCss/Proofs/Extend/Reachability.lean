import NestedCss.Proofs.Extend.Chain
import NestedCss.Proofs.Extend.Filled

/-!
# What `@extend` reaches

In SCSS every selector of a rule extends every target of the rule, anywhere in the stylesheet. A rule
then ends with the selectors that a bounded number of steps from one of its own leads to.

* `Store.Extends`: a step from a selector to one that is to join it;
* `Store.Reaches`: a number of steps from one of the given selectors;
* **`Store.resolve_reaches`**: what a rule holds in the end.
-/

namespace NestedCss.Extend

variable {s : Store} {id : RuleId} {own : List Selector} {t u : Selector}

/-- Some rule has the selector `u` and an `@extend` that lists a target equal to `t`. -/
def Store.Extends (s : Store) (t u : Selector) : Prop :=
  ∃ r ∈ s.rules, u ∈ r.selectors ∧ ∃ m ∈ r.markers, ∃ targets,
    Target.readList false m.targets = some targets ∧ ∃ target ∈ targets, target.selector.same t

/-- From one of the given selectors, `n` steps lead to `u`. -/
inductive Store.Reaches (s : Store) (own : List Selector) : ℕ → Selector → Prop
  | own {u : Selector} : u ∈ own → s.Reaches own 0 u
  | step {n : ℕ} {t u : Selector} : s.Reaches own n t → s.Extends t u → s.Reaches own (n + 1) u

/-- The store of an SCSS stylesheet, whose extends are all those of SCSS. -/
structure Store.IsScss (s : Store) : Prop where
  dialect_eq : s.dialect = .scss
  markers : ∀ r ∈ s.rules, ∀ m ∈ r.markers, m.dialect = .scss

theorem Filled.isScss (hs : Filled .scss s) : s.IsScss where
  dialect_eq := hs.dialect_eq
  markers := fun r hr => (hs.rules r hr).2

namespace Store.IsScss

theorem mem_requests (hs : s.IsScss) {q : Request} : q ∈ s.requests ↔
    ∃ r, s.rules[q.requester]? = some r ∧ q.extender ∈ r.selectors ∧ q.scope = [] ∧
      ∃ m ∈ r.markers, ∃ targets, Target.readList false m.targets = some targets ∧
        q.target ∈ targets := by
  rw [Store.mem_requests, hs.dialect_eq]
  constructor
  · rintro ⟨i, r, hr, hq⟩
    obtain rfl := Rule.requester_of_mem_requests hq
    rcases Rule.mem_requests.mp hq with hq | ⟨m, hm, hq⟩
    · cases hq
    · obtain ⟨targets, hread, u, hu, target, htarget, hq⟩ := Rule.mem_markerRequests.mp hq
      have hdialect := hs.markers r (List.mem_of_getElem? hr) m hm
      rw [Marker.allowsAll, hdialect] at hread
      rw [Marker.scope, hdialect] at hq
      rw [hq]
      exact ⟨r, hr, hu, rfl, m, hm, targets, hread, htarget⟩
  · rintro ⟨r, hr, hu, hscope, m, hm, targets, hread, htarget⟩
    refine ⟨q.requester, r, hr, Rule.mem_requests.mpr (.inr ⟨m, hm, ?_⟩)⟩
    have hdialect := hs.markers r (List.mem_of_getElem? hr) m hm
    refine Rule.mem_markerRequests.mpr ⟨targets, ?_, q.extender, hu, q.target, htarget, ?_⟩
    · rw [Marker.allowsAll, hdialect]
      exact hread
    · rw [Marker.scope, hdialect, ← hscope]

theorem allStrict (hs : s.IsScss) : AllStrict s.requests := by
  intro q hq
  obtain ⟨r, -, -, -, m, -, targets, hread, htarget⟩ := hs.mem_requests.mp hq
  exact Target.mode_of_readList hread q.target htarget

theorem reaches (hs : s.IsScss) {q : Request} (hq : q ∈ s.requests)
    (containers : List ContainerId) : q.reaches containers := by
  obtain ⟨r, -, -, hscope, -⟩ := hs.mem_requests.mp hq
  rw [Request.reaches, hscope]
  rfl

/-- Every selector of a rule extends every target of the rule. -/
theorem uniform (hs : s.IsScss) : Uniform s.requests := by
  intro q₁ hq₁ q₂ hq₂ hsame
  obtain ⟨r₁, hr₁, -, hscope, hmarker⟩ := hs.mem_requests.mp hq₁
  obtain ⟨r₂, hr₂, hu, -⟩ := hs.mem_requests.mp hq₂
  rw [← hsame, hr₁] at hr₂
  cases hr₂
  exact hs.mem_requests.mpr ⟨r₁, hr₁, hu, hscope, hmarker⟩

theorem extends_iff (hs : s.IsScss) :
    s.Extends t u ↔ ∃ q ∈ s.requests, q.target.accepts t ∧ q.extender = u := by
  constructor
  · rintro ⟨r, hr, hu, m, hm, targets, hread, target, htarget, hsame⟩
    obtain ⟨i, hi⟩ := List.mem_iff_getElem?.mp hr
    have hq : (⟨i, u, target, []⟩ : Request) ∈ s.requests :=
      hs.mem_requests.mpr ⟨r, hi, hu, rfl, m, hm, targets, hread, htarget⟩
    refine ⟨_, hq, ?_, rfl⟩
    exact (accepts_iff_of_strict (hs.allStrict _ hq)).mpr (Selector.same_symm hsame)
  · rintro ⟨q, hq, haccepts, rfl⟩
    obtain ⟨r, hr, hu, -, m, hm, targets, hread, htarget⟩ := hs.mem_requests.mp hq
    have hsame := (accepts_iff_of_strict (hs.allStrict _ hq)).mp haccepts
    exact ⟨r, List.mem_of_getElem? hr, hu, m, hm, targets, hread, q.target, htarget,
      Selector.same_symm hsame⟩

/-- Chains of requests are steps in a row. -/
theorem reaches_iff_chain (hs : s.IsScss) (containers : List ContainerId) {n : ℕ} :
    s.Reaches own n u ↔ ∃ ids, Chain s.requests containers own ids u ∧ ids.length = n := by
  constructor
  · intro h
    induction h with
    | own hu => exact ⟨[], .own hu, rfl⟩
    | step _ hstep ih =>
      obtain ⟨ids, hchain, hlength⟩ := ih
      obtain ⟨q, hq, haccepts, rfl⟩ := hs.extends_iff.mp hstep
      refine ⟨q.requester :: ids, hchain.step hq (hs.reaches hq _) haccepts, ?_⟩
      rw [List.length_cons, hlength]
  · rintro ⟨ids, hchain, rfl⟩
    induction hchain with
    | own hu => exact .own hu
    | step _ hq _ haccepts ih => exact .step ih (hs.extends_iff.mpr ⟨_, hq, haccepts, rfl⟩)

end Store.IsScss

namespace Filled

theorem has_iff_reaches (hs : Filled .scss s) {r r' : Rule} (hr : s.rules[id]? = some r)
    (hr' : s.resolve.rules[id]? = some r') : r'.has t ↔
      ∃ n ≤ maxRounds, ∃ u, s.Reaches r.selectors n u ∧ u.same t ∧ (n = 0 ∨ u.isEmpty = false) := by
  have hown : (r.stripped s.dialect).selectors = r.selectors := by rw [hs.dialect_eq, Rule.stripped]
  rw [Store.has_iff_chain hr hr' (hs.origins_stripped hr) hs.isScss.allStrict
    (hs.isScss.uniform.unrepeated hs.isScss.allStrict t), hown]
  constructor
  · rintro ⟨ids, u, hchain, hle, hsame, hempty⟩
    refine ⟨_, hle, u, (hs.isScss.reaches_iff_chain r.containers).mpr ⟨ids, hchain, rfl⟩, hsame, ?_⟩
    exact hempty.imp_left fun h => by rw [h, List.length_nil]
  · rintro ⟨n, hle, u, hreaches, hsame, hempty⟩
    obtain ⟨ids, hchain, rfl⟩ := (hs.isScss.reaches_iff_chain r.containers).mp hreaches
    exact ⟨ids, u, hchain, hle, hsame, hempty.imp_left List.length_eq_zero_iff.mp⟩

end Filled

/-- **What a rule of an SCSS store holds in the end**: its own selectors as they were, and then, each
once, all others that at most as many steps lead to as there may be rounds. Empty selectors, which no
text reads as, are not added. -/
theorem Store.resolve_reaches (hs : Filled .scss s) {r : Rule} (hr : s.rules[id]? = some r) :
    ∃ r' added, s.resolve.rules[id]? = some r' ∧ r'.selectors = r.selectors ++ added ∧
      (∀ i j u v, r.selectors.length ≤ i → i ≠ j → r'.selectors[i]? = some u →
        r'.selectors[j]? = some v → u.same v = false) ∧
      ∀ t, r'.has t ↔ ∃ n ≤ maxRounds, ∃ u, s.Reaches r.selectors n u ∧ u.same t ∧
        (n = 0 ∨ u.isEmpty = false) := by
  obtain ⟨r', hr', hgrown⟩ : ∃ r', s.resolve.rules[id]? = some r' ∧
      Grown s.requests id r.containers r.entries r'.entries := by
    have hresolve := rules_resolve hr
    rw [hs.dialect_eq] at hresolve
    exact ⟨_, hresolve, r.grown_growth maxRounds⟩
  obtain ⟨more, hmore⟩ := hgrown.isPrefix
  refine ⟨r', more.map Entry.selector, hr', ?_, fun i j u v hi hij hu hv => ?_,
    fun t => hs.has_iff_reaches hr hr'⟩
  · rw [Rule.selectors, ← hmore, List.map_append, Rule.selectors]
  · rw [Rule.selectors, List.length_map] at hi
    rw [Rule.selectors, List.getElem?_map] at hu hv
    obtain ⟨e, he, rfl⟩ := Option.map_eq_some_iff.mp hu
    obtain ⟨x, hx, rfl⟩ := Option.map_eq_some_iff.mp hv
    exact hgrown.same_eq_false hi hij he hx

/-- A rule with the selector `.name` and an `@extend` of each of the targets. -/
def classRule (name : Text) (targets : List Text) : Rule :=
  ⟨[⟨⟨[.className name]⟩, []⟩], [], targets.map (⟨.scss, ·⟩)⟩

/-- The store of `.a { } .b { @extend .a; } .c { @extend .a; } .d { @extend .b, .c; }`. -/
def diamondStore : Store :=
  ⟨.scss, [classRule ['a'] [], classRule ['b'] [".a".toList], classRule ['c'] [".a".toList],
    classRule ['d'] [".b, .c".toList]], 0⟩

theorem filled_diamondStore : Filled .scss diamondStore :=
  (((((((Filled.empty.addRule [⟨[.className ['a']]⟩] []).addRule [⟨[.className ['b']]⟩] []).addMarker
    1 ⟨.scss, ".a".toList⟩ rfl).addRule [⟨[.className ['c']]⟩] []).addMarker
    2 ⟨.scss, ".a".toList⟩ rfl).addRule [⟨[.className ['d']]⟩] []).addMarker
    3 ⟨.scss, ".b, .c".toList⟩ rfl)

/-- The first rule ends with `.d`, which two steps lead to. -/
theorem diamondStore_reaches : diamondStore.Reaches [⟨[.className ['a']]⟩] 2 ⟨[.className ['d']]⟩ ∧
    ∃ r' added, diamondStore.resolve.rules[0]? = some r' ∧
      r'.selectors = ⟨[.className ['a']]⟩ :: added ∧ r'.has ⟨[.className ['d']]⟩ := by
  have hread : Target.readList false ".a".toList = some [⟨⟨[.className ['a']]⟩, .strict⟩] := by
    decide +kernel
  have hread' : Target.readList false ".b, .c".toList =
      some [⟨⟨[.className ['b']]⟩, .strict⟩, ⟨⟨[.className ['c']]⟩, .strict⟩] := by decide +kernel
  have hfirst : diamondStore.Extends ⟨[.className ['a']]⟩ ⟨[.className ['b']]⟩ :=
    ⟨classRule ['b'] [".a".toList], by decide, by decide, ⟨.scss, ".a".toList⟩, by decide, _, hread, _,
      List.mem_cons_self, by decide +kernel⟩
  have hsecond : diamondStore.Extends ⟨[.className ['b']]⟩ ⟨[.className ['d']]⟩ :=
    ⟨classRule ['d'] [".b, .c".toList], by decide, by decide, ⟨.scss, ".b, .c".toList⟩, by decide, _,
      hread', _, List.mem_cons_self, by decide +kernel⟩
  have hreaches : diamondStore.Reaches [⟨[.className ['a']]⟩] 2 ⟨[.className ['d']]⟩ :=
    .step (.step (.own List.mem_cons_self) hfirst) hsecond
  obtain ⟨r', added, hr', hselectors, -, hheld⟩ :=
    Store.resolve_reaches filled_diamondStore (show diamondStore.rules[0]? = _ from rfl)
  exact ⟨hreaches, r', added, hr', hselectors,
    (hheld _).mpr ⟨2, by decide, _, hreaches, Selector.same_refl _, .inr rfl⟩⟩

end NestedCss.Extend
