import NestedCss.Proofs.Extend.Filled
import NestedCss.Proofs.Extend.Saturation

/-!
# Extends that match nothing

A rule comes to have only so many selectors. An extend none of whose targets accepts one of these has
nothing to add to the rule in any round, so it might as well not have been written.

* `Store.insertMarker`: a store with one more extend in a rule;
* `Marker.IsUnmatched`: no rule that an extend reaches has a selector that it extends;
* `Rule.growth_congr`: a rule grows alike under requests that make the same of what it comes to have;
* **`Store.resolve_insertMarker`**: all rules come out as they do without such an extend.
-/

namespace NestedCss.Extend

variable {s : Store} {id : RuleId} {m : Marker} {containers : List ContainerId}

/-! ## One more extend -/

/-- The rule with one more extend, in front of the one at the given position. -/
def Rule.insertMarker (r : Rule) (position : Nat) (m : Marker) : Rule :=
  { r with markers := r.markers.insertIdx position m }

/-- The store with one more extend in rule `id`, in front of the one at the given position. -/
def Store.insertMarker (s : Store) (id : RuleId) (position : Nat) (m : Marker) : Store :=
  { s with rules := s.rules.modify id (·.insertMarker position m) }

/-- The targets of an extend. A text that is no list of targets has none. -/
def Marker.targetList (m : Marker) : List Target := (Target.readList m.allowsAll m.targets).getD []

/-- No target of the extend, written in a rule within the given at-rules, accepts a selector of a rule
that it reaches. -/
def Marker.IsUnmatched (m : Marker) (containers : List ContainerId) (rules : List Rule) : Prop :=
  ∀ target ∈ m.targetList, ∀ r ∈ rules, m.scope containers <+: r.containers →
    ∀ e ∈ r.entries, target.accepts e.selector = false

theorem Marker.isUnmatched_of_malformed (h : Target.readList m.allowsAll m.targets = none)
    (rules : List Rule) : m.IsUnmatched containers rules := by
  intro target htarget
  rw [targetList, h] at htarget
  cases htarget

instance (m : Marker) (containers : List ContainerId) (rules : List Rule) :
    Decidable (m.IsUnmatched containers rules) := by
  unfold Marker.IsUnmatched
  infer_instance

namespace Rule

variable {r : Rule} {dialect : Dialect} {position : Nat}

theorem stripped_insertMarker :
    (r.insertMarker position m).stripped dialect = (r.stripped dialect).insertMarker position m := by
  cases dialect <;> rfl

end Rule

namespace Store

variable {position : Nat}

@[simp] theorem dialect_insertMarker : (s.insertMarker id position m).dialect = s.dialect := rfl

theorem getElem?_insertMarker (i : RuleId) : (s.insertMarker id position m).rules[i]? =
    s.rules[i]?.map fun r => if id = i then r.insertMarker position m else r := by
  rw [insertMarker, List.getElem?_modify]
  rfl

/-- An extend that is registered comes behind those that its rule has already. -/
theorem addMarker_eq_insertMarker {r : Rule} (hr : s.rules[id]? = some r) (m : Marker) :
    s.addMarker id m = s.insertMarker id r.markers.length m := by
  have hrules : (s.addMarker id m).rules = (s.insertMarker id r.markers.length m).rules := by
    refine List.ext_getElem? fun i => ?_
    rw [getElem?_addMarker, getElem?_insertMarker]
    by_cases hi : id = i
    · subst hi
      simp [hr, Rule.insertMarker]
    · simp [hi]
  rw [addMarker] at hrules ⊢
  rw [insertMarker] at hrules ⊢
  exact congrArg (fun rules => { s with rules }) hrules

end Store

/-! ## What it asks for -/

theorem flatMap_insertIdx {α β : Type} {f : α → List β} {a : α} (ha : f a = []) (l : List α)
    (i : Nat) : (l.insertIdx i a).flatMap f = l.flatMap f := by
  induction l generalizing i with
  | nil => cases i <;> simp [ha]
  | cons b l ih => cases i <;> simp [ha, ih]

/-- What one more extend asks for satisfies nothing if its targets accept nothing. -/
theorem Rule.filter_requests_insertMarker {r : Rule} {dialect : Dialect} {position : Nat} {u : Selector}
    (h : ∀ target ∈ m.targetList, m.scope r.containers <+: containers → target.accepts u = false) :
    ((r.insertMarker position m).requests dialect id).filter (·.isSatisfiedBy containers u) =
      (r.requests dialect id).filter (·.isSatisfiedBy containers u) := by
  have hnone : ((r.stripped dialect).markerRequests id m).filter (·.isSatisfiedBy containers u) = [] := by
    rw [List.filter_eq_nil_iff]
    intro q hq hsatisfied
    obtain ⟨targets, hread, extender, -, target, htarget, rfl⟩ := mem_markerRequests.mp hq
    rw [Request.isSatisfiedBy, Bool.and_eq_true, Request.reaches, List.isPrefixOf_iff_prefix,
      containers_stripped] at hsatisfied
    rw [h target (by rwa [Marker.targetList, hread]) hsatisfied.1] at hsatisfied
    exact Bool.false_ne_true hsatisfied.2
  rw [requests, requests, List.filter_append, List.filter_append]
  refine congrArg₂ (· ++ ·) ?_ ?_
  · cases dialect <;> rfl
  · rw [stripped_insertMarker, List.filter_flatMap, List.filter_flatMap]
    refine flatMap_insertIdx ?_ r.markers position
    exact hnone

namespace Store

variable {r : Rule} {position : Nat}

/-- **An entry that the targets of one more extend do not accept is offered nothing more.** -/
theorem offers_insertMarker (hr : s.rules[id]? = some r) {i : RuleId} {e : Entry}
    (h : ∀ target ∈ m.targetList, m.scope r.containers <+: containers →
      target.accepts e.selector = false) :
    offers (s.insertMarker id position m).requests i containers e = offers s.requests i containers e := by
  have hfilter : (s.insertMarker id position m).requests.filter (·.isSatisfiedBy containers e.selector) =
      s.requests.filter (·.isSatisfiedBy containers e.selector) := by
    rw [requests, requests, List.filter_flatten, List.filter_flatten]
    congr 1
    refine List.ext_getElem? fun j => ?_
    rw [List.getElem?_map, List.getElem?_map, List.getElem?_mapIdx, List.getElem?_mapIdx,
      getElem?_insertMarker, Option.map_map, Option.map_map, Option.map_map]
    by_cases hj : id = j
    · subst hj
      rw [hr]
      simp only [Option.map_some, Function.comp_apply, if_true]
      exact congrArg some (Rule.filter_requests_insertMarker h)
    · simp only [if_neg hj]
      rfl
  rw [offers, offers, hfilter]

end Store

/-! ## How rules grow -/

/-- **A rule grows alike** under requests that make the same of every entry that it comes to have. -/
theorem Rule.growth_congr {requests requests' : List Request} {r r' : Rule} {n : ℕ}
    (hentries : r'.entries = r.entries)
    (h : ∀ e ∈ (r.growth requests id n).entries,
      offers requests' id r'.containers e = offers requests id r.containers e) :
    r'.growth requests' id n = r.growth requests id n := by
  induction n with
  | zero => rw [growth, growth, hentries]; rfl
  | succ n ih =>
    have hn := ih fun e he => h e (growth_entries_subset r n he)
    have hoffers : (r.growth requests id n).latest.flatMap (offers requests' id r'.containers) =
        (r.growth requests id n).latest.flatMap (offers requests id r.containers) :=
      List.flatMap_congr fun e he => h e (growth_entries_subset r n (growth_latest_subset r n he))
    rw [growth_succ, growth_succ, hn, Growth.step, Growth.step, Growth.added, Growth.added, hoffers]

/-- A rule grows as it does without an extend that matches nothing. -/
theorem Store.growth_insertMarker {r a a' : Rule} (hr : s.rules[id]? = some r)
    (h : m.IsUnmatched r.containers s.resolve.rules) {position i : Nat} (ha : s.rules[i]? = some a)
    (hentries : a'.entries = (a.stripped s.dialect).entries) (hcontainers : a'.containers = a.containers) :
    a'.growth (s.insertMarker id position m).requests i maxRounds =
      (a.stripped s.dialect).growth s.requests i maxRounds := by
  refine Rule.growth_congr hentries fun e he => ?_
  rw [hcontainers, Rule.containers_stripped]
  -- the rule comes to have `e`, which no target accepts
  refine offers_insertMarker hr fun target htarget hscope => ?_
  rw [← Rule.containers_stripped a s.dialect] at hscope
  exact h target htarget _ (List.mem_of_getElem? (rules_resolve ha)) hscope e he

/-- **An extend that is malformed or matches nothing might as well not be there.** It stays where it is,
and all rules come out as they do without it. -/
theorem Store.resolve_insertMarker {r : Rule} (hr : s.rules[id]? = some r)
    (h : Target.readList m.allowsAll m.targets = none ∨ m.IsUnmatched r.containers s.resolve.rules)
    (position : Nat) :
    (s.insertMarker id position m).resolve = s.resolve.insertMarker id position m ∧
      ∀ i, (s.insertMarker id position m).resolve.selectors i = s.resolve.selectors i := by
  replace h : m.IsUnmatched r.containers s.resolve.rules :=
    h.elim (Marker.isUnmatched_of_malformed · _) fun h => h
  have hrules : (s.insertMarker id position m).resolve.rules =
      (s.resolve.insertMarker id position m).rules := by
    refine List.ext_getElem? fun i => ?_
    rw [getElem?_insertMarker]
    cases ha : s.rules[i]? with
    | none =>
      have hnone : s.resolve.rules[i]? = none := by
        rwa [List.getElem?_eq_none_iff, length_resolve, ← List.getElem?_eq_none_iff]
      rw [hnone, Option.map_none, List.getElem?_eq_none_iff, length_resolve,
        ← List.getElem?_eq_none_iff, getElem?_insertMarker, ha, Option.map_none]
    | some a =>
      have ha' : (s.insertMarker id position m).rules[i]? =
          some (if id = i then a.insertMarker position m else a) := by
        rw [getElem?_insertMarker, ha, Option.map_some]
      rw [rules_resolve ha', rules_resolve ha, Option.map_some, dialect_insertMarker]
      split
      · have hgrowth : ((a.stripped s.dialect).insertMarker position m).growth
            (s.insertMarker id position m).requests i maxRounds =
              (a.stripped s.dialect).growth s.requests i maxRounds :=
          growth_insertMarker hr h ha rfl (a.containers_stripped _)
        rw [Rule.stripped_insertMarker, hgrowth]
        rfl
      · have hgrowth : (a.stripped s.dialect).growth (s.insertMarker id position m).requests i
            maxRounds = (a.stripped s.dialect).growth s.requests i maxRounds :=
          growth_insertMarker hr h ha rfl (a.containers_stripped _)
        rw [hgrowth]
  refine ⟨congrArg (fun rules => { s with rules }) hrules, fun i => ?_⟩
  rw [selectors, selectors, hrules, getElem?_insertMarker, Option.map_map]
  congr 2
  funext a
  rw [Function.comp_apply]
  split <;> rfl

/-- `&:extend(.q all, .x .z);` and the malformed `&:extend(.x,);` in the first of three rules that all
come to have `.x, .y, .z`. -/
theorem resolve_insertMarker_triangleStore :
    let m : Marker := ⟨.less, ".q all, .x .z".toList⟩
    let malformed : Marker := ⟨.less, ".x,".toList⟩
    ∃ r, triangleStore.rules[0]? = some r ∧
      (m.targetList.length = 2 ∧ m.IsUnmatched r.containers triangleStore.resolve.rules ∧
        (triangleStore.insertMarker 0 0 m).resolve = triangleStore.resolve.insertMarker 0 0 m) ∧
      Target.readList malformed.allowsAll malformed.targets = none ∧
        ∀ i, (triangleStore.addMarker 0 malformed).resolve.selectors i =
          triangleStore.resolve.selectors i := by
  intro m malformed
  have hr : triangleStore.rules[0]? = some (.ofSelectors [extending ['x'] ".z".toList] []) := rfl
  have hunmatched : m.IsUnmatched [] triangleStore.resolve.rules := by decide +kernel
  have hmalformed : Target.readList true malformed.targets = none := by decide +kernel
  refine ⟨_, hr, ⟨by decide +kernel, hunmatched, (Store.resolve_insertMarker hr (.inr hunmatched) 0).1⟩,
    hmalformed, fun i => ?_⟩
  rw [Store.addMarker_eq_insertMarker hr]
  exact (Store.resolve_insertMarker hr (.inl hmalformed) _).2 i

end NestedCss.Extend
