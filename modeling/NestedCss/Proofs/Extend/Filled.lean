import NestedCss.Extend.Store
import NestedCss.Proofs.Extend.Target

/-!
# Stores and their requests

A store is filled rule by rule and extend by extend before anything is applied.

* `Filled`: the stores of a dialect in which nothing has been applied yet;
* `Store.GrowsTo`: what was registered keeps its selectors;
* `Store.mem_requests`, `Rule.mem_markerRequests`: what the extends of a store ask for;
* `Store.isEmpty_target`: no request has an empty selector for its target.
-/

namespace NestedCss.Extend

variable {dialect : Dialect} {s : Store} {id : RuleId}

theorem Rule.origins_stripped {r : Rule} (h : ∀ e ∈ r.entries, e.origins = []) (dialect : Dialect) :
    ∀ e ∈ (r.stripped dialect).entries, e.origins = [] := by
  cases dialect with
  | scss => exact h
  | less =>
    intro e he
    obtain ⟨e₀, he₀, rfl⟩ := List.mem_map.mp he
    exact h e₀ he₀

/-! ## Filling a store -/

/-- The stores that come from registering at-rules, rules and extends of a dialect. -/
inductive Filled (dialect : Dialect) : Store → Prop
  | empty : Filled dialect (.empty dialect)
  | addContainer {s : Store} : Filled dialect s → Filled dialect s.addContainer.2
  | addRule {s : Store} (selectors : List Selector) (containers : List ContainerId) :
      Filled dialect s → Filled dialect (s.addRule selectors containers).2
  | addMarker {s : Store} (id : RuleId) (m : Marker) : Filled dialect s → m.dialect = dialect →
      Filled dialect (s.addMarker id m)

namespace Filled

theorem dialect_eq (h : Filled dialect s) : s.dialect = dialect := by
  induction h with
  | empty => rfl
  | addContainer _ ih => exact ih
  | addRule _ _ _ ih => exact ih
  | addMarker _ _ _ _ ih => exact ih

/-- All selectors are the author's, and all extends are those of the dialect. -/
theorem rules (h : Filled dialect s) : ∀ r ∈ s.rules,
    (∀ e ∈ r.entries, e.origins = []) ∧ ∀ m ∈ r.markers, m.dialect = dialect := by
  induction h with
  | empty => exact fun r hr => absurd hr List.not_mem_nil
  | addContainer _ ih => exact ih
  | @addRule s selectors containers _ ih =>
    intro r hr
    rcases List.mem_append.mp hr with hr | hr
    · exact ih r hr
    · obtain rfl := List.mem_singleton.mp hr
      refine ⟨fun e he => ?_, fun m hm => absurd hm List.not_mem_nil⟩
      obtain ⟨u, -, rfl⟩ := List.mem_map.mp he
      rfl
  | @addMarker s id m _ hm ih =>
    intro r hr
    obtain ⟨i, hi⟩ := List.mem_iff_getElem?.mp hr
    simp only [Store.addMarker, List.getElem?_modify] at hi
    obtain ⟨r₀, hr₀, rfl⟩ := Option.map_eq_some_iff.mp hi
    obtain ⟨horigins, hmarkers⟩ := ih r₀ (List.mem_of_getElem? hr₀)
    split
    · refine ⟨horigins, fun m' hm' => ?_⟩
      rcases List.mem_append.mp hm' with hm' | hm'
      · exact hmarkers m' hm'
      · rw [List.mem_singleton.mp hm', hm]
    · exact ⟨horigins, hmarkers⟩

theorem origins_stripped (h : Filled dialect s) {r : Rule} (hr : s.rules[id]? = some r) :
    ∀ e ∈ (r.stripped s.dialect).entries, e.origins = [] :=
  r.origins_stripped (h.rules r (List.mem_of_getElem? hr)).1 s.dialect

end Filled

/-! ## Growing stores -/

/-- `s'` has the rules of `s`, with their selectors, and maybe more. -/
structure Store.GrowsTo (s s' : Store) : Prop where
  length_le : s.rules.length ≤ s'.rules.length
  selectors_eq : ∀ i : Nat, i < s.rules.length → s'.selectors i = s.selectors i

namespace Store

theorem GrowsTo.refl (s : Store) : s.GrowsTo s := ⟨Nat.le_refl _, fun _ _ => rfl⟩

theorem GrowsTo.trans {s' s'' : Store} (h : s.GrowsTo s') (h' : s'.GrowsTo s'') : s.GrowsTo s'' where
  length_le := Nat.le_trans h.length_le h'.length_le
  selectors_eq i hi := (h'.selectors_eq i (Nat.lt_of_lt_of_le hi h.length_le)).trans (h.selectors_eq i hi)

theorem growsTo_addContainer (s : Store) : s.GrowsTo s.addContainer.2 :=
  ⟨Nat.le_refl _, fun _ _ => rfl⟩

theorem growsTo_addRule (s : Store) (selectors : List Selector) (containers : List ContainerId) :
    s.GrowsTo (s.addRule selectors containers).2 := by
  refine ⟨by simp [addRule], fun i hi => ?_⟩
  simp [Store.selectors, addRule, List.getElem?_append_left hi]

theorem getElem?_addMarker (s : Store) (id : RuleId) (m : Marker) (i : RuleId) :
    (s.addMarker id m).rules[i]? =
      s.rules[i]?.map fun r => if id = i then { r with markers := r.markers ++ [m] } else r := by
  rw [addMarker, List.getElem?_modify]
  rfl

theorem growsTo_addMarker (s : Store) (id : RuleId) (m : Marker) : s.GrowsTo (s.addMarker id m) := by
  refine ⟨by simp [addMarker], fun i _ => ?_⟩
  rw [Store.selectors, Store.selectors, getElem?_addMarker]
  cases s.rules[i]? with
  | none => rfl
  | some r =>
    rw [Option.map_some]
    split <;> rfl

@[simp] theorem selectors_addRule (s : Store) (selectors : List Selector)
    (containers : List ContainerId) :
    (s.addRule selectors containers).2.selectors s.rules.length = selectors := by
  simp [Store.selectors, addRule, Rule.selectors, Rule.ofSelectors, Function.comp_def]

end Store

/-! ## Requests -/

theorem Store.mem_requests {q : Request} : q ∈ s.requests ↔
    ∃ (i : RuleId) (r : Rule), s.rules[i]? = some r ∧ q ∈ r.requests s.dialect i := by
  rw [requests, List.mem_flatten]
  constructor
  · rintro ⟨l, hl, hq⟩
    obtain ⟨i, hi, rfl⟩ := List.mem_mapIdx.mp hl
    exact ⟨i, s.rules[i], List.getElem?_eq_getElem hi, hq⟩
  · rintro ⟨i, r, hr, hq⟩
    obtain ⟨hi, rfl⟩ := List.getElem?_eq_some_iff.mp hr
    exact ⟨_, List.mem_mapIdx.mpr ⟨i, hi, rfl⟩, hq⟩

namespace Rule

variable {r : Rule} {q : Request}

theorem mem_markerRequests {m : Marker} : q ∈ r.markerRequests id m ↔
    ∃ targets, Target.readList m.allowsAll m.targets = some targets ∧
      ∃ u ∈ r.selectors, ∃ target ∈ targets, q = ⟨id, u, target, m.scope r.containers⟩ := by
  rw [markerRequests]
  cases Target.readList m.allowsAll m.targets with
  | none => simp
  | some targets =>
    simp only [List.mem_flatMap, List.mem_map, Option.some.injEq, exists_eq_left', eq_comm]

theorem mem_trailingRequests : q ∈ r.trailingRequests dialect id ↔ dialect = .less ∧
    ∃ u ∈ r.selectors, ∃ extender targets, u.takeExtends? = some (extender, targets) ∧
      ∃ target ∈ targets, q = ⟨id, extender, target, r.containers⟩ := by
  cases dialect with
  | scss => simp [trailingRequests]
  | less =>
    rw [trailingRequests, List.mem_flatMap]
    constructor
    · rintro ⟨u, hu, hq⟩
      split at hq
      · next extender targets htake =>
        obtain ⟨target, htarget, rfl⟩ := List.mem_map.mp hq
        exact ⟨rfl, u, hu, extender, targets, htake, target, htarget, rfl⟩
      · cases hq
    · rintro ⟨-, u, hu, extender, targets, htake, target, htarget, rfl⟩
      refine ⟨u, hu, ?_⟩
      rw [htake]
      exact List.mem_map_of_mem htarget

theorem mem_requests : q ∈ r.requests dialect id ↔ q ∈ r.trailingRequests dialect id ∨
    ∃ m ∈ r.markers, q ∈ (r.stripped dialect).markerRequests id m := by
  rw [requests, List.mem_append, List.mem_flatMap]

theorem requester_of_mem_requests (h : q ∈ r.requests dialect id) : q.requester = id := by
  rcases mem_requests.mp h with h | ⟨m, -, h⟩
  · obtain ⟨-, u, -, extender, targets, -, target, -, rfl⟩ := mem_trailingRequests.mp h
    rfl
  · obtain ⟨targets, -, u, -, target, -, rfl⟩ := mem_markerRequests.mp h
    rfl

end Rule

/-- A target that is compared as a whole is not empty. -/
theorem Store.isEmpty_target {q : Request} (h : q ∈ s.requests) (hstrict : q.target.mode = .strict) :
    q.target.selector.isEmpty = false := by
  obtain ⟨i, r, -, hq⟩ := mem_requests.mp h
  rcases Rule.mem_requests.mp hq with hq | ⟨m, -, hq⟩
  · obtain ⟨-, u, -, extender, targets, htake, target, htarget, rfl⟩ :=
      Rule.mem_trailingRequests.mp hq
    obtain ⟨text, list, hread, hmem⟩ := exists_readList_of_takeExtends htake target htarget
    exact Target.isEmpty_of_readList hread target hmem hstrict
  · obtain ⟨targets, hread, u, -, target, htarget, rfl⟩ := Rule.mem_markerRequests.mp hq
    exact Target.isEmpty_of_readList hread target htarget hstrict

end NestedCss.Extend
