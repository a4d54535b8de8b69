import NestedCss.Proofs.Extend.Filled
import NestedCss.Proofs.Extend.Worklist

/-!
# What a rule sees of the extends

A rule only ever grows by requests that reach it, and an extend of LESS reaches the rules within the
at-rules around it. So what other rules ask of each other does not show in its selectors.

* `Store.visible`: the requests that reach a place;
* `Store.entries_resolve_congr`: what `Store.resolve` makes of a rule depends on nothing else;
* `RuleAlike`, `StoreAlike`: stores that differ in what cannot be seen from a place;
* **`StoreAlike.rules_resolve`**: from there, they resolve to the same.
-/

namespace NestedCss.Extend

variable {s s' : Store} {id : RuleId} {r r' : Rule} {containers around : List ContainerId}

/-! ## Visible requests -/

/-- The requests that reach a rule within the given at-rules. -/
def Store.visible (s : Store) (containers : List ContainerId) : List Request :=
  s.requests.filter (·.reaches containers)

theorem offers_visible (e : Entry) : offers (s.visible containers) id containers e =
    offers s.requests id containers e := by
  have hsatisfied : (fun q : Request => q.isSatisfiedBy containers e.selector && q.reaches containers) =
      (·.isSatisfiedBy containers e.selector) := by
    funext q
    rw [Request.isSatisfiedBy]
    cases q.reaches containers <;> simp
  rw [offers, offers, Store.visible, List.filter_filter, hsatisfied]

/-- What the requests that reach a rule make of one of its entries does not depend on where it is. -/
theorem offers_visible_congr (h : s'.visible r'.containers = s.visible r.containers) :
    offers s'.requests id r'.containers = offers s.requests id r.containers := by
  have hreaches {s : Store} {r : Rule} {e : Entry} :
      (s.visible r.containers).filter (·.isSatisfiedBy r.containers e.selector) =
        (s.visible r.containers).filter (·.target.accepts e.selector) := by
    refine List.filter_congr fun q hq => ?_
    have hq : q.reaches r.containers = true := (List.mem_filter.mp hq).2
    rw [Request.isSatisfiedBy, hq, Bool.true_and]
  funext e
  rw [← offers_visible, ← offers_visible, offers, offers, hreaches, hreaches, h]

/-- **What is made of a rule** depends on its own selectors and on the requests that reach it. -/
theorem Store.entries_resolve_congr (hr : s.rules[id]? = some r) (hr' : s'.rules[id]? = some r')
    (hentries : (r'.stripped s'.dialect).entries = (r.stripped s.dialect).entries)
    (hvisible : s'.visible r'.containers = s.visible r.containers) :
    s'.resolve.rules[id]?.map Rule.entries = s.resolve.rules[id]?.map Rule.entries := by
  rw [rules_resolve hr, rules_resolve hr']
  simp only [Option.map_some, Rule.growth, Rule.containers_stripped, hentries,
    offers_visible_congr hvisible]

/-! ## Scopes of requests -/

/-- What a rule asks for in LESS is for the rules within the at-rules around it. -/
theorem Rule.scope_of_mem_requests {q : Request} (hless : ∀ m ∈ r.markers, m.dialect = .less)
    (h : q ∈ r.requests .less id) : q.scope = r.containers := by
  rcases mem_requests.mp h with h | ⟨m, hm, h⟩
  · obtain ⟨-, u, -, extender, targets, -, target, -, rfl⟩ := mem_trailingRequests.mp h
    rfl
  · obtain ⟨targets, -, u, -, target, -, rfl⟩ := mem_markerRequests.mp h
    rw [Marker.scope, hless m hm, Rule.containers_stripped]

/-! ## Stores that look the same -/

/-- The rules stand within the same at-rules, and if all of these are around a place, the rules are the
same. -/
structure RuleAlike (around : List ContainerId) (r r' : Rule) : Prop where
  containers : r'.containers = r.containers
  visible : r.containers ⊆ around → r' = r
  less : (∀ m ∈ r.markers, m.dialect = .less) ∧ ∀ m ∈ r'.markers, m.dialect = .less

/-- LESS stores that look the same from within the given at-rules. -/
structure StoreAlike (around : List ContainerId) (s s' : Store) : Prop where
  length_eq : s'.rules.length = s.rules.length
  rules : ∀ {i : RuleId} {r r' : Rule}, s.rules[i]? = some r → s'.rules[i]? = some r' →
    RuleAlike around r r'
  containers : s'.containers = s.containers
  less : s.dialect = .less ∧ s'.dialect = .less

theorem RuleAlike.filter_requests (h : RuleAlike around r r') :
    (r'.requests .less id).filter (·.reaches around) = (r.requests .less id).filter (·.reaches around) := by
  by_cases hvisible : r.containers ⊆ around
  · rw [h.visible hvisible]
  · have hnone {a : Rule} (hless : ∀ m ∈ a.markers, m.dialect = .less) (ha : a.containers = r.containers) :
        (a.requests .less id).filter (·.reaches around) = [] := by
      rw [List.filter_eq_nil_iff]
      intro q hq hreaches
      rw [Request.reaches, Rule.scope_of_mem_requests hless hq, ha, List.isPrefixOf_iff_prefix] at hreaches
      exact hvisible hreaches.subset
    rw [hnone h.less.1 rfl, hnone h.less.2 h.containers]

namespace StoreAlike

theorem symm (h : StoreAlike around s s') : StoreAlike around s' s := by
  refine ⟨h.length_eq.symm, fun hr' hr => ?_, h.containers.symm, h.less.2, h.less.1⟩
  have halike := h.rules hr hr'
  exact ⟨halike.containers.symm, fun hsub => (halike.visible (halike.containers ▸ hsub)).symm,
    halike.less.2, halike.less.1⟩

theorem exists_alike (h : StoreAlike around s s') (hr : s.rules[id]? = some r) :
    ∃ r', s'.rules[id]? = some r' ∧ RuleAlike around r r' := by
  have hid := (List.getElem?_eq_some_iff.mp hr).1
  have hr' := List.getElem?_eq_getElem (h.length_eq ▸ hid : id < s'.rules.length)
  exact ⟨_, hr', h.rules hr hr'⟩

theorem visible_eq (h : StoreAlike around s s') : s'.visible around = s.visible around := by
  rw [Store.visible, Store.visible, Store.requests, Store.requests, h.less.1, h.less.2,
    List.filter_flatten, List.filter_flatten]
  congr 1
  refine List.ext_getElem? fun i => ?_
  rw [List.getElem?_map, List.getElem?_map, List.getElem?_mapIdx, List.getElem?_mapIdx]
  cases hr : s.rules[i]? with
  | none =>
    rw [List.getElem?_eq_none_iff, ← h.length_eq, ← List.getElem?_eq_none_iff] at hr
    rw [hr]
  | some r =>
    obtain ⟨r', hr', halike⟩ := h.exists_alike hr
    rw [hr']
    exact congrArg some halike.filter_requests

/-- **What is around a place sees the same**: rules there come out the same. -/
theorem rules_resolve (h : StoreAlike around s s') (hr : s.rules[id]? = some r)
    (haround : r.containers = around) :
    s'.rules[id]? = some r ∧ s'.resolve.rules[id]? = s.resolve.rules[id]? := by
  obtain ⟨r', hr', halike⟩ := h.exists_alike hr
  obtain rfl : r' = r := halike.visible (haround ▸ List.Subset.refl _)
  have hvisible : s'.visible r'.containers = s.visible r'.containers := by rw [haround, h.visible_eq]
  refine ⟨hr', ?_⟩
  rw [Store.rules_resolve hr, Store.rules_resolve hr', h.less.1, h.less.2]
  simp only [Rule.growth, Rule.containers_stripped, offers_visible_congr hvisible]

/-! ## Filling them -/

theorem empty (around : List ContainerId) : StoreAlike around (.empty .less) (.empty .less) :=
  ⟨rfl, fun hr => by simp [Store.empty] at hr, rfl, rfl, rfl⟩

theorem addContainer (h : StoreAlike around s s') :
    StoreAlike around s.addContainer.2 s'.addContainer.2 :=
  ⟨h.length_eq, h.rules, congrArg (· + 1) h.containers, h.less⟩

/-- A rule may have other selectors if it cannot be seen. -/
theorem addRule (h : StoreAlike around s s') {selectors selectors' : List Selector}
    (hvisible : containers ⊆ around → selectors' = selectors) :
    StoreAlike around (s.addRule selectors containers).2 (s'.addRule selectors' containers).2 := by
  refine ⟨by simp [Store.addRule, h.length_eq], fun {i r r'} hr hr' => ?_, h.containers, h.less⟩
  simp only [Store.addRule] at hr hr'
  by_cases hi : i < s.rules.length
  · rw [List.getElem?_append_left hi] at hr
    rw [List.getElem?_append_left (h.length_eq ▸ hi)] at hr'
    exact h.rules hr hr'
  · rw [List.getElem?_append_right (Nat.le_of_not_lt hi), List.getElem?_singleton] at hr
    rw [List.getElem?_append_right (h.length_eq ▸ Nat.le_of_not_lt hi), List.getElem?_singleton] at hr'
    split at hr
    · cases hr
      split at hr'
      · cases hr'
        refine ⟨rfl, fun hsub => by rw [hvisible hsub], ?_, ?_⟩ <;> simp [Rule.ofSelectors]
      · cases hr'
    · cases hr

/-- The same extend of the same rule changes nothing. -/
theorem addMarker (h : StoreAlike around s s') {m : Marker} (hm : m.dialect = .less) (id : RuleId) :
    StoreAlike around (s.addMarker id m) (s'.addMarker id m) := by
  refine ⟨by simp [Store.addMarker, h.length_eq], fun {i r r'} hr hr' => ?_, h.containers, h.less⟩
  rw [Store.getElem?_addMarker] at hr hr'
  obtain ⟨a, ha, rfl⟩ := Option.map_eq_some_iff.mp hr
  obtain ⟨a', ha', rfl⟩ := Option.map_eq_some_iff.mp hr'
  have halike := h.rules ha ha'
  split
  · refine ⟨halike.containers, fun hsub => by rw [halike.visible hsub], ?_, ?_⟩
    · simpa [or_imp, forall_and, hm] using halike.less.1
    · simpa [or_imp, forall_and, hm] using halike.less.2
  · exact halike

/-- An extend of a rule that cannot be seen cannot be seen. -/
theorem addMarker_left (h : StoreAlike around s s') {m : Marker} (hm : m.dialect = .less)
    (hr : s.rules[id]? = some r) (hhidden : ¬ r.containers ⊆ around) :
    StoreAlike around (s.addMarker id m) s' := by
  refine ⟨by simp [Store.addMarker, h.length_eq], fun {i a a'} ha ha' => ?_, h.containers, h.less⟩
  rw [Store.getElem?_addMarker] at ha
  obtain ⟨b, hb, rfl⟩ := Option.map_eq_some_iff.mp ha
  have halike := h.rules hb ha'
  split
  · next hi =>
    subst hi
    obtain rfl : b = r := Option.some.inj (hb.symm.trans hr)
    refine ⟨halike.containers, fun hsub => absurd hsub hhidden, ?_, halike.less.2⟩
    simpa [or_imp, forall_and, hm] using halike.less.1
  · exact halike

theorem addMarker_right (h : StoreAlike around s s') {m : Marker} (hm : m.dialect = .less)
    (hr : s.rules[id]? = some r) (hhidden : ¬ r.containers ⊆ around) :
    StoreAlike around s (s'.addMarker id m) := by
  obtain ⟨r', hr', halike⟩ := h.exists_alike hr
  exact (h.symm.addMarker_left hm hr' (halike.containers ▸ hhidden)).symm

end StoreAlike

end NestedCss.Extend
