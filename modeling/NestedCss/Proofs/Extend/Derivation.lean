import Mathlib.Data.List.Basic
import NestedCss.Proofs.Extend.Worklist
import NestedCss.Proofs.Selector.Equality

/-!
# Where selectors come from

Extending adds to a rule, one at a time, selectors that a request makes of a selector before them.

* `Request.Makes`: the request makes one entry of another;
* `Grown`: the lists of entries that arise in this way;
* `Rule.grown_growth`: the rounds of a rule go through such lists;
* **`Store.resolve_derived`**: every selector that a rule gains has an account.
-/

namespace NestedCss.Extend

variable {requests : List Request} {id : RuleId} {containers : List ContainerId}

/-! ## One request -/

/-- Request `q` makes entry `e` of entry `d` of rule `id`, which stands within the given at-rules. -/
structure Request.Makes (q : Request) (id : RuleId) (containers : List ContainerId) (d e : Entry) :
    Prop where
  reaches : q.reaches containers
  accepts : q.target.accepts d.selector
  requester : q.requester ∉ d.origins
  /-- A rule does not extend the selector that it extends with. -/
  foreign : ¬ (id = q.requester ∧ d.selector.same q.extender)
  selector : e.selector = q.replacement d.selector
  origins : e.origins = q.requester :: d.origins
  isEmpty : e.selector.isEmpty = false

theorem Request.produce?_eq_some {q : Request} {d e : Entry} :
    q.produce? id d = some e ↔ q.requester ∉ d.origins ∧
      ¬ (id = q.requester ∧ d.selector.same q.extender) ∧
      (q.replacement d.selector).isEmpty = false ∧
      ⟨q.replacement d.selector, q.requester :: d.origins⟩ = e := by
  simp only [produce?, Option.ite_none_left_eq_some, Option.some.injEq, Bool.or_eq_true,
    List.contains_iff_mem, Bool.and_eq_true, beq_iff_eq, not_or, Bool.not_eq_true, and_assoc]

theorem mem_offers {d e : Entry} :
    e ∈ offers requests id containers d ↔ ∃ q ∈ requests, q.Makes id containers d e := by
  simp only [offers, List.mem_filterMap, List.mem_filter, Request.isSatisfiedBy, Bool.and_eq_true,
    Request.produce?_eq_some]
  constructor
  · rintro ⟨q, ⟨hq, hreaches, haccepts⟩, hrequester, hforeign, hempty, rfl⟩
    exact ⟨q, hq, hreaches, haccepts, hrequester, hforeign, rfl, rfl, hempty⟩
  · rintro ⟨q, hq, hm⟩
    refine ⟨q, ⟨hq, hm.reaches, hm.accepts⟩, hm.requester, hm.foreign, hm.selector ▸ hm.isEmpty, ?_⟩
    rw [← hm.selector, ← hm.origins]

/-! ## New entries -/

theorem mem_of_mem_fresh {known c : List Entry} {e : Entry} (h : e ∈ fresh known c) : e ∈ c := by
  induction c generalizing known with
  | nil => exact h
  | cons a c ih =>
    simp only [fresh] at h
    split at h
    · exact List.mem_cons_of_mem _ (ih h)
    · rcases List.mem_cons.mp h with rfl | h
      · exact List.mem_cons_self
      · exact List.mem_cons_of_mem _ (ih h)

/-- What is not new is known, up to equality of selectors. -/
theorem exists_same_of_mem (known : List Entry) {c : List Entry} {e : Entry} (h : e ∈ c) :
    ∃ x ∈ known ++ fresh known c, x.selector.same e.selector := by
  induction c generalizing known with
  | nil => cases h
  | cons a c ih =>
    simp only [fresh]
    split
    · next hknown =>
      rcases List.mem_cons.mp h with rfl | h
      · obtain ⟨x, hx, hsame⟩ := List.any_eq_true.mp hknown
        exact ⟨x, List.mem_append_left _ hx, hsame⟩
      · exact ih known h
    · rcases List.mem_cons.mp h with rfl | h
      · exact ⟨e, by simp, Selector.same_refl _⟩
      · obtain ⟨x, hx, hsame⟩ := ih (known ++ [a]) h
        exact ⟨x, by simpa using hx, hsame⟩

/-! ## Lists of entries that arise by extending -/

/-- The entries of a rule that grew from `start`: each one more is made of one that was there, and its
selector is new. -/
inductive Grown (requests : List Request) (id : RuleId) (containers : List ContainerId)
    (start : List Entry) : List Entry → Prop
  | start : Grown requests id containers start start
  | add {l : List Entry} {d e : Entry} {q : Request} : Grown requests id containers start l →
      d ∈ l → q ∈ requests → q.Makes id containers d e →
      (∀ x ∈ l, x.selector.same e.selector = false) → Grown requests id containers start (l ++ [e])

namespace Grown

variable {start l : List Entry}

/-- What is new among entries that requests make of the entries of a rule may join them. -/
theorem append_fresh (h : Grown requests id containers start l) {c : List Entry}
    (hc : ∀ e ∈ c, ∃ d ∈ l, e ∈ offers requests id containers d) :
    Grown requests id containers start (l ++ fresh l c) := by
  induction c generalizing l with
  | nil => simpa [fresh] using h
  | cons e c ih =>
    simp only [fresh]
    split
    · exact ih h fun e' he' => hc e' (List.mem_cons_of_mem _ he')
    · next hnew =>
      obtain ⟨d, hd, hmade⟩ := hc e List.mem_cons_self
      obtain ⟨q, hq, hm⟩ := mem_offers.mp hmade
      have hnew' : ∀ x ∈ l, x.selector.same e.selector = false := by simpa using hnew
      rw [← List.singleton_append, ← List.append_assoc]
      refine ih (h.add hd hq hm hnew') fun e' he' => ?_
      obtain ⟨d', hd', hmade'⟩ := hc e' (List.mem_cons_of_mem _ he')
      exact ⟨d', List.mem_append_left _ hd', hmade'⟩

theorem isPrefix (h : Grown requests id containers start l) : start <+: l := by
  induction h with
  | start => exact List.prefix_refl _
  | add _ _ _ _ _ ih => exact ih.trans (List.prefix_append _ _)

/-- Every entry beyond the first ones is made of an entry before it and differs from all of these. -/
theorem exists_makes (h : Grown requests id containers start l) {i : Nat} {e : Entry}
    (hi : start.length ≤ i) (he : l[i]? = some e) :
    ∃ j d, j < i ∧ l[j]? = some d ∧ (∃ q ∈ requests, q.Makes id containers d e) ∧
      ∀ k x, k < i → l[k]? = some x → x.selector.same e.selector = false := by
  induction h with
  | start =>
    have hlt := (List.getElem?_eq_some_iff.mp he).1
    omega
  | @add l d e' q _ hd hq hm hnew ih =>
    by_cases hlt : i < l.length
    · rw [List.getElem?_append_left hlt] at he
      obtain ⟨j, d', hj, hd', hmade, hdiff⟩ := ih he
      refine ⟨j, d', hj, ?_, hmade, fun k x hk hx => hdiff k x hk ?_⟩
      · rw [List.getElem?_append_left (by omega), hd']
      · rwa [List.getElem?_append_left (by omega)] at hx
    · have hi' : i = l.length := by
        have := (List.getElem?_eq_some_iff.mp he).1
        rw [List.length_append, List.length_singleton] at this
        omega
      subst hi'
      rw [List.getElem?_concat_length] at he
      cases he
      obtain ⟨j, hj, rfl⟩ := List.mem_iff_getElem.mp hd
      refine ⟨j, l[j], hj, ?_, ⟨q, hq, hm⟩, fun k x hk hx => ?_⟩
      · rw [List.getElem?_append_left hj, List.getElem?_eq_getElem hj]
      · rw [List.getElem?_append_left hk] at hx
        exact hnew x (List.mem_of_getElem? hx)

theorem same_eq_false (h : Grown requests id containers start l) {i j : Nat} {e x : Entry}
    (hi : start.length ≤ i) (hij : i ≠ j) (he : l[i]? = some e) (hx : l[j]? = some x) :
    e.selector.same x.selector = false := by
  rcases Nat.lt_or_gt_of_ne hij with hlt | hlt
  · obtain ⟨_, _, _, _, _, hdiff⟩ := h.exists_makes (Nat.le_trans hi (Nat.le_of_lt hlt)) hx
    exact hdiff i e hlt he
  · obtain ⟨_, _, _, _, _, hdiff⟩ := h.exists_makes hi he
    rw [Selector.same_comm]
    exact hdiff j x hlt hx

/-- Only the first entries can have an empty selector. -/
theorem mem_start_or_isEmpty_eq_false (h : Grown requests id containers start l) :
    ∀ e ∈ l, e ∈ start ∨ e.selector.isEmpty = false := by
  induction h with
  | start => exact fun e he => .inl he
  | add _ _ _ hm _ ih =>
    intro e he
    rcases List.mem_append.mp he with he | he
    · exact ih e he
    · obtain rfl := List.mem_singleton.mp he
      exact .inr hm.isEmpty

end Grown

/-! ## Whole runs -/

namespace Rule

theorem growth_latest_subset (r : Rule) (n : ℕ) :
    (r.growth requests id n).latest ⊆ (r.growth requests id n).entries := by
  cases n with
  | zero => exact List.Subset.refl _
  | succ n =>
    rw [growth_succ]
    exact List.subset_append_right _ _

/-- Every round of a rule adds entries that are accounted for. -/
theorem grown_growth (r : Rule) (n : ℕ) :
    Grown requests id r.containers r.entries (r.growth requests id n).entries := by
  induction n with
  | zero => exact .start
  | succ n ih =>
    rw [growth_succ]
    refine ih.append_fresh fun e he => ?_
    obtain ⟨d, hd, hmade⟩ := List.mem_flatMap.mp he
    exact ⟨d, growth_latest_subset r n hd, hmade⟩

end Rule

/-- **Every selector that a rule gains is accounted for.** Its selectors stay, without the markers at
their ends, and each one more is what a request makes of one before it. That there are as many sets of
origins as selectors holds by construction: an `Entry` is a selector together with its origins, where two
lists side by side could come apart. -/
theorem Store.resolve_derived {s : Store} {r : Rule} (h : s.rules[id]? = some r) :
    (r.stripped s.dialect).entries.length = r.entries.length ∧
      ∃ r', s.resolve.rules[id]? = some r' ∧ r'.containers = r.containers ∧ r'.markers = r.markers ∧
        (r.stripped s.dialect).entries <+: r'.entries ∧
        (r'.entries.map Entry.origins).length = r'.selectors.length ∧
        ∀ i e, r.entries.length ≤ i → r'.entries[i]? = some e →
          ∃ j d, j < i ∧ r'.entries[j]? = some d ∧
            (∃ q ∈ s.requests, q.Makes id r.containers d e) ∧
            ∀ k x, k < i → r'.entries[k]? = some x → x.selector.same e.selector = false := by
  have hlength : (r.stripped s.dialect).entries.length = r.entries.length := r.length_stripped _
  have hcontainers : (r.stripped s.dialect).containers = r.containers := r.containers_stripped _
  have hmarkers : (r.stripped s.dialect).markers = r.markers := r.markers_stripped _
  have hgrown : Grown s.requests id r.containers (r.stripped s.dialect).entries
      ((r.stripped s.dialect).growth s.requests id maxRounds).entries := by
    rw [← hcontainers]
    exact (r.stripped s.dialect).grown_growth maxRounds
  refine ⟨hlength, _, rules_resolve h, ?_⟩
  refine ⟨hcontainers, hmarkers, hgrown.isPrefix, ?_, fun i e hi he => ?_⟩
  · rw [Rule.selectors, List.length_map, List.length_map]
  · rw [← hlength] at hi
    exact hgrown.exists_makes hi he

/-- The store of `.a .b, .c { &:extend(.b all); }`. -/
def replacingStore : Store where
  dialect := .less
  rules := [{ entries := [⟨⟨[.className ['a'], .space, .className ['b']]⟩, []⟩, ⟨⟨[.className ['c']]⟩, []⟩]
              containers := []
              markers := [⟨.less, ".b all".toList⟩] }]
  containers := 0

/-- The rule gains `.a .c`, which its own request makes of `.a .b`. -/
theorem replacingStore_derived : ∃ r r', replacingStore.rules[0]? = some r ∧
    replacingStore.resolve.rules[0]? = some r' ∧ r.entries.length = 2 ∧
    r'.entries[2]? = some ⟨⟨[.className ['a'], .space, .className ['c']]⟩, [0]⟩ ∧
    ∃ j d, j < 2 ∧ r'.entries[j]? = some d ∧ ∃ q ∈ replacingStore.requests,
      q.Makes 0 [] d ⟨⟨[.className ['a'], .space, .className ['c']]⟩, [0]⟩ := by
  obtain ⟨r, hr⟩ : ∃ r, replacingStore.rules[0]? = some r := ⟨_, rfl⟩
  obtain ⟨-, r', hr', -, -, -, -, hmade⟩ := Store.resolve_derived hr
  have he : r'.entries[2]? = some ⟨⟨[.className ['a'], .space, .className ['c']]⟩, [0]⟩ := by
    have hentry : (replacingStore.resolve.rules[0]?.bind fun r => r.entries[2]?) =
        some ⟨⟨[.className ['a'], .space, .className ['c']]⟩, [0]⟩ := by decide +kernel
    rwa [hr'] at hentry
  cases hr
  obtain ⟨j, d, hj, hd, hm, -⟩ := hmade 2 _ (Nat.le_refl _) he
  exact ⟨_, r', rfl, hr', rfl, he, j, d, hj, hd, hm⟩

end NestedCss.Extend
