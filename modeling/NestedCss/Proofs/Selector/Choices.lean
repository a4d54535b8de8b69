import Mathlib.Algebra.Group.Nat.Defs
import Mathlib.Data.List.Basic
import NestedCss.Selector.Nesting

/-!
# Choices and turns

The two ways in which nesting goes through lists. A choice is a row of counters, the last of which
turns fastest; members of several lists are taken in turns.

* `exists_nextChoice?`: the next choice is the first of those that are later;
* **`mem_choices`**, `pairwise_choicesFrom`, `length_choices`: each choice is met once, in order;
* `takeTurns_eq`, `roundRobin_eq_takeTurns`: in which order members are taken;
* `distinctOn_eq`: of members with the same key the first is left.
-/

namespace NestedCss

variable {α κ : Type}

/-! ## Counting through the choices -/

section Choices

variable {n k : ℕ} {choice next c : List ℕ}

/-- The next choice is a later one. -/
theorem lt_of_nextChoice? (h : nextChoice? n choice = some next) : choice < next := by
  induction choice generalizing next with
  | nil => cases h
  | cons i rest ih =>
    rw [nextChoice?] at h
    split at h
    · next hrest =>
      cases h
      exact List.cons_lt_cons_iff.mpr (.inr ⟨rfl, ih hrest⟩)
    · split at h
      · cases h
        exact List.cons_lt_cons_iff.mpr (.inl (Nat.lt_succ_self i))
      · cases h

theorem bounded_of_nextChoice? (h : nextChoice? n choice = some next) (hchoice : ∀ i ∈ choice, i < n) :
    ∀ i ∈ next, i < n := by
  induction choice generalizing next with
  | nil => cases h
  | cons i rest ih =>
    obtain ⟨hi, hrest⟩ := List.forall_mem_cons.mp hchoice
    rw [nextChoice?] at h
    split at h
    · next hnext =>
      cases h
      exact List.forall_mem_cons.mpr ⟨hi, ih hnext hrest⟩
    · split at h
      · next hi' =>
        cases h
        refine List.forall_mem_cons.mpr ⟨hi', fun j hj => ?_⟩
        rw [List.eq_of_mem_replicate hj]
        exact Nat.zero_lt_of_lt hi
      · cases h

theorem eq_or_zeros_lt (c : List ℕ) : c = List.replicate c.length 0 ∨ List.replicate c.length 0 < c := by
  induction c with
  | nil => exact .inl rfl
  | cons i rest ih =>
    rw [List.length_cons, List.replicate_succ, List.cons_lt_cons_iff, List.cons_eq_cons]
    rcases Nat.eq_zero_or_pos i with rfl | hi
    · exact ih.imp (⟨rfl, ·⟩) (.inr ⟨rfl, ·⟩)
    · exact .inr (.inl hi)

/-- **No choice is skipped**: one that is later than another is the next one or later than that. -/
theorem exists_nextChoice? (hlt : choice < c) (hlength : c.length = choice.length)
    (hc : ∀ i ∈ c, i < n) : ∃ next, nextChoice? n choice = some next ∧ (c = next ∨ next < c) := by
  induction choice generalizing c with
  | nil =>
    rw [List.length_eq_zero_iff.mp hlength] at hlt
    exact absurd hlt (List.lt_irrefl _)
  | cons i rest ih =>
    obtain ⟨j, c, rfl⟩ := List.exists_cons_of_length_eq_add_one hlength
    obtain ⟨hj, hrest⟩ := List.forall_mem_cons.mp hc
    have hlength' : c.length = rest.length := Nat.succ.inj hlength
    rw [nextChoice?]
    rcases List.cons_lt_cons_iff.mp hlt with hij | ⟨rfl, hlt'⟩
    · cases nextChoice? n rest with
      | some next =>
        exact ⟨i :: next, rfl, .inr (List.cons_lt_cons_iff.mpr (.inl hij))⟩
      | none =>
        refine ⟨_, if_pos (Nat.lt_of_le_of_lt hij hj), ?_⟩
        rw [List.cons_lt_cons_iff, List.cons_eq_cons, ← hlength']
        rcases Nat.eq_or_lt_of_le hij with rfl | hij
        · exact (eq_or_zeros_lt c).imp (⟨rfl, ·⟩) (.inr ⟨rfl, ·⟩)
        · exact .inr (.inl hij)
    · obtain ⟨next, hnext, hle⟩ := ih hlt' hlength' hrest
      refine ⟨i :: next, by rw [hnext], ?_⟩
      rw [List.cons_lt_cons_iff, List.cons_eq_cons]
      exact hle.imp (⟨rfl, ·⟩) (.inr ⟨rfl, ·⟩)

theorem eq_or_lt_of_mem_choicesFrom (h : c ∈ choicesFrom n choice) : c = choice ∨ choice < c := by
  fun_induction choicesFrom n choice with
  | case1 choice next hnext ih =>
    rcases List.mem_cons.mp h with rfl | h
    · exact .inl rfl
    · have hlt := lt_of_nextChoice? hnext
      rcases ih h with rfl | hlt'
      · exact .inr hlt
      · exact .inr (List.lt_trans hlt hlt')
  | case2 choice hnext => exact .inl (List.mem_singleton.mp h)

/-- **Choices come in lexicographic order**, each of them once. -/
theorem pairwise_choicesFrom (n : ℕ) (choice : List ℕ) : (choicesFrom n choice).Pairwise (· < ·) := by
  fun_induction choicesFrom n choice with
  | case1 choice next hnext ih =>
    refine List.pairwise_cons.mpr ⟨fun c hc => ?_, ih⟩
    have hlt := lt_of_nextChoice? hnext
    rcases eq_or_lt_of_mem_choicesFrom hc with rfl | hlt'
    · exact hlt
    · exact List.lt_trans hlt hlt'
  | case2 choice hnext => exact List.pairwise_singleton _ _

theorem length_choicesFrom (n : ℕ) (choice : List ℕ) :
    (choicesFrom n choice).length = choicesBehind n choice + 1 := by
  fun_induction choicesFrom n choice with
  | case1 choice next hnext ih => rw [List.length_cons, ih, choicesBehind_of_some hnext]
  | case2 choice hnext => rw [choicesBehind_of_none hnext, List.length_singleton]

theorem bounded_of_mem_choicesFrom (hchoice : ∀ i ∈ choice, i < n) (h : c ∈ choicesFrom n choice) :
    ∀ i ∈ c, i < n := by
  fun_induction choicesFrom n choice with
  | case1 choice next hnext ih =>
    rcases List.mem_cons.mp h with rfl | h
    · exact hchoice
    · exact ih (bounded_of_nextChoice? hnext hchoice) h
  | case2 choice hnext =>
    rw [List.mem_singleton.mp h]
    exact hchoice

theorem mem_choicesFrom (hle : c = choice ∨ choice < c) (hlength : c.length = choice.length)
    (hc : ∀ i ∈ c, i < n) : c ∈ choicesFrom n choice := by
  fun_induction choicesFrom n choice with
  | case1 choice next hnext ih =>
    rcases hle with rfl | hlt
    · exact List.mem_cons_self
    · obtain ⟨next', hnext', hle⟩ := exists_nextChoice? hlt hlength hc
      obtain rfl : next = next' := Option.some.inj (hnext.symm.trans hnext')
      exact List.mem_cons_of_mem _ (ih hle (hlength.trans (length_of_nextChoice? hnext).symm))
  | case2 choice hnext =>
    rcases hle with rfl | hlt
    · exact List.mem_singleton_self _
    · obtain ⟨_, hnext', -⟩ := exists_nextChoice? hlt hlength hc
      rw [hnext] at hnext'
      cases hnext'

theorem length_of_mem_choicesFrom (h : c ∈ choicesFrom n choice) : c.length = choice.length := by
  fun_induction choicesFrom n choice with
  | case1 choice next hnext ih =>
    rcases List.mem_cons.mp h with rfl | h
    · rfl
    · rw [ih h, length_of_nextChoice? hnext]
  | case2 choice hnext => rw [List.mem_singleton.mp h]

theorem length_of_mem_choices (h : c ∈ choices n k) : c.length = k := by
  rw [length_of_mem_choicesFrom h, List.length_replicate]

/-- **All choices are met**, and nothing else is. -/
theorem mem_choices (hn : 0 < n) : c ∈ choices n k ↔ c.length = k ∧ ∀ i ∈ c, i < n := by
  constructor
  · intro h
    refine ⟨length_of_mem_choices h, bounded_of_mem_choicesFrom (fun i hi => ?_) h⟩
    rwa [List.eq_of_mem_replicate hi]
  · rintro ⟨rfl, hc⟩
    exact mem_choicesFrom (eq_or_zeros_lt c) List.length_replicate.symm hc

theorem length_choices (hn : 0 < n) (k : ℕ) : (choices n k).length = n ^ k := by
  rw [choices, length_choicesFrom, choicesBehind_replicate hn]
  rfl

/-- What is chosen is one of the alternatives, or else the default. -/
theorem forall_mem_map_getD {p : α → Prop} {l : List α} {default : α} (hl : ∀ a ∈ l, p a)
    (hdefault : p default) (choice : List ℕ) : ∀ a ∈ choice.map (l.getD · default), p a := by
  refine List.forall_mem_map.mpr fun i _ => ?_
  rw [List.getD_eq_getElem?_getD]
  cases hi : l[i]? with
  | none => exact hdefault
  | some a => exact hl a (List.mem_of_getElem? hi)

end Choices

/-! ## Taking turns -/

theorem exists_of_mem_takeTurns {n : ℕ} {lists : List (List α)} {a : α}
    (h : a ∈ takeTurns n lists) : ∃ l ∈ lists, a ∈ l := by
  induction n generalizing lists with
  | zero => cases h
  | succ n ih =>
    rcases List.mem_append.mp h with h | h
    · obtain ⟨l, hl, ha⟩ := List.mem_filterMap.mp h
      exact ⟨l, hl, List.mem_of_mem_head? ha⟩
    · obtain ⟨l, hl, ha⟩ := ih h
      obtain ⟨l, hl', rfl⟩ := List.mem_map.mp hl
      exact ⟨l, hl', List.mem_of_mem_tail ha⟩

/-- A turn takes from each list the member in the place of the turn. -/
theorem takeTurns_eq (n : ℕ) (lists : List (List α)) :
    takeTurns n lists = (List.range n).flatMap fun turn => lists.filterMap (·[turn]?) := by
  induction n generalizing lists with
  | zero => rfl
  | succ n ih =>
    have hhead : (List.head? : List α → Option α) = (·[0]?) := funext fun l => List.head?_eq_getElem?
    rw [takeTurns, ih, List.range_succ_eq_map, List.flatMap_cons, List.flatMap_map, hhead]
    congr 1
    refine List.flatMap_congr fun turn _ => ?_
    rw [List.filterMap_map]
    exact List.filterMap_congr fun l _ => List.getElem?_tail

/-- Nothing is left after as many turns as the longest list has members. -/
theorem roundRobin_eq_takeTurns {lists : List (List α)} {n : ℕ} (h : ∀ l ∈ lists, l.length ≤ n) :
    roundRobin lists = takeTurns n lists := by
  have hle : (lists.map List.length).max?.getD 0 ≤ n := by
    cases hmax : (lists.map List.length).max? with
    | none => exact Nat.zero_le n
    | some longest =>
      obtain ⟨l, hl, rfl⟩ := List.mem_map.mp (List.max?_mem hmax)
      exact h l hl
  have hlongest : ∀ l ∈ lists, l.length ≤ (lists.map List.length).max?.getD 0 := by
    intro l hl
    exact List.le_max?_getD_of_mem (List.mem_map_of_mem hl)
  obtain ⟨k, hk⟩ := Nat.exists_eq_add_of_le hle
  have hnone : (List.range k).flatMap (fun turn => lists.filterMap
      (·[(lists.map List.length).max?.getD 0 + turn]?)) = [] := by
    refine List.flatMap_eq_nil_iff.mpr fun turn _ => List.filterMap_eq_nil_iff.mpr fun l hl => ?_
    exact List.getElem?_eq_none (Nat.le_add_right_of_le (hlongest l hl))
  rw [roundRobin, takeTurns_eq, takeTurns_eq, hk, List.range_add, List.flatMap_append,
    List.flatMap_map, hnone, List.append_nil]

/-- In turns, the values of a function are met by its first argument. -/
theorem takeTurns_map {β γ : Type} (f : α → β → γ) (as : List α) (bs : List β) :
    takeTurns as.length (bs.map fun b => as.map (f · b)) = as.flatMap fun a => bs.map (f a) := by
  induction as with
  | nil => rfl
  | cons a as ih =>
    rw [List.length_cons, takeTurns, List.filterMap_map, List.map_map, List.flatMap_cons, ← ih]
    congr 1
    exact congrFun List.filterMap_eq_map bs

/-! ## Leaving out what was seen -/

theorem distinctFrom_sublist [Ord κ] (key : α → κ) (seen : Std.TreeSet κ) (l : List α) :
    (distinctFrom key seen l).Sublist l := by
  induction l generalizing seen with
  | nil => exact .slnil
  | cons a l ih =>
    rw [distinctFrom]
    split
    · exact (ih seen).cons a
    · exact (ih _).cons_cons a

section Distinct

variable [Ord κ] [Std.TransOrd κ] [Std.LawfulEqOrd κ] [BEq κ] [LawfulBEq κ]

theorem distinctFrom_eq (key : α → κ) (seen : Std.TreeSet κ) (l : List α) :
    distinctFrom key seen l =
      (l.filter fun a => !seen.contains (key a)).eraseDupsBy (key · == key ·) := by
  induction l generalizing seen with
  | nil => rfl
  | cons a l ih =>
    rw [distinctFrom, List.filter_cons]
    split
    · next h => rw [ih, h, Bool.not_true, if_neg Bool.false_ne_true]
    · next h =>
      have hfilter : (l.filter fun b => !(seen.insert (key a)).contains (key b)) =
          (l.filter fun b => !seen.contains (key b)).filter
            fun b => decide ((key b == key a) = false) := by
        rw [List.filter_filter]
        refine List.filter_congr fun b _ => ?_
        have hcompare : (compare (key a) (key b) == .eq) = (key b == key a) := by
          rw [Bool.eq_iff_iff, beq_iff_eq, beq_iff_eq, Std.compare_eq_iff_eq, eq_comm]
        rw [Std.TreeSet.contains_insert, hcompare]
        cases key b == key a <;> cases seen.contains (key b) <;> rfl
      rw [Bool.not_eq_true] at h
      rw [ih, hfilter, h, Bool.not_false, if_pos rfl, List.eraseDupsBy_cons]

/-- Of the members with the same key only the first is left. -/
theorem distinctOn_eq (key : α → κ) (l : List α) :
    distinctOn key l = l.eraseDupsBy (key · == key ·) := by
  simp [distinctOn, distinctFrom_eq]

end Distinct

end NestedCss
