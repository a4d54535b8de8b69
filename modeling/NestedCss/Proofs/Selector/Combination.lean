import NestedCss.Proofs.Selector.Choices
import NestedCss.Proofs.Selector.Nonempty
import NestedCss.Proofs.Selector.Normal

/-!
# What nested lists stand for

A list of selectors is combined with the parents that it is nested under: each member is expanded by
itself, and the expansions of the members are taken in turns.

* `Selector.AllChoices`: the choices of one of `n` parents for each of `k` references, by what they are
  and how they are ordered;
* `Selector.Expands`: what one member stands for;
* **`Selector.combine_eq`**: what a list stands for, and for lists without `&` the product of parents
  and members.
-/

namespace NestedCss.Selector

variable {s t : Selector} {parents list : List Selector} {implicitParent : Bool} {n k : ℕ}

/-! ## Members -/

/-- The selector is a member of a list that was read. -/
def IsRead (s : Selector) : Prop :=
  ∃ allowed source list, readList allowed source = .ok list ∧ s ∈ list

/-- The selectors that a list nests under. If there are none, that counts as the empty one. -/
def alternatives (parents : List Selector) : List Selector :=
  if parents.isEmpty then [empty] else parents

/-- The number of references to a parent. -/
def references (s : Selector) : ℕ := s.fragments.countP Fragment.isNesting

/-- Whether two selectors are written in the same way. -/
def looksLike (s t : Selector) : Bool := s.text .expanded == t.text .expanded

/-- All choices of one of `n` alternatives at each of `k` places, each of them once and in lexicographic
order. -/
structure AllChoices (n k : ℕ) (all : List (List ℕ)) : Prop where
  mem_iff : ∀ choice, choice ∈ all ↔ choice.length = k ∧ ∀ i ∈ choice, i < n
  sorted : all.Pairwise (· < ·)
  length : all.length = n ^ k

/-- What a member stands for if it is nested under the given alternatives. Some of it may be empty. -/
inductive Expands (alternatives : List Selector) : Bool → Selector → List Selector → Prop
  /-- Without a reference, and not taken for a descendant, a selector stands for itself. -/
  | itself {s : Selector} : s.references = 0 → Expands alternatives false s [s]
  /-- Without a reference, a selector is taken for a descendant of each alternative. -/
  | descendants {s : Selector} : s.references = 0 →
      Expands alternatives true s (alternatives.map (descendant · s))
  /-- Each reference stands for every alternative, whatever the others stand for. -/
  | substitutions {s : Selector} {all : List (List ℕ)} (implicitParent : Bool) : s.references ≠ 0 →
      AllChoices alternatives.length s.references all →
      Expands alternatives implicitParent s
        (all.map fun choice => s.substitute (choice.map (alternatives.getD · empty)))

theorem alternatives_ne_nil (parents : List Selector) : alternatives parents ≠ [] := by
  rw [alternatives]
  split
  · exact List.cons_ne_nil _ _
  · next h => rwa [List.isEmpty_iff] at h

theorem allChoices_choices (hn : 0 < n) (k : ℕ) : AllChoices n k (choices n k) :=
  ⟨fun _ => mem_choices hn, pairwise_choicesFrom n _, length_choices hn k⟩

theorem mem_normalizeFrom {f : Fragment} (hf : f ≠ .space) {joins : Bool} {fragments : List Fragment}
    (h : f ∈ fragments) : f ∈ normalizeFrom joins fragments := by
  fun_induction normalizeFrom joins fragments with
  | case1 => exact h
  | case2 joins rest hjoins ih => exact List.mem_cons_of_mem _ (ih (List.mem_of_ne_of_mem hf h))
  | case3 joins rest hjoins ih => exact ih (List.mem_of_ne_of_mem hf h)
  | case4 joins g rest hg ih =>
    rcases List.mem_cons.mp h with rfl | h
    · exact List.mem_cons_self
    · exact List.mem_cons_of_mem _ (ih h)

namespace IsRead

theorem isEmpty (h : s.IsRead) : s.isEmpty = false := by
  obtain ⟨allowed, source, list, hread, hs⟩ := h
  rw [readList] at hread
  split at hread
  · next hscan =>
    cases hread
    exact isEmpty_of_scanList hscan s hs
  · cases hread

theorem isNormal (h : s.IsRead) : s.IsNormal := by
  obtain ⟨allowed, source, list, hread, hs⟩ := h
  rw [readList] at hread
  split at hread
  · next hscan =>
    cases hread
    obtain ⟨fragments, rfl, -⟩ := exists_of_scanList hscan s hs
    exact isNormal_ofFragments fragments
  · cases hread

/-- A descendant holds the first fragment of what was read, which is no white space. -/
theorem isEmpty_descendant (h : s.IsRead) (parent : Selector) : (parent.descendant s).isEmpty = false := by
  have hempty := h.isEmpty
  have hhead := h.isNormal.head
  obtain ⟨fragments⟩ := s
  cases fragments with
  | nil => cases hempty
  | cons f rest =>
    have hf : f ≠ .space := fun hspace => hhead (congrArg some hspace)
    have hmem : f ∈ (parent.descendant ⟨f :: rest⟩).fragments :=
      mem_normalizeFrom hf (List.mem_append_right _ (by simp))
    rw [Selector.isEmpty, List.isEmpty_eq_false_iff]
    exact List.ne_nil_of_mem hmem

end IsRead

/-- **What one member stands for.** -/
theorem exists_expands (hread : s.IsRead) (halternatives : parents ≠ []) (implicitParent : Bool) :
    ∃ candidates, Expands parents implicitParent s candidates ∧
      expansions parents implicitParent s = candidates.filter (!·.isEmpty) := by
  rw [expansions]
  split
  · next hnone =>
    cases implicitParent with
    | false => exact ⟨_, .itself hnone, by simp [hread.isEmpty]⟩
    | true => exact ⟨_, .descendants hnone, by simp⟩
  · next hsome =>
    have hpos : 0 < parents.length := List.length_pos_of_ne_nil halternatives
    exact ⟨_, .substitutions implicitParent hsome (allChoices_choices hpos _), rfl⟩

theorem expansions_eq_descendants (hread : s.IsRead) (hnone : s.references = 0)
    (parents : List Selector) : expansions parents true s = parents.map (descendant · s) := by
  rw [references] at hnone
  simp only [expansions, hnone, if_true, List.filter_eq_self]
  intro t ht
  obtain ⟨p, -, rfl⟩ := List.mem_map.mp ht
  rw [hread.isEmpty_descendant, Bool.not_false]

/-! ## Lists -/

theorem exists_expands_list (hread : ∀ s ∈ list, s.IsRead) (halternatives : parents ≠ [])
    (implicitParent : Bool) :
    ∃ candidates, List.Forall₂ (Expands parents implicitParent) list candidates ∧
      list.map (expansions parents implicitParent) = candidates.map (·.filter (!·.isEmpty)) := by
  induction list with
  | nil => exact ⟨[], .nil, rfl⟩
  | cons s list ih =>
    obtain ⟨hs, hlist⟩ := List.forall_mem_cons.mp hread
    obtain ⟨column, hexpands, heq⟩ := exists_expands hs halternatives implicitParent
    obtain ⟨columns, hall, hmap⟩ := ih hlist
    exact ⟨column :: columns, .cons hexpands hall, by rw [List.map_cons, List.map_cons, heq, hmap]⟩

/-- A list stands for what its members stand for, in turns and without repetition. -/
theorem combine_eq_takeTurns
    (h : ∀ l ∈ list.map (expansions (alternatives parents) implicitParent), l.length ≤ n) :
    combine parents list implicitParent =
      (takeTurns n (list.map (expansions (alternatives parents) implicitParent))).eraseDupsBy
        looksLike := by
  rw [combine, distinctOn_eq, ← alternatives, roundRobin_eq_takeTurns h]
  rfl

/-- **What a list of selectors stands for** within the given parents. What the members stand for is
taken in turns, without what is empty, and of selectors that are written in the same way only the first
is kept. For a list without references these are the descendants of the first parent, then those of the
second, and so on. -/
theorem combine_eq (hread : ∀ s ∈ list, s.IsRead) :
    (∃ candidates, List.Forall₂ (Expands (alternatives parents) implicitParent) list candidates ∧
      ∀ turns, (∀ l ∈ candidates, l.length ≤ turns) → combine parents list implicitParent =
        ((List.range turns).flatMap fun turn => candidates.filterMap fun l =>
          (l.filter (!·.isEmpty))[turn]?).eraseDupsBy looksLike) ∧
      ((∀ s ∈ list, s.references = 0) → combine parents list true =
        ((alternatives parents).flatMap fun parent => list.map parent.descendant).eraseDupsBy
          looksLike) := by
  have halternatives := alternatives_ne_nil parents
  constructor
  · obtain ⟨candidates, hexpands, hmap⟩ := exists_expands_list hread halternatives implicitParent
    refine ⟨candidates, hexpands, fun turns hturns => ?_⟩
    have hlength : ∀ l ∈ list.map (expansions (alternatives parents) implicitParent),
        l.length ≤ turns := by
      rw [hmap]
      refine List.forall_mem_map.mpr fun l hl => ?_
      exact (List.length_filter_le _ _).trans (hturns l hl)
    rw [combine_eq_takeTurns hlength, takeTurns_eq, hmap]
    simp only [List.filterMap_map, Function.comp_def]
  · intro hnone
    have hmap : list.map (expansions (alternatives parents) true) =
        list.map fun s => (alternatives parents).map (descendant · s) :=
      List.map_congr_left fun s hs => expansions_eq_descendants (hread s hs) (hnone s hs) _
    have hlength : ∀ l ∈ list.map (expansions (alternatives parents) true),
        l.length ≤ (alternatives parents).length := by
      rw [hmap]
      refine List.forall_mem_map.mpr fun s _ => ?_
      rw [List.length_map]
    rw [combine_eq_takeTurns hlength, hmap, takeTurns_map]

/-- The list `a, b`. -/
def pairParents : List Selector := [⟨[.type ['a']]⟩, ⟨[.type ['b']]⟩]

/-- The list `&.x, & + &`. -/
def pairList : List Selector :=
  [⟨[.nesting none, .className ['x']]⟩, ⟨[.nesting none, .combinator .nextSibling, .nesting none]⟩]

/-- One member has two expansions and the other four. -/
theorem combine_pairList : (∀ s ∈ pairList, s.IsRead) ∧
    (∃ candidates, List.Forall₂ (Expands (alternatives pairParents) true) pairList candidates ∧
      ∀ turns, (∀ l ∈ candidates, l.length ≤ turns) → combine pairParents pairList true =
        ((List.range turns).flatMap fun turn => candidates.filterMap fun l =>
          (l.filter (!·.isEmpty))[turn]?).eraseDupsBy looksLike) ∧
    (combine pairParents pairList true).map (text .expanded) =
      ["a.x", "a + a", "b.x", "a + b", "b + a", "b + b"].map String.toList := by
  have hlist : readList ⟨true, true⟩ (Source.ofText "&.x, & + &".toList) = .ok pairList := by
    decide +kernel
  have hread : ∀ s ∈ pairList, s.IsRead := fun s hs => ⟨_, _, _, hlist, hs⟩
  exact ⟨hread, (combine_eq hread).1, by decide +kernel⟩

end NestedCss.Selector
