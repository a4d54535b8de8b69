import NestedCss.Proofs.Selector.Substitution

/-!
# References by their offsets

References to the parent are replaced from left to right, as they come. To look for all their offsets first
and to cut the selector there comes to the same.

* `Selector.mem_nestingOffsets`, `Selector.pairwise_nestingOffsets`: the offsets of all references, in order;
* **`Selector.expansions_eq_fill`**: what a selector stands for, put together of what is between them;
* **`Selector.ofFragments_withSuffix`**: a suffix is glued to the last fragment, or put behind it;
* **`Selector.fragments_append`**: nothing is lost between selectors that stand behind each other.
-/

namespace NestedCss.Selector

variable {fragments front : List Fragment} {s a b : Selector} {parents : List Selector} {f : Fragment}
  {i last offset : ℕ}

/-! ## Where references are -/

theorem mem_nestingOffsetsFrom : i ∈ nestingOffsetsFrom offset fragments ↔
    ∃ k f, i = offset + k ∧ fragments[k]? = some f ∧ f.isNesting := by
  induction fragments generalizing offset with
  | nil => simp [nestingOffsetsFrom]
  | cons f rest ih =>
    have hrest : i ∈ nestingOffsetsFrom (offset + 1) rest ↔
        ∃ k g, i = offset + (k + 1) ∧ (f :: rest)[k + 1]? = some g ∧ g.isNesting := by
      rw [ih]
      simp only [List.getElem?_cons_succ, Nat.add_assoc, Nat.add_comm 1]
    have hsplit : (∃ k g, i = offset + k ∧ (f :: rest)[k]? = some g ∧ g.isNesting) ↔
        (i = offset ∧ f.isNesting) ∨ i ∈ nestingOffsetsFrom (offset + 1) rest := by
      rw [hrest]
      constructor
      · rintro ⟨k, g, hi, hg, hnesting⟩
        cases k with
        | zero =>
          cases hg
          exact .inl ⟨hi, hnesting⟩
        | succ k => exact .inr ⟨k, g, hi, hg, hnesting⟩
      · rintro (⟨hi, hnesting⟩ | ⟨k, g, hg⟩)
        · exact ⟨0, f, hi, rfl, hnesting⟩
        · exact ⟨k + 1, g, hg⟩
    rw [hsplit, nestingOffsetsFrom]
    split
    · next h => simp [h]
    · next h => simp [h]

/-- The offsets are those of references, and of all of them. -/
theorem mem_nestingOffsets : i ∈ s.nestingOffsets ↔ ∃ f, s.fragments[i]? = some f ∧ f.isNesting := by
  rw [nestingOffsets, mem_nestingOffsetsFrom]
  simp

theorem le_of_mem_nestingOffsetsFrom (h : i ∈ nestingOffsetsFrom offset fragments) : offset ≤ i := by
  obtain ⟨k, -, rfl, -⟩ := mem_nestingOffsetsFrom.mp h
  exact Nat.le_add_right offset k

theorem pairwise_nestingOffsets (s : Selector) : s.nestingOffsets.Pairwise (· < ·) := by
  rw [nestingOffsets]
  fun_induction nestingOffsetsFrom 0 s.fragments with
  | case1 => exact .nil
  | case2 offset f rest _ ih => exact .cons (fun i hi => le_of_mem_nestingOffsetsFrom hi) ih
  | case3 offset f rest _ ih => exact ih

theorem length_nestingOffsetsFrom (offset : ℕ) (fragments : List Fragment) :
    (nestingOffsetsFrom offset fragments).length = fragments.countP Fragment.isNesting := by
  fun_induction nestingOffsetsFrom offset fragments with
  | case1 => rfl
  | case2 offset f rest h ih => rw [List.length_cons, ih, List.countP_cons_of_pos h]
  | case3 offset f rest h ih => rw [ih, List.countP_cons_of_neg h]

/-! ## Cutting there -/

/-- The suffix of the reference at an offset. -/
def suffixAt (s : Selector) (offset : ℕ) : Option Text :=
  match s.fragments[offset]? with
  | some (.nesting suffix) => suffix
  | _ => none

/-- The fragments from `last` on, without those at the given offsets. In the place of each stands what the
parent given with it comes to there. -/
def fill (s : Selector) (last : ℕ) : List (ℕ × Selector) → List Fragment
  | [] => s.fragments.drop last
  | (offset, parent) :: rest =>
    (s.slice last offset).fragments ++ resolveNesting (s.suffixAt offset) parent ++ s.fill (offset + 1) rest

theorem substituteIn_nil (fragments : List Fragment) : substituteIn fragments [] = fragments := by
  induction fragments with
  | nil => rfl
  | cons f rest ih => rw [substituteIn, ih]; simp

/-- A fragment in front of all the offsets stays. -/
theorem fill_of_lt (hf : s.fragments[last]? = some f) {places : List (ℕ × Selector)}
    (h : ∀ place ∈ places, last < place.1) : s.fill last places = f :: s.fill (last + 1) places := by
  obtain ⟨hlast, rfl⟩ := List.getElem?_eq_some_iff.mp hf
  cases places with
  | nil => exact List.drop_eq_getElem_cons hlast
  | cons place places =>
    have hlt : last < place.1 := h place List.mem_cons_self
    have hlength : last < (s.fragments.take place.1).length := by
      rw [List.length_take]
      exact Nat.lt_min.mpr ⟨hlt, hlast⟩
    rw [fill, fill, slice, slice, List.drop_eq_getElem_cons hlength, List.getElem_take]
    rfl

theorem substituteIn_eq_fill (h : s.fragments = front ++ fragments) :
    substituteIn fragments parents =
      s.fill front.length ((nestingOffsetsFrom front.length fragments).zip parents) := by
  induction fragments generalizing front parents with
  | nil =>
    rw [List.append_nil] at h
    simp [nestingOffsetsFrom, fill, h, substituteIn]
  | cons f rest ih =>
    have hf : s.fragments[front.length]? = some f := by rw [h]; simp
    have hlength : (front ++ [f]).length = front.length + 1 := by simp
    have hrest (parents : List Selector) : substituteIn rest parents =
        s.fill (front.length + 1) ((nestingOffsetsFrom (front.length + 1) rest).zip parents) :=
      hlength ▸ ih (by rw [h]; simp)
    by_cases hnesting : f.isNesting
    · obtain ⟨suffix, rfl⟩ : ∃ suffix, f = .nesting suffix := by
        cases f <;> first | exact ⟨_, rfl⟩ | cases hnesting
      cases parents with
      | nil => rw [substituteIn_nil, List.zip_nil_right, fill, h, List.drop_left]
      | cons parent parents =>
        have hsuffix : s.suffixAt front.length = suffix := by rw [suffixAt, hf]
        have hslice : (s.slice front.length front.length).fragments = [] := by simp [slice]
        rw [substituteIn, nestingOffsetsFrom, if_pos hnesting, List.zip_cons_cons, fill, hsuffix, hslice, hrest]
        rfl
    · rw [nestingOffsetsFrom, if_neg hnesting, fill_of_lt hf, ← hrest, substituteIn]
      · rintro suffix _ _ - rfl
        exact hnesting rfl
      · intro place hplace
        exact le_of_mem_nestingOffsetsFrom (List.of_mem_zip hplace).1

/-- References may be replaced as they come, or the places at their offsets filled. -/
theorem substitute_eq_fill (s : Selector) (parents : List Selector) :
    s.substitute parents = ofFragments (s.fill 0 (s.nestingOffsets.zip parents)) :=
  congrArg ofFragments (substituteIn_eq_fill (show s.fragments = [] ++ s.fragments from rfl))

/-- One selector as a descendant of another stands behind it and white space. -/
theorem descendant_eq_append (ancestor s : Selector) :
    ancestor.descendant s = ancestor.append ⟨.space :: s.fragments⟩ := rfl

/-- **What a selector stands for** is found by its offsets. If there are none it is a descendant of each
parent, or stands for itself. -/
theorem expansions_eq_fill (parents : List Selector) (implicitParent : Bool) (s : Selector) :
    expansions parents implicitParent s =
      if s.nestingOffsets = [] then
        if implicitParent then
          (parents.map fun parent => parent.append ⟨.space :: s.fragments⟩).filter (!·.isEmpty)
        else [s]
      else
        ((choices parents.length s.nestingOffsets.length).map fun choice =>
          ofFragments (s.fill 0 (s.nestingOffsets.zip (choice.map (parents.getD · empty))))).filter
            (!·.isEmpty) := by
  have hlength : s.nestingOffsets.length = s.fragments.countP Fragment.isNesting :=
    length_nestingOffsetsFrom 0 s.fragments
  have hnone : s.fragments.countP Fragment.isNesting = 0 ↔ s.nestingOffsets = [] := by
    rw [← hlength, List.length_eq_zero_iff]
  simp only [expansions, hnone, hlength, substitute_eq_fill, descendant_eq_append]

/-! ## Suffixes -/

theorem suffixAt?_last (s : Selector) (suffix : Text) :
    s.suffixAt? (s.size - 1) suffix = (s.last?.bind (Fragment.withSuffix? suffix)).map fun f =>
      ofFragments (s.fragments.dropLast ++ [f]) := by
  rw [suffixAt?, last?, size]
  rcases List.eq_nil_or_concat s.fragments with h | ⟨front, last, h⟩
  · rw [h]
    rfl
  · rw [h, List.concat_eq_append]
    have hlast : (front ++ [last])[(front ++ [last]).length - 1]? = some last := by simp
    have hset (f : Fragment) : (front ++ [last]).set ((front ++ [last]).length - 1) f =
        (front ++ [last]).dropLast ++ [f] := by simp
    simp only [hlast, hset, List.getLast?_concat, Option.bind_eq_bind, Option.bind_some]
    cases last.withSuffix? suffix <;> rfl

/-- **A suffix is glued to the last fragment** if that has a name, and else put behind it. -/
theorem ofFragments_withSuffix (s : Selector) (suffix : Text) :
    ofFragments (withSuffix s.fragments suffix) =
      (s.suffixAt? (s.size - 1) suffix).getD (s.append ⟨[.type suffix]⟩) := by
  rw [suffixAt?_last, withSuffix, last?]
  cases s.fragments.getLast?.bind (Fragment.withSuffix? suffix) with
  | none => rfl
  | some f => rfl

/-! ## Selectors behind each other -/

/-- **Nothing is lost between selectors**, which have no white space at their ends. -/
theorem fragments_append (ha : a.IsNormal) (hb : b.IsNormal) :
    (a.append b).fragments = a.fragments ++ b.fragments := by
  have hnormal : IsNormal ⟨a.fragments ++ b.fragments⟩ := by
    refine isNormal_of_isNormalFrom (isNormalFrom_of_isChain ?_ ?_ fun _ => ?_)
    · refine List.isChain_append.mpr ⟨ha.chain, hb.chain, fun f hf g hg => ?_⟩
      have hspace : f ≠ .space := fun h => ha.last (h ▸ hf)
      have hspace' : g ≠ .space := fun h => hb.head (h ▸ hg)
      rw [Fragment.mayPrecede_of_ne_space hspace, Fragment.isSpace_eq_false_iff.mpr hspace', Bool.and_false]
      rfl
    · rw [List.getLast?_append]
      cases h : b.fragments.getLast? with
      | none => exact ha.last
      | some f =>
        rw [Option.some_or, ← h]
        exact hb.last
    · rw [List.head?_append]
      cases h : a.fragments.head? with
      | none => exact hb.head
      | some f =>
        rw [Option.some_or, ← h]
        exact ha.head
  exact congrArg fragments hnormal.ofFragments_eq

end NestedCss.Selector
