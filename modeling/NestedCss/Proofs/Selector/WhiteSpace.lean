import NestedCss.Proofs.Selector.Replacement

/-!
# The white space of selectors

A selector is made of fragments in one pass that looks ahead. What that leaves can be told of each fragment
by itself: white space stays if it is the first of its run and has a fragment on either side, neither of
them a combinator, and everything else stays anyway.

* `Selector.IsKept`, `Selector.kept`: which of some fragments stay;
* `Selector.normalizeFrom_eq_filter`: the pass keeps these and no others;
* `Selector.normalizeFrom_append_congr`, `Selector.normalizeFrom_normalizeFrom_append`: around white space,
  parts may be normalized before they are put together;
* **`Selector.ofFragments_kept`**: what selectors are made of, and what follows for making them again, from
  equal fragments, and for descendants of descendants.
-/

namespace NestedCss.Selector

variable {joins : Bool} {fragments before rest a b x y : List Fragment} {f : Fragment} {i : ℕ}

/-! ## What is kept -/

/-- Whether there is something other than white space on one side, and what is closest of that is no
combinator. The closest fragment comes first. -/
def facesCompound (side : List Fragment) : Bool :=
  (side.find? (!·.isSpace)).any (!·.isCombinator)

/-- Whether the fragment `f` at offset `i` is kept. White space is if it is the first of its run and there
are fragments on both sides the closest of which are no combinators. -/
def IsKept (fragments : List Fragment) (f : Fragment) (i : ℕ) : Prop :=
  f = .space → (fragments.take i).getLast? ≠ some .space ∧
    facesCompound (fragments.take i).reverse ∧ facesCompound (fragments.drop (i + 1))

instance : Decidable (IsKept fragments f i) := inferInstanceAs (Decidable (_ → _))

/-- The fragments that are kept, in their order. -/
def kept (fragments : List Fragment) : List Fragment :=
  (fragments.zipIdx.filter fun (f, i) => IsKept fragments f i).map Prod.fst

theorem facesCompound_eq (side : List Fragment) : facesCompound side = startsCompound side := by
  fun_induction startsCompound side with
  | case1 => rfl
  | case2 rest ih => exact ih
  | case3 f rest hf =>
    have hspace : f.isSpace = false := Fragment.isSpace_eq_false_iff.mpr hf
    simp [facesCompound, hspace]

theorem facesCompound_reverse_concat (hf : f ≠ .space) (before : List Fragment) :
    facesCompound (before ++ [f]).reverse = !f.isCombinator := by
  rw [List.reverse_append, facesCompound_eq]
  exact startsCompound_cons hf

/-- White space behind `before`, which decides on it together with what follows. -/
theorem isKept_space : IsKept (before ++ .space :: rest) .space before.length ↔
    (before.getLast? ≠ some .space ∧ facesCompound before.reverse) ∧ startsCompound rest := by
  unfold IsKept
  rw [List.take_left, List.drop_length_add_append, ← facesCompound_eq rest]
  simp [and_assoc]

/-- **The pass keeps what is kept by itself.** It remembers of what came `before` whether white space could
stand behind that. -/
theorem normalizeFrom_eq_filter (before : List Fragment)
    (hjoins : joins = true ↔ before.getLast? ≠ some .space ∧ facesCompound before.reverse) :
    normalizeFrom joins rest =
      ((rest.zipIdx before.length).filter fun (f, i) => IsKept (before ++ rest) f i).map Prod.fst := by
  induction rest generalizing joins before with
  | nil => rfl
  | cons f rest ih =>
    have hnext (joins' : Bool) (h : joins' = true ↔
        (before ++ [f]).getLast? ≠ some .space ∧ facesCompound (before ++ [f]).reverse) :
        normalizeFrom joins' rest = ((rest.zipIdx (before.length + 1)).filter
          fun (g, i) => IsKept (before ++ f :: rest) g i).map Prod.fst := by
      rw [ih _ h, List.length_append, List.append_assoc]
      rfl
    rw [List.zipIdx_cons]
    by_cases hf : f = .space
    · subst hf
      have hrest := hnext false (by simp)
      have hkept : IsKept (before ++ .space :: rest) .space before.length ↔ joins && startsCompound rest := by
        rw [isKept_space, ← hjoins, Bool.and_eq_true]
      rw [normalizeFrom, hrest]
      split
      · next h => rw [List.filter_cons_of_pos (by simpa using hkept.mpr h), List.map_cons]
      · next h => rw [List.filter_cons_of_neg (by simpa using mt hkept.mp h)]
    · have hkept : IsKept (before ++ f :: rest) f before.length := fun h => absurd h hf
      rw [normalizeFrom_cons hf, List.filter_cons_of_pos (by simpa using hkept), List.map_cons]
      rw [hnext (!f.isCombinator) (by rw [facesCompound_reverse_concat hf]; simp [hf])]

theorem fragments_ofFragments (fragments : List Fragment) : (ofFragments fragments).fragments = kept fragments :=
  normalizeFrom_eq_filter [] (by simp [facesCompound])

/-! ## Putting parts together -/

/-- What is normalized alike may be put behind anything. -/
theorem normalizeFrom_append_congr (h : ∀ joins, normalizeFrom joins x = normalizeFrom joins y)
    (joins : Bool) (a : List Fragment) : normalizeFrom joins (a ++ x) = normalizeFrom joins (a ++ y) := by
  induction a generalizing joins with
  | nil => exact h joins
  | cons f a ih =>
    rw [List.cons_append, List.cons_append]
    by_cases hf : f = .space
    · subst hf
      have hstarts : startsCompound (a ++ x) = startsCompound (a ++ y) := by
        rw [← startsCompound_normalizeFrom false, ih, startsCompound_normalizeFrom]
      rw [normalizeFrom, normalizeFrom, hstarts, ih]
    · rw [normalizeFrom_cons hf, normalizeFrom_cons hf, ih]

theorem normalizeFrom_idem (joins : Bool) (fragments : List Fragment) :
    normalizeFrom joins (normalizeFrom joins fragments) = normalizeFrom joins fragments :=
  normalizeFrom_eq_self (isNormalFrom_normalizeFrom joins fragments)

/-- Behind white space a part may be normalized first. -/
theorem normalizeFrom_space_normalizeFrom (joins : Bool) (b : List Fragment) :
    normalizeFrom joins (.space :: normalizeFrom false b) = normalizeFrom joins (.space :: b) := by
  rw [normalizeFrom, normalizeFrom, startsCompound_normalizeFrom, normalizeFrom_idem]

theorem startsCompound_normalizeFrom_append (joins : Bool) (a x : List Fragment) :
    startsCompound (normalizeFrom joins a ++ x) = startsCompound (a ++ x) := by
  fun_induction normalizeFrom joins a with
  | case1 => rfl
  | case2 joins rest h ih => exact ih
  | case3 joins rest h ih => exact ih
  | case4 joins f rest hf ih =>
    rw [List.cons_append, List.cons_append, startsCompound_cons hf, startsCompound_cons hf]

/-- More white space is no more than white space, and none where white space joins nothing. -/
theorem normalizeFrom_space_append {n : List Fragment} (hn : ∀ f ∈ n.head?, f ≠ .space)
    (h : ¬ (joins && startsCompound n)) (b : List Fragment) :
    normalizeFrom joins (.space :: (n ++ .space :: b)) = normalizeFrom joins (n ++ .space :: b) := by
  cases n with
  | nil => cases joins <;> simp [normalizeFrom, startsCompound]
  | cons f n =>
    have hf : f ≠ .space := hn f rfl
    rw [startsCompound_cons hf] at h
    rw [List.cons_append, normalizeFrom, startsCompound_cons hf, if_neg h, normalizeFrom_cons hf,
      normalizeFrom_cons hf]

/-- In front of white space a part may be normalized first. -/
theorem normalizeFrom_normalizeFrom_append (joins : Bool) (a b : List Fragment) :
    normalizeFrom joins (normalizeFrom joins a ++ .space :: b) = normalizeFrom joins (a ++ .space :: b) := by
  fun_induction normalizeFrom joins a with
  | case1 => rfl
  | case2 joins rest h ih =>
    rw [List.cons_append, List.cons_append, normalizeFrom, normalizeFrom, ih,
      startsCompound_normalizeFrom_append]
  | case3 joins rest h ih =>
    -- the white space that is left out here is either followed by the same anyway or joins nothing
    have hhead : ∀ f ∈ (normalizeFrom false rest).head?, f ≠ .space := fun f hf hspace =>
      (isNormal_ofFragments rest).head (by rw [← hspace]; exact hf)
    have hspace : normalizeFrom joins (.space :: (rest ++ .space :: b)) =
        normalizeFrom joins (.space :: (normalizeFrom false rest ++ .space :: b)) := by
      rw [normalizeFrom, normalizeFrom, ih, startsCompound_normalizeFrom_append]
    rw [List.cons_append, hspace, normalizeFrom_space_append hhead]
    rwa [startsCompound_normalizeFrom]
  | case4 joins f rest hf ih =>
    rw [List.cons_append, List.cons_append, normalizeFrom_cons hf, normalizeFrom_cons hf, ih]

theorem descendant_descendant (a b c : Selector) :
    (a.descendant b).descendant c = a.descendant (b.descendant c) := by
  have hfront : (a.descendant b).descendant c =
      ofFragments ((a.fragments ++ .space :: b.fragments) ++ .space :: c.fragments) :=
    congrArg mk (normalizeFrom_normalizeFrom_append false _ _)
  have hback : a.descendant (b.descendant c) =
      ofFragments (a.fragments ++ .space :: (b.fragments ++ .space :: c.fragments)) :=
    congrArg mk (normalizeFrom_append_congr (fun joins => normalizeFrom_space_normalizeFrom joins _) _ _)
  rw [hfront, hback, List.append_assoc, List.cons_append]

/-! ## Making selectors -/

/-- **What a selector is made of.** Of the fragments given, the selector has all but white space, in their
order, and of that the first of each run that joins two fragments that are no combinators. So it is in normal
form, to make it again changes nothing, equal fragments make equal selectors, and a descendant of a
descendant may be put together from either end. -/
theorem ofFragments_kept (fragments : List Fragment) :
    (ofFragments fragments).fragments = kept fragments ∧
      (ofFragments fragments).IsNormal ∧
      ofFragments (ofFragments fragments).fragments = ofFragments fragments ∧
      (∀ fragments', AllSame fragments fragments' → (ofFragments fragments).same (ofFragments fragments')) ∧
      ∀ a b c : Selector, (a.descendant b).descendant c = a.descendant (b.descendant c) := by
  refine ⟨fragments_ofFragments fragments, isNormal_ofFragments fragments,
    (isNormal_ofFragments fragments).ofFragments_eq, fun fragments' h => ?_, descendant_descendant⟩
  rw [same_iff, ← ofFragments_map_key, allSame_iff_map_key.mp h, ofFragments_map_key]

/-- The fragments of `  a  [b="c"] >  > d e  `, with the value in the given quotes. -/
def looseFragments (quote : Quote) : List Fragment :=
  [.space, .space, .type ['a'], .space, .space, .attribute ⟨['b'], some ⟨.equals, ['c'], quote, none⟩⟩, .space,
    .combinator .child, .space, .space, .combinator .child, .space, .type ['d'], .space, .type ['e'], .space,
    .space]

theorem ofFragments_kept_looseFragments :
    AllSame (looseFragments .double) (looseFragments .single) ∧
      (ofFragments (looseFragments .double)).fragments =
        [.type ['a'], .space, .attribute ⟨['b'], some ⟨.equals, ['c'], .double, none⟩⟩, .combinator .child,
          .combinator .child, .type ['d'], .space, .type ['e']] ∧
      (ofFragments (looseFragments .double)).same (ofFragments (looseFragments .single)) := by
  have hsame : AllSame (looseFragments .double) (looseFragments .single) := allSame_iff_map_key.mpr rfl
  obtain ⟨hkept, -, -, hequal, -⟩ := ofFragments_kept (looseFragments .double)
  exact ⟨hsame, hkept.trans (by decide), hequal _ hsame⟩

end NestedCss.Selector
