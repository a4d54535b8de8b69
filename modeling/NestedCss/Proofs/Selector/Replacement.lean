import NestedCss.Proofs.Selector.Equality

/-!
# Replacement

A target is searched for from left to right, and each search starts where the occurrence before it ends.
This cuts a selector up in one way only. Replacement puts the gaps together again, with the replacement in
the place of the occurrences.

* `Selector.OccursAt`, `Selector.findIn_eq_some_iff`: occurrences, and the search for the first one;
* `Selector.Cut`: gaps with occurrences between them, `Selector.Cut.IsLeftmost`: each of these is the first
  one behind the one before;
* `Selector.exists_isLeftmost`, `Selector.Cut.IsLeftmost.eq`: there is one such cut;
* `Selector.Cut.IsFoundFrom`: how a run of searches comes across it by offsets;
* **`Selector.replaceAll_leftmost`**: what replacement gives.
-/

namespace NestedCss.Selector

/-! ## Occurrences -/

section

variable {target fragments gap occurrence : List Fragment} {offset : ℕ}

/-- Whether two sequences of fragments are equal, fragment by fragment. -/
def AllSame (a b : List Fragment) : Prop := List.Forall₂ (fun f g => f.same g) a b

/-- Whether the fragments from an offset on, as many as the target has, are equal to the target. -/
def OccursAt (target fragments : List Fragment) (offset : ℕ) : Prop :=
  AllSame ((fragments.drop offset).take target.length) target

theorem allSame_iff_map_key {a b : List Fragment} :
    AllSame a b ↔ a.map Fragment.key = b.map Fragment.key := by
  simp only [AllSame, Fragment.same_iff, forall₂_iff_map_eq]

theorem startsWith_iff : startsWith target fragments ↔ OccursAt target fragments 0 := by
  rw [OccursAt, List.drop_zero, AllSame]
  fun_induction startsWith target fragments with
  | case1 => simp
  | case2 => simp
  | case3 t target f fragments ih =>
    rw [Bool.and_eq_true, ih, List.length_cons, List.take_succ_cons, List.forall₂_cons]
    exact and_congr_left fun _ => ⟨Fragment.equivalence_same.symm, Fragment.equivalence_same.symm⟩

theorem occursAt_cons_succ (f : Fragment) :
    OccursAt target (f :: fragments) (offset + 1) ↔ OccursAt target fragments offset :=
  Iff.rfl

theorem occursAt_append_add :
    OccursAt target (gap ++ fragments) (gap.length + offset) ↔ OccursAt target fragments offset := by
  rw [OccursAt, OccursAt, List.drop_length_add_append]

theorem not_occursAt_nil (htarget : target ≠ []) : ¬ OccursAt target [] offset := by
  rintro h
  rw [OccursAt, List.drop_nil, List.take_nil] at h
  cases h
  exact htarget rfl

theorem AllSame.occursAt (h : AllSame occurrence target) (rest : List Fragment) :
    OccursAt target (occurrence ++ rest) 0 := by
  rwa [OccursAt, List.drop_zero, ← List.Forall₂.length_eq h, List.take_left]

/-- The search finds an offset if there is an occurrence and none in front of it. -/
theorem findIn_eq_some_iff (htarget : target ≠ []) : findIn target fragments = some offset ↔
    OccursAt target fragments offset ∧ ∀ i < offset, ¬ OccursAt target fragments i := by
  induction fragments generalizing offset with
  | nil => simp [findIn, not_occursAt_nil htarget]
  | cons f fragments ih =>
    rw [findIn]
    split
    · next hstarts =>
      have hzero := startsWith_iff.mp hstarts
      constructor
      · rintro h
        cases h
        exact ⟨hzero, fun i hi => absurd hi i.not_lt_zero⟩
      · rintro ⟨-, hfirst⟩
        have hoffset : offset = 0 := Nat.eq_zero_of_not_pos fun h => hfirst 0 h hzero
        rw [hoffset]
    · next hstarts =>
      have hzero : ¬ OccursAt target (f :: fragments) 0 := mt startsWith_iff.mpr hstarts
      cases offset with
      | zero => simp [hzero]
      | succ offset =>
        rw [Option.map_eq_some_iff]
        simp only [Nat.add_right_cancel_iff, exists_eq_right, ih, occursAt_cons_succ]
        refine and_congr_right fun _ => ⟨fun h i hi => ?_, fun h i hi => h (i + 1) (by omega)⟩
        cases i with
        | zero => exact hzero
        | succ i => exact h i (by omega)

theorem findIn_eq_none_iff (htarget : target ≠ []) :
    findIn target fragments = none ↔ ∀ i, ¬ OccursAt target fragments i := by
  induction fragments with
  | nil => simp [findIn, not_occursAt_nil htarget]
  | cons f fragments ih =>
    rw [findIn]
    split
    · next hstarts => simpa using ⟨0, startsWith_iff.mp hstarts⟩
    · next hstarts =>
      rw [Option.map_eq_none_iff, ih]
      refine ⟨fun h i => ?_, fun h i => h (i + 1)⟩
      cases i with
      | zero => exact mt startsWith_iff.mpr hstarts
      | succ i => exact h i

end

/-! ## Cuts -/

/-- A way to cut a selector up: gaps with occurrences of something between them. -/
inductive Cut where
  | last (gap : List Fragment)
  | next (gap occurrence : List Fragment) (rest : Cut)
  deriving DecidableEq, Repr

namespace Cut

/-- What was cut up. -/
def fragments : Cut → List Fragment
  | last gap => gap
  | next gap occurrence rest => gap ++ occurrence ++ rest.fragments

/-- The gaps with a replacement in the place of every occurrence. -/
def filled (replacement : List Fragment) : Cut → List Fragment
  | last gap => gap
  | next gap _ rest => gap ++ replacement ++ rest.filled replacement

/-- Whether each occurrence is one of the target and there is none that starts behind the one before it
and further to the left. There is none behind the last one either. -/
def IsLeftmost (target : List Fragment) : Cut → Prop
  | last gap => ∀ i, ¬ OccursAt target gap i
  | next gap occurrence rest =>
    AllSame occurrence target ∧
      (∀ i < gap.length, ¬ OccursAt target (gap ++ occurrence ++ rest.fragments) i) ∧
      rest.IsLeftmost target

/-- Whether searches in `s`, the first of which starts at `start` and each other one where the occurrence
before it ends, find the occurrences of the cut. Its gaps and occurrences are slices of `s`, and none of
them reaches beyond the end of that. -/
def IsFoundFrom (s t : Selector) (start : ℕ) : Cut → Prop
  | last gap => s.find? t start = none ∧ start ≤ s.size ∧ s.slice start s.size = ⟨gap⟩
  | next gap occurrence rest =>
    let found := start + gap.length
    s.find? t start = some found ∧ found + t.size ≤ s.size ∧ s.slice start found = ⟨gap⟩ ∧
      s.slice found (found + t.size) = ⟨occurrence⟩ ∧ rest.IsFoundFrom s t (found + t.size)

variable {target occurrence : List Fragment} {c c' : Cut}

theorem occursAt_next (h : AllSame occurrence target) (gap : List Fragment) (c : Cut) :
    OccursAt target (gap ++ occurrence ++ c.fragments) gap.length := by
  rw [List.append_assoc]
  exact occursAt_append_add.mpr (h.occursAt c.fragments)

/-- **No selector has two leftmost cuts.** -/
theorem IsLeftmost.eq (hc : c.IsLeftmost target) (hc' : c'.IsLeftmost target)
    (h : c.fragments = c'.fragments) : c = c' := by
  induction c generalizing c' with
  | last gap =>
    cases c' with
    | last gap' => exact congrArg last h
    | next gap' occurrence' rest' =>
      have hoccurs := occursAt_next hc'.1 gap' rest'
      change gap = gap' ++ occurrence' ++ rest'.fragments at h
      exact absurd (h ▸ hoccurs) (hc _)
  | next gap occurrence rest ih =>
    obtain ⟨hsame, hfirst, hrest⟩ := hc
    have hoccurs := occursAt_next hsame gap rest
    cases c' with
    | last gap' =>
      change gap ++ occurrence ++ rest.fragments = gap' at h
      exact absurd (h ▸ hoccurs) (hc' _)
    | next gap' occurrence' rest' =>
      obtain ⟨hsame', hfirst', hrest'⟩ := hc'
      have hoccurs' := occursAt_next hsame' gap' rest'
      change gap ++ occurrence ++ rest.fragments = gap' ++ occurrence' ++ rest'.fragments at h
      have hgap : gap.length = gap'.length := by
        rcases Nat.lt_trichotomy gap.length gap'.length with hlt | heq | hlt
        · exact absurd (h ▸ hoccurs) (hfirst' _ hlt)
        · exact heq
        · exact absurd (h ▸ hoccurs') (hfirst _ hlt)
      have hlength : occurrence.length = occurrence'.length :=
        (List.Forall₂.length_eq hsame).trans (List.Forall₂.length_eq hsame').symm
      obtain ⟨hfront, hback⟩ := List.append_inj h (by simp [hgap, hlength])
      obtain ⟨rfl, rfl⟩ := List.append_inj hfront hgap
      rw [ih hrest hrest' hback]

end Cut

variable {target fragments occurrence rest replacement : List Fragment} {s t : Selector}

/-- Every selector has a leftmost cut. -/
theorem exists_isLeftmost (htarget : target ≠ []) (fragments : List Fragment) :
    ∃ c : Cut, c.fragments = fragments ∧ c.IsLeftmost target := by
  induction hn : fragments.length using Nat.strongRecOn generalizing fragments with
  | ind n ih =>
    subst hn
    cases hfind : findIn target fragments with
    | none => exact ⟨.last fragments, rfl, (findIn_eq_none_iff htarget).mp hfind⟩
    | some offset =>
      obtain ⟨hoccurs, hfirst⟩ := (findIn_eq_some_iff htarget).mp hfind
      have hpos : 0 < target.length := List.length_pos_iff.mpr htarget
      have hlength := List.Forall₂.length_eq hoccurs
      rw [List.length_take, List.length_drop] at hlength
      obtain ⟨c, hc, hleftmost⟩ :=
        ih ((fragments.drop offset).drop target.length).length (by simp; omega) _ rfl
      have hcut : fragments.take offset ++ (fragments.drop offset).take target.length ++ c.fragments =
          fragments := by
        rw [hc, List.append_assoc, List.take_append_drop, List.take_append_drop]
      refine ⟨.next _ _ c, hcut, hoccurs, fun i hi => ?_, hleftmost⟩
      rw [hcut]
      exact hfirst i (by rw [List.length_take] at hi; omega)

/-! ## Replacing along a cut -/

theorem replaceIn_of_not_occursAt {n : ℕ} (hn : n ≤ fragments.length)
    (h : ∀ i < n, ¬ OccursAt target fragments i) :
    replaceIn target replacement fragments =
      fragments.take n ++ replaceIn target replacement (fragments.drop n) := by
  induction n generalizing fragments with
  | zero => simp
  | succ n ih =>
    obtain ⟨f, fragments, rfl⟩ := List.exists_cons_of_length_pos (Nat.lt_of_lt_of_le n.succ_pos hn)
    have hstarts : ¬ startsWith target (f :: fragments) := mt startsWith_iff.mp (h 0 n.succ_pos)
    rw [replaceIn, if_neg (by simp [hstarts]), ih (by simpa using hn) fun i hi => h (i + 1) (by omega)]
    rfl

theorem replaceIn_of_allSame (htarget : target ≠ []) (h : AllSame occurrence target) :
    replaceIn target replacement (occurrence ++ rest) = replacement ++ replaceIn target replacement rest := by
  have hlength := List.Forall₂.length_eq h
  have hpos : 0 < occurrence.length := hlength ▸ List.length_pos_iff.mpr htarget
  have hstarts := startsWith_iff.mpr (h.occursAt rest)
  obtain ⟨f, occurrence, rfl⟩ := List.exists_cons_of_length_pos hpos
  have htail : target.length - 1 = occurrence.length := by rw [← hlength]; rfl
  rw [List.cons_append, replaceIn, ← List.cons_append, if_pos (by simpa [htarget] using hstarts), htail,
    List.drop_left]

theorem Cut.IsLeftmost.replaceIn_eq {c : Cut} (htarget : target ≠ []) (hc : c.IsLeftmost target)
    (replacement : List Fragment) : replaceIn target replacement c.fragments = c.filled replacement := by
  induction c with
  | last gap =>
    rw [fragments, replaceIn_of_not_occursAt le_rfl fun i _ => hc i, List.take_length, List.drop_length,
      replaceIn, List.append_nil, filled]
  | next gap occurrence rest ih =>
    obtain ⟨hsame, hfirst, hrest⟩ := hc
    rw [fragments, replaceIn_of_not_occursAt (by simp) hfirst, List.append_assoc, List.take_left,
      List.drop_left, replaceIn_of_allSame htarget hsame, ih hrest, filled, List.append_assoc]

/-- Searching comes across the occurrences of the leftmost cut. -/
theorem Cut.IsLeftmost.isFoundFrom {c : Cut} {before : List Fragment} (ht : t.isEmpty = false)
    (hc : c.IsLeftmost t.fragments) (hs : s.fragments = before ++ c.fragments) :
    c.IsFoundFrom s t before.length := by
  have htarget : t.fragments ≠ [] := by simpa [isEmpty] using ht
  have hfind (start : ℕ) : s.find? t start =
      (findIn t.fragments (s.fragments.drop start)).map (· + start) := by simp [find?, ht]
  induction c generalizing before with
  | last gap =>
    have hdrop : s.fragments.drop before.length = gap := by rw [hs]; exact List.drop_left
    refine ⟨?_, ?_, ?_⟩
    · rw [hfind, hdrop, (findIn_eq_none_iff htarget).mpr hc, Option.map_none]
    · simp [size, hs]
    · rw [slice, size, List.take_length, hdrop]
  | next gap occurrence rest ih =>
    obtain ⟨hsame, hfirst, hrest⟩ := hc
    have hlength : occurrence.length = t.size := List.Forall₂.length_eq hsame
    have hdrop : s.fragments.drop before.length = gap ++ occurrence ++ rest.fragments := by
      rw [hs]; exact List.drop_left
    have hnext : s.fragments = (before ++ gap ++ occurrence) ++ rest.fragments := by
      simp [hs, fragments]
    have hsize : (before ++ gap ++ occurrence).length = before.length + gap.length + t.size := by
      simp [hlength, Nat.add_assoc]
    refine ⟨?_, ?_, ?_, ?_, hsize ▸ ih hrest hnext⟩
    · rw [hfind, hdrop, (findIn_eq_some_iff htarget).mpr ⟨occursAt_next hsame gap rest, hfirst⟩,
        Option.map_some, Nat.add_comm]
    · rw [← hsize, size, hnext]
      exact (List.prefix_append _ _).length_le
    · rw [slice, hnext, ← List.length_append, List.append_assoc (before ++ gap), List.take_left,
        List.drop_left]
    · rw [slice, ← hsize, hnext, List.take_left, ← List.length_append, List.drop_left]

/-! ## What replacement gives -/

theorem Cut.IsLeftmost.map_key_filled {c : Cut} (hc : c.IsLeftmost target) :
    (c.filled target).map Fragment.key = c.fragments.map Fragment.key := by
  induction c with
  | last gap => rfl
  | next gap occurrence rest ih =>
    obtain ⟨hsame, -, hrest⟩ := hc
    simp only [filled, fragments, List.map_append, ih hrest, allSame_iff_map_key.mp hsame]

theorem isLeftmost_of_same (hne : t.fragments ≠ []) (h : s.same t) :
    (Cut.next [] s.fragments (.last [])).IsLeftmost t.fragments :=
  ⟨same_iff_forall₂.mp h, by simp, fun _ => not_occursAt_nil hne⟩

/-- **Replacement goes from left to right.** There is one way to cut a selector at occurrences of a target
such that each is the first one behind the one before and none is left behind the last one. The searches
find these occurrences, within the bounds of the selector, and the replacement comes into their places. A
selector in which the target does not occur is kept, the target itself becomes the replacement, and a target
that replaces itself changes at most the quoting. -/
theorem replaceAll_leftmost (hs : s.IsNormal) (ht : t.isEmpty = false) (r : Selector) :
    (∃! c : Cut, c.fragments = s.fragments ∧ c.IsLeftmost t.fragments) ∧
      (∀ c : Cut, c.fragments = s.fragments → c.IsLeftmost t.fragments →
        s.replaceAll t r = ofFragments (c.filled r.fragments) ∧ c.IsFoundFrom s t 0) ∧
      ((∀ i, ¬ OccursAt t.fragments s.fragments i) → s.replaceAll t r = s) ∧
      (s.same t → s.replaceAll t r = ofFragments r.fragments ∧ (r.IsNormal → s.replaceAll t r = r)) ∧
      (s.replaceAll t t).same s := by
  have htarget : t.fragments ≠ [] := by simpa [isEmpty] using ht
  have hreplace {c : Cut} (r : Selector) (hc : c.fragments = s.fragments)
      (hleftmost : c.IsLeftmost t.fragments) : s.replaceAll t r = ofFragments (c.filled r.fragments) := by
    rw [replaceAll, ← hc, hleftmost.replaceIn_eq htarget]
  obtain ⟨c, hc, hleftmost⟩ := exists_isLeftmost htarget s.fragments
  refine ⟨⟨c, ⟨hc, hleftmost⟩, fun c' hc' => hc'.2.eq hleftmost (hc'.1.trans hc.symm)⟩,
    fun c hc hleftmost => ⟨hreplace r hc hleftmost, ?_⟩, fun hnone => ?_, fun hsame => ?_, ?_⟩
  · have hwhole : s.fragments = [] ++ c.fragments := hc.symm
    exact hleftmost.isFoundFrom ht hwhole
  · rw [hreplace (c := .last s.fragments) r rfl hnone]
    exact hs.ofFragments_eq
  · have hwhole := hreplace r (List.append_nil _) (isLeftmost_of_same htarget hsame)
    simp only [Cut.filled, List.nil_append, List.append_nil] at hwhole
    exact ⟨hwhole, fun hr => hwhole.trans hr.ofFragments_eq⟩
  · rw [same_iff, hreplace t hc hleftmost, ← ofFragments_map_key, hleftmost.map_key_filled, hc,
      ofFragments_map_key, hs.ofFragments_eq]

/-- The selector `.a.a.a .a.a.b > .a`. Its first two occurrences of `.a.a` overlap, and at the last `.a` there
is no room for one. -/
def overlappingSelector : Selector :=
  ⟨[.className ['a'], .className ['a'], .className ['a'], .space, .className ['a'], .className ['a'],
    .className ['b'], .combinator .child, .className ['a']]⟩

/-- The occurrences of `.a.a` that are replaced. -/
def overlappingCut : Cut :=
  .next [] [.className ['a'], .className ['a']] <|
    .next [.className ['a'], .space] [.className ['a'], .className ['a']] <|
      .last [.className ['b'], .combinator .child, .className ['a']]

theorem isLeftmost_overlappingCut : overlappingCut.IsLeftmost [.className ['a'], .className ['a']] := by
  have hne : [Fragment.className ['a'], .className ['a']] ≠ [] := List.cons_ne_nil _ _
  have hsame : AllSame [.className ['a'], .className ['a']] [.className ['a'], .className ['a']] :=
    allSame_iff_map_key.mpr rfl
  refine ⟨hsame, fun i hi => absurd hi i.not_lt_zero, hsame, ?_, (findIn_eq_none_iff hne).mp (by decide)⟩
  have hfind : findIn [Fragment.className ['a'], .className ['a']]
      [.className ['a'], .space, .className ['a'], .className ['a'], .className ['b'], .combinator .child,
        .className ['a']] = some 2 := by decide
  exact ((findIn_eq_some_iff hne).mp hfind).2

theorem replaceAll_overlappingSelector :
    overlappingSelector.IsNormal ∧
      overlappingSelector.replaceAll ⟨[.className ['a'], .className ['a']]⟩
          ⟨[.type ['x'], .space, .type ['y']]⟩ =
        ofFragments (overlappingCut.filled [.type ['x'], .space, .type ['y']]) ∧
      overlappingCut.IsFoundFrom overlappingSelector ⟨[.className ['a'], .className ['a']]⟩ 0 := by
  have hnormal : overlappingSelector.IsNormal := isNormal_of_isNormalFrom (by decide)
  obtain ⟨-, hreplaced, -⟩ :=
    replaceAll_leftmost hnormal (t := ⟨[.className ['a'], .className ['a']]⟩) (by decide)
      ⟨[.type ['x'], .space, .type ['y']]⟩
  exact ⟨hnormal, hreplaced overlappingCut rfl isLeftmost_overlappingCut⟩

end NestedCss.Selector
