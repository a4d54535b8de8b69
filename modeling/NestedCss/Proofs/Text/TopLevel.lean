import Mathlib.Data.List.DropRight
import Mathlib.Data.List.TakeWhile
import NestedCss.Text.Quoting

/-!
# Parts of a text

A text that is split at the separators outside of strings and brackets falls into parts. What is made of
parts by joining them is split in the same places again, as long as every part closes its strings and
brackets.

* `Text.Standing`: what a reader that splits has to remember;
* `Text.ClosesAll`: every string and every bracket is closed at the end;
* `Text.Unsplit`: nowhere is the text split, `Text.IsPart`: nor is what stands around it affected by it;
* **`Text.isItem_of_mem_splitTopLevel`**, **`Text.splitTopLevel_intercalate`**: splitting gives parts, and
  gives back the parts that were joined.
-/

namespace NestedCss.Text

variable {separator c : Char} {t u p : Text}

/-! ## Trimming -/

/-- What is cut off at the ends is white space. -/
theorem exists_eq_trim (t : Text) :
    ∃ w w', (∀ c ∈ w, isSpace c) ∧ (∀ c ∈ w', isSpace c) ∧ t = w ++ trim t ++ w' := by
  refine ⟨t.takeWhile isSpace, ((trimStart t).reverse.takeWhile isSpace).reverse,
    fun c hc => List.mem_takeWhile_imp hc, fun c hc => List.mem_takeWhile_imp (List.mem_reverse.mp hc), ?_⟩
  have hend : trimStart t = trim t ++ ((trimStart t).reverse.takeWhile isSpace).reverse := by
    rw [trim, trimEnd, ← List.reverse_append, List.takeWhile_append_dropWhile, List.reverse_reverse]
  rw [List.append_assoc, ← hend, trimStart, List.takeWhile_append_dropWhile]

/-- No white space stands at either end. -/
structure IsTrimmed (t : Text) : Prop where
  head : ∀ c ∈ t.head?, isSpace c = false
  last : ∀ c ∈ t.getLast?, isSpace c = false

theorem IsTrimmed.trim_eq (h : IsTrimmed t) : trim t = t := by
  have hstart : trimStart t = t := by
    cases t with
    | nil => rfl
    | cons c t => exact List.dropWhile_cons_of_neg (by simpa using h.head c rfl)
  rw [trim, hstart]
  change t.rdropWhile isSpace = t
  refine List.rdropWhile_eq_self_iff.mpr fun hne => ?_
  simpa using h.last _ (List.getLast?_eq_getLast_of_ne_nil hne)

theorem isTrimmed_trim (t : Text) : IsTrimmed (trim t) := by
  refine ⟨fun c hc => ?_, fun c hc => ?_⟩
  · have hprefix : trim t <+: trimStart t := List.rdropWhile_prefix isSpace (trimStart t)
    have hhead : (trimStart t).head? = some c := by
      obtain ⟨u, hu⟩ := hprefix
      rw [← hu, List.head?_append, hc]
      rfl
    have hnot := List.head?_dropWhile_not isSpace t
    rw [trimStart] at hhead
    rwa [hhead] at hnot
  · obtain ⟨hne, rfl⟩ := List.mem_getLast?_eq_getLast hc
    exact Bool.eq_false_iff.mpr (List.rdropWhile_last_not isSpace (trimStart t) hne)

theorem IsTrimmed.append (ht : IsTrimmed t) (hu : IsTrimmed u) (htne : t ≠ []) (hune : u ≠ []) :
    IsTrimmed (t ++ p ++ u) := by
  refine ⟨fun c hc => ht.head c ?_, fun c hc => hu.last c ?_⟩
  · rwa [List.append_assoc, List.head?_append_of_ne_nil _ htne] at hc
  · rwa [List.getLast?_append_of_ne_nil _ hune] at hc

/-! ## Where a reader stands -/

/-- Where a reader that splits a text stands: with respect to strings, and in how many brackets. -/
structure Standing where
  quoting : Quoting
  depth : Nat
  deriving DecidableEq, Repr

namespace Standing

variable {s : Standing}

/-- Outside of strings and brackets. -/
def outside : Standing := ⟨.plain, 0⟩

/-- Where the reader stands after one more character. Brackets in strings do not count. -/
def after (s : Standing) (c : Char) : Standing :=
  ⟨s.quoting.after c, if s.quoting = .plain then depthAfter s.depth c else s.depth⟩

/-- Where the reader stands behind a text. -/
def behind (s : Standing) (t : Text) : Standing := t.foldl after s

@[simp] theorem behind_nil (s : Standing) : s.behind [] = s := rfl

@[simp] theorem behind_cons (s : Standing) (c : Char) (t : Text) :
    s.behind (c :: t) = (s.after c).behind t := rfl

@[simp] theorem behind_append (s : Standing) (t u : Text) : s.behind (t ++ u) = (s.behind t).behind u :=
  List.foldl_append

end Standing

open Standing (outside)

/-- Every string and every bracket is closed at the end of the text. Closing brackets without an opening
one do not count. -/
def ClosesAll (t : Text) : Prop := outside.behind t = outside

instance (t : Text) : Decidable (ClosesAll t) := inferInstanceAs (Decidable (_ = _))

theorem ClosesAll.append (ht : ClosesAll t) (hu : ClosesAll u) : ClosesAll (t ++ u) := by
  rw [ClosesAll, Standing.behind_append, ht, hu]

/-- Whether a character is neither a quote nor a bracket. -/
def isInert (c : Char) : Bool := !(isQuote c || isOpening c || isClosing c)

theorem Standing.after_outside (h : isInert c) : outside.after c = outside := by
  simp only [isInert, Bool.not_eq_true', Bool.or_eq_false_iff] at h
  obtain ⟨⟨hquote, hopening⟩, hclosing⟩ := h
  simp [outside, after, Quoting.after, depthAfter, hquote, hopening, hclosing]

theorem closesAll_of_isInert (h : ∀ c ∈ t, isInert c) : ClosesAll t := by
  induction t with
  | nil => rfl
  | cons c t ih =>
    obtain ⟨hc, ht⟩ := List.forall_mem_cons.mp h
    rw [ClosesAll, Standing.behind_cons, Standing.after_outside hc]
    exact ih ht

theorem isInert_of_isSpace (h : isSpace c) : isInert c := by
  have hne (d : Char) (hd : isSpace d = false) : c ≠ d := by
    rintro rfl
    simp [h] at hd
  simp [isInert, isQuote, isOpening, isClosing, hne '"' (by decide), hne '\'' (by decide),
    hne '(' (by decide), hne '[' (by decide), hne '{' (by decide), hne ')' (by decide),
    hne ']' (by decide), hne '}' (by decide)]

/-- The strings that the reader may stand in are those that a quote opens. -/
def Standing.IsQuoted (s : Standing) : Prop :=
  ∀ q, s.quoting = .within q ∨ s.quoting = .escaped q → isQuote q

theorem Standing.IsQuoted.after {s : Standing} (hs : s.IsQuoted) (c : Char) : (s.after c).IsQuoted := by
  obtain ⟨quoting, depth⟩ := s
  intro q hq
  cases quoting with
  | plain =>
    by_cases hc : isQuote c
    · obtain rfl : c = q := by simpa [Standing.after, Quoting.after, hc] using hq
      exact hc
    · simp [Standing.after, Quoting.after, hc] at hq
  | within q' =>
    have hq' := hs q' (.inl rfl)
    simp only [Standing.after, Quoting.after] at hq
    split at hq
    · obtain rfl : q' = q := by simpa using hq
      exact hq'
    · split at hq
      · simp at hq
      · obtain rfl : q' = q := by simpa using hq
        exact hq'
  | escaped q' =>
    obtain rfl : q' = q := by simpa [Standing.after, Quoting.after] using hq
    exact hs q' (.inr rfl)

theorem Standing.IsQuoted.behind {s : Standing} (hs : s.IsQuoted) (t : Text) : (s.behind t).IsQuoted := by
  induction t generalizing s with
  | nil => exact hs
  | cons c t ih => exact ih (hs.after c)

theorem Standing.isQuoted_outside : outside.IsQuoted := by
  simp [IsQuoted, outside]

/-- White space does not lead out of strings and brackets. -/
theorem Standing.eq_outside_of_after {s : Standing} (hs : s.IsQuoted) (hc : isSpace c)
    (h : s.after c = outside) : s = outside := by
  have hinert := isInert_of_isSpace hc
  simp only [isInert, Bool.not_eq_true', Bool.or_eq_false_iff] at hinert
  obtain ⟨⟨hquote, hopening⟩, hclosing⟩ := hinert
  obtain ⟨quoting, depth⟩ := s
  cases quoting with
  | plain => simpa [after, Quoting.after, depthAfter, hquote, hopening, hclosing, outside] using h
  | within q =>
    have hq := hs q (.inl rfl)
    have hne : c ≠ q := by
      rintro rfl
      simp [hquote] at hq
    by_cases hslash : c = '\\' <;> simp [after, Quoting.after, outside, hslash, hne] at h
  | escaped q => simp [after, Quoting.after, outside] at h

theorem Standing.eq_outside_of_behind {s : Standing} (hs : s.IsQuoted) (ht : ∀ c ∈ t, isSpace c)
    (h : s.behind t = outside) : s = outside := by
  induction t generalizing s with
  | nil => exact h
  | cons c t ih =>
    obtain ⟨hc, ht⟩ := List.forall_mem_cons.mp ht
    exact eq_outside_of_after hs hc (ih (hs.after c) ht h)

/-! ## Splitting -/

/-- The parts of a text, where the reader of its front stands in `s`. -/
def Standing.split (separator : Char) (s : Standing) (t : Text) : Text × List Text :=
  splitFrom separator s.quoting s.depth t

theorem split_cons (s : Standing) (c : Char) (t : Text) : s.split separator (c :: t) =
    if s = outside ∧ c = separator ∧ isInert c then
      ([], (outside.split separator t).1 :: (outside.split separator t).2)
    else (c :: ((s.after c).split separator t).1, ((s.after c).split separator t).2) := by
  obtain ⟨quoting, depth⟩ := s
  have hiff : quoting = .plain ∧ depth = 0 ∧ c = separator ∧ ¬ (isQuote c || isOpening c || isClosing c) ↔
      (⟨quoting, depth⟩ : Standing) = outside ∧ c = separator ∧ isInert c := by
    simp [outside, isInert, and_assoc]
  rw [Standing.split, splitFrom]
  simp only [hiff]
  split <;> rfl

/-- The text is split nowhere when the reader stands in `s` in front of it. -/
def Unsplit (separator : Char) (s : Standing) (t : Text) : Prop := s.split separator t = (t, [])

theorem unsplit_nil (s : Standing) : Unsplit separator s [] := rfl

theorem unsplit_cons {s : Standing} : Unsplit separator s (c :: t) ↔
    ¬ (s = outside ∧ c = separator ∧ isInert c) ∧ Unsplit separator (s.after c) t := by
  rw [Unsplit, split_cons]
  split
  · next h => exact iff_of_false (by simp) fun hne => hne.1 h
  · next h => simp [h, Unsplit, Prod.ext_iff]

theorem unsplit_append {s : Standing} : Unsplit separator s (t ++ u) ↔
    Unsplit separator s t ∧ Unsplit separator (s.behind t) u := by
  induction t generalizing s with
  | nil => simp [unsplit_nil]
  | cons c t ih => rw [List.cons_append, unsplit_cons, unsplit_cons, ih, Standing.behind_cons, and_assoc]

/-- Behind a text that is not split, splitting goes on as if nothing had been in front. -/
theorem split_append {s : Standing} (h : Unsplit separator s t) (u : Text) : s.split separator (t ++ u) =
    (t ++ ((s.behind t).split separator u).1, ((s.behind t).split separator u).2) := by
  induction t generalizing s with
  | nil => rfl
  | cons c t ih =>
    obtain ⟨hc, ht⟩ := unsplit_cons.mp h
    rw [List.cons_append, split_cons, if_neg hc, ih ht, Standing.behind_cons]
    rfl

/-- The text is not split, and what comes behind it is read as if it stood alone. -/
structure IsPart (separator : Char) (t : Text) : Prop where
  unsplit : Unsplit separator outside t
  closesAll : ClosesAll t

namespace IsPart

theorem append (ht : IsPart separator t) (hu : IsPart separator u) : IsPart separator (t ++ u) :=
  ⟨unsplit_append.mpr ⟨ht.unsplit, ht.closesAll.symm ▸ hu.unsplit⟩, ht.closesAll.append hu.closesAll⟩

theorem of_isInert (h : t.all isInert) (hseparator : separator ∉ t) : IsPart separator t := by
  rw [List.all_eq_true] at h
  refine ⟨?_, closesAll_of_isInert h⟩
  induction t with
  | nil => exact unsplit_nil _
  | cons c t ih =>
    obtain ⟨hc, ht⟩ := List.forall_mem_cons.mp h
    rw [List.mem_cons, not_or] at hseparator
    rw [unsplit_cons, Standing.after_outside hc]
    exact ⟨fun h => hseparator.1 h.2.1.symm, ih ht hseparator.2⟩

/-- White space at the ends may go. -/
theorem trim (h : IsPart separator t) : IsPart separator (trim t) := by
  obtain ⟨w, w', hw, hw', heq⟩ := exists_eq_trim t
  obtain ⟨hunsplit, hcloses⟩ := h
  have hbehind : outside.behind w = outside := closesAll_of_isInert fun c hc => isInert_of_isSpace (hw c hc)
  rw [heq, unsplit_append, unsplit_append, hbehind] at hunsplit
  rw [heq, ClosesAll, Standing.behind_append, Standing.behind_append, hbehind] at hcloses
  exact ⟨hunsplit.1.2, Standing.eq_outside_of_behind (Standing.isQuoted_outside.behind _) hw' hcloses⟩

end IsPart

/-- All that a text is split into are parts, if it closes what it opens. -/
theorem isPart_of_mem_split (separator : Char) {s : Standing} (h : s.behind t = outside) :
    Unsplit separator s (s.split separator t).1 ∧ s.behind (s.split separator t).1 = outside ∧
      ∀ p ∈ (s.split separator t).2, IsPart separator p := by
  induction t generalizing s with
  | nil => exact ⟨unsplit_nil s, h, by simp [Standing.split, splitFrom]⟩
  | cons c t ih =>
    rw [split_cons]
    split
    · next hsplit =>
      obtain ⟨rfl, -, hinert⟩ := hsplit
      rw [Standing.behind_cons, Standing.after_outside hinert] at h
      obtain ⟨hunsplit, hbehind, hrest⟩ := ih h
      exact ⟨unsplit_nil _, rfl, List.forall_mem_cons.mpr ⟨⟨hunsplit, hbehind⟩, hrest⟩⟩
    · next hsplit =>
      obtain ⟨hunsplit, hbehind, hrest⟩ := ih h
      exact ⟨unsplit_cons.mpr ⟨hsplit, hunsplit⟩, hbehind, hrest⟩

/-! ## Lists of parts -/

/-- A part as splitting gives it: it neither starts nor ends with white space and is not empty. -/
structure IsItem (separator : Char) (t : Text) : Prop extends IsPart separator t where
  trimmed : IsTrimmed t
  ne_nil : t ≠ []

theorem IsItem.append (ht : IsItem separator t) (hp : IsPart separator p) (hu : IsItem separator u) :
    IsItem separator (t ++ p ++ u) where
  toIsPart := (ht.toIsPart.append hp).append hu.toIsPart
  trimmed := ht.trimmed.append hu.trimmed ht.ne_nil hu.ne_nil
  ne_nil := by simp [ht.ne_nil]

theorem splitTopLevel_eq (t : Text) : splitTopLevel t separator =
    (((outside.split separator t).1 :: (outside.split separator t).2).map trim).filter fun part =>
      !part.isEmpty :=
  rfl

/-- **Splitting gives parts** if the text closes what it opens. -/
theorem isItem_of_mem_splitTopLevel (ht : ClosesAll t) (hp : p ∈ splitTopLevel t separator) :
    IsItem separator p := by
  obtain ⟨hunsplit, hbehind, hrest⟩ := isPart_of_mem_split separator ht
  have hparts := List.forall_mem_cons.mpr ⟨IsPart.mk hunsplit hbehind, hrest⟩
  rw [splitTopLevel_eq, List.mem_filter, List.mem_map] at hp
  obtain ⟨⟨q, hq, rfl⟩, hne⟩ := hp
  exact ⟨(hparts q hq).trim, isTrimmed_trim q, by simpa using hne⟩

/-- A part in front of a separator comes first. -/
theorem splitTopLevel_cons (hseparator : isInert separator) (hspace : separator ≠ ' ')
    (hp : IsItem separator p) (t : Text) :
    splitTopLevel (p ++ [separator, ' '] ++ t) separator = p :: splitTopLevel t separator := by
  have hblank : Unsplit separator outside [' '] :=
    unsplit_cons.mpr ⟨fun h => hspace h.2.1.symm, unsplit_nil _⟩
  have hsplit : outside.split separator (p ++ [separator, ' '] ++ t) =
      (p, (' ' :: (outside.split separator t).1) :: (outside.split separator t).2) := by
    have hrest : outside.split separator ([separator, ' '] ++ t) =
        ([], (' ' :: (outside.split separator t).1) :: (outside.split separator t).2) := by
      change outside.split separator (separator :: ([' '] ++ t)) = _
      rw [split_cons, if_pos ⟨rfl, rfl, hseparator⟩, split_append hblank]
      rfl
    rw [List.append_assoc, split_append hp.unsplit, hp.closesAll, hrest, List.append_nil]
  have htrim (u : Text) : trim (' ' :: u) = trim u := rfl
  rw [splitTopLevel_eq, splitTopLevel_eq, hsplit, List.map_cons, List.map_cons, List.map_cons, htrim,
    hp.trimmed.trim_eq, List.filter_cons_of_pos (by simpa using hp.ne_nil)]

/-- **Parts that were joined are given back.** -/
theorem splitTopLevel_intercalate (hseparator : isInert separator) (hspace : separator ≠ ' ')
    {parts : List Text} (h : ∀ p ∈ parts, IsItem separator p) :
    splitTopLevel ([separator, ' '].intercalate parts) separator = parts := by
  induction parts with
  | nil => rfl
  | cons p parts ih =>
    obtain ⟨hp, hparts⟩ := List.forall_mem_cons.mp h
    cases parts with
    | nil =>
      have hsplit : outside.split separator p = (p, []) := hp.unsplit
      rw [List.intercalate_singleton, splitTopLevel_eq, hsplit, List.map_singleton, hp.trimmed.trim_eq,
        List.filter_cons_of_pos (by simpa using hp.ne_nil), List.filter_nil]
    | cons q parts =>
      rw [List.intercalate_cons_cons, splitTopLevel_cons hseparator hspace hp, ih hparts]

theorem closesAll_intercalate {glue : Text} (hglue : ClosesAll glue) {parts : List Text}
    (h : ∀ p ∈ parts, ClosesAll p) : ClosesAll (glue.intercalate parts) := by
  induction parts with
  | nil => rfl
  | cons p parts ih =>
    obtain ⟨hp, hparts⟩ := List.forall_mem_cons.mp h
    cases parts with
    | nil => rwa [List.intercalate_singleton]
    | cons q parts =>
      rw [List.intercalate_cons_cons]
      exact (hp.append hglue).append (ih hparts)

end NestedCss.Text
