import Mathlib.Data.List.TakeWhile
import NestedCss.Proofs.Scanner.Consumes
import NestedCss.Proofs.Selector.Name

/-!
# Identifiers

Names without interpolation, such as those of at-rules.

* `Scanner.IsIdentifier`: identifiers as they are written;
* `Scanner.EndsIdentifier`: texts that an identifier ends in front of;
* **`Scanner.identifier_eq_ok`**: what is scanned as an identifier.
-/

namespace NestedCss.Scanner

variable {s rest n t : Text} {c : Char}

/-! ## Behind the hyphens -/

/-- What an identifier is made of besides escapes. -/
inductive IsNameCharUnit : Text → Prop
  | char {c : Char} : isNameChar c → IsNameCharUnit [c]

/-- Whether an identifier goes on in front of the text. -/
def continuesIdentifier (s : Text) : Bool := s.head?.any fun c => isNameChar c || c == '\\'

theorem nameStep_cons (c : Char) (s : Text) :
    nameStep (c :: s) =
      if c = '\\' then (do return some (← rawEscape) : Scanner _) (c :: s)
      else if isNameChar c then .ok (some [c]) s
      else .ok none (c :: s) := by
  rw [nameStep, peek_bind]
  dsimp only [List.head?_cons]
  simp only [beq_iff_eq]
  split
  · rfl
  · split <;> rfl

theorem nameStep_eq_ok {out : Option Text} (h : nameStep s = .ok out rest) :
    out = none ∧ s = rest ∧ continuesIdentifier s = false ∨
      ∃ u, out = some u ∧ (rawEscape s = .ok u rest ∨ IsNameCharUnit u ∧ s = u ++ rest) := by
  cases s with
  | nil =>
    cases h
    exact .inl ⟨rfl, rfl, rfl⟩
  | cons c s =>
    rw [nameStep_cons] at h
    split at h
    · obtain ⟨u, hu, rfl⟩ := bind_pure_eq_ok.mp h
      exact .inr ⟨u, rfl, .inl hu⟩
    · next hslash =>
      split at h
      · next hchar =>
        cases h
        exact .inr ⟨[c], rfl, .inr ⟨.char hchar, rfl⟩⟩
      · next hchar =>
        cases h
        exact .inl ⟨rfl, rfl, by simp [continuesIdentifier, hchar, hslash]⟩

theorem nameStep_eq_none : nameStep rest = .ok none rest ↔ continuesIdentifier rest = false := by
  constructor
  · intro h
    obtain ⟨-, -, h⟩ | ⟨u, h, -⟩ := nameStep_eq_ok h
    · exact h
    · cases h
  · intro h
    cases rest with
    | nil => rfl
    | cons c rest =>
      simp only [continuesIdentifier, List.head?_cons, Option.any_some, Bool.or_eq_false_iff,
        beq_eq_false_iff_ne] at h
      rw [nameStep_cons, if_neg h.2, if_neg (by simp [h.1])]

theorem separates_isNameCharUnit : Separates IsNameCharUnit where
  ne_nil h := by
    cases h
    simp
  head h := by
    cases h with
    | char hc => exact Selector.isBlank_eq_false_of_isNameChar hc
  digit h _ := by
    cases h
    rfl
  openEscape? h := by
    cases h with
    | char hc =>
      have hslash := Selector.ne_of_isNameChar hc (d := '\\') (by decide)
      simp [openEscape?, digitsAfter, hslash]

theorem reads_nameStep : Reads IsNameCharUnit nameStep where
  separates := separates_isNameCharUnit
  escape {_ _ rest} h := by
    obtain ⟨⟨he, -⟩, rfl⟩ := rawEscape_eq_ok.mp h
    obtain ⟨e, rfl⟩ := he.exists_eq_cons
    rw [List.cons_append, nameStep_cons, if_pos rfl]
    exact bind_pure_eq_ok.mpr ⟨_, h, rfl⟩
  unit s h := by
    cases h with
    | char hc => simp [nameStep_cons, hc, Selector.ne_of_isNameChar hc (d := '\\') (by decide)]
  cases h := by
    obtain ⟨h, -⟩ | ⟨u, h, hu⟩ := nameStep_eq_ok h <;> cases h
    exact hu
  stop h := by
    obtain ⟨-, rfl, -⟩ | ⟨u, h, -⟩ := nameStep_eq_ok h
    · rfl
    · cases h

/-! ## With the hyphens -/

/-- Whether a text starts with what an identifier may start with behind its hyphens. -/
def startsIdentifier (s : Text) : Bool := s.head?.any fun c => isNameStart c || c == '\\'

theorem continuesIdentifier_of_starts (h : startsIdentifier s) : continuesIdentifier s := by
  cases s with
  | nil => cases h
  | cons c s =>
    have hc : isNameStart c = true ∨ c = '\\' := by simpa [startsIdentifier] using h
    have : isNameChar c = true ∨ c = '\\' := hc.imp_left fun hc => by simp [isNameChar, hc]
    simpa [continuesIdentifier] using this

/-- An identifier: hyphens and a name that starts with none, or just two hyphens. -/
inductive IsIdentifier : Text → Prop
  | name {hyphens name : Text} : (∀ c ∈ hyphens, c = '-') → startsIdentifier name →
      Pieces IsNameCharUnit name → IsIdentifier (hyphens ++ name)
  | hyphens : IsIdentifier "--".toList

/-- The identifier ends in front of the text. -/
structure EndsIdentifier (n rest : Text) : Prop where
  closes : Closes n rest
  stops : n ≠ "--".toList → continuesIdentifier rest = false
  hyphens : n = "--".toList → startsIdentifier rest = false ∧ rest.head? ≠ some '-'

/-- Only the next character decides whether an identifier ends in front of it. -/
theorem EndsIdentifier.congr (h : EndsIdentifier n rest) (hhead : s.head? = rest.head?) :
    EndsIdentifier n s := by
  obtain ⟨hcloses, hstops, hhyphens⟩ := h
  refine ⟨?_, ?_, ?_⟩
  · rwa [Closes, hhead]
  · rwa [continuesIdentifier, hhead]
  · rwa [startsIdentifier, hhead]

theorem endsIdentifier_of_closes (hcloses : Closes n rest)
    (hhead : ∀ c ∈ rest.head?, isNameChar c = false ∧ c ≠ '\\') : EndsIdentifier n rest := by
  have hstops : continuesIdentifier rest = false := by
    cases rest with
    | nil => rfl
    | cons c rest => simpa [continuesIdentifier] using hhead c rfl
  refine ⟨hcloses, fun _ => hstops, fun _ => ⟨?_, fun hhyphen => ?_⟩⟩
  · exact Bool.eq_false_iff.mpr fun h => Bool.eq_false_iff.mp hstops (continuesIdentifier_of_starts h)
  · exact absurd (hhead _ hhyphen).1 (by decide)

theorem rawText_skipWhile (p : Char → Bool) (s : Text) :
    rawText (skipWhile p) s = .ok (s.takeWhile p) (s.dropWhile p) := by
  refine (rawText_eq_ok_of (fun raw rest => raw = s.takeWhile p ∧ rest = s.dropWhile p) fun rest => ?_).mpr
    ⟨⟨rfl, rfl⟩, List.takeWhile_append_dropWhile.symm⟩
  constructor
  · rintro ⟨_, h⟩
    cases h
    exact ⟨_, ⟨rfl, rfl⟩, List.takeWhile_append_dropWhile.symm⟩
  · rintro ⟨_, ⟨-, rfl⟩, -⟩
    exact ⟨(), rfl⟩

theorem identifier_apply (s : Text) : identifier s =
    if startsIdentifier (s.dropWhile (· == '-')) then
      (do return s.takeWhile (· == '-') ++ (← gatherAll nameStep) : Scanner Text) (s.dropWhile (· == '-'))
    else if s.takeWhile (· == '-') = "--".toList then .ok "--".toList (s.dropWhile (· == '-'))
    else failHere .expectedIdentifier (s.dropWhile (· == '-')) := by
  rw [identifier, bind_of_ok (rawText_skipWhile _ s), peek_bind]
  generalize s.takeWhile (· == '-') = hyphens, s.dropWhile (· == '-') = s'
  have hfail {f : Unit → Scanner Text} :
      (if hyphens == "--".toList then pure hyphens
        else failHere .expectedIdentifier >>= f : Scanner Text) s' =
        if hyphens = "--".toList then .ok "--".toList s' else failHere .expectedIdentifier s' := by
    by_cases h : hyphens = "--".toList
    · rw [if_pos (beq_iff_eq.mpr h), if_pos h, h]
      rfl
    · rw [if_neg (mt beq_iff_eq.mp h), if_neg h]
      rfl
  cases s' with
  | nil => exact hfail
  | cons c s' =>
    have hstarts : startsIdentifier (c :: s') = (isNameStart c || c == '\\') := rfl
    rw [hstarts]
    by_cases hc : (isNameStart c || c == '\\') = true
    · rw [if_pos hc]
      dsimp only [List.head?_cons]
      rw [if_neg (by simp [hc])]
      rfl
    · rw [if_neg hc]
      dsimp only [List.head?_cons]
      rw [if_pos (by simpa using hc)]
      exact hfail

theorem ne_hyphen_of_startsIdentifier (h : startsIdentifier (c :: s)) : c ≠ '-' := by
  rintro rfl
  cases h

/-- Hyphens in front of something that starts with none. -/
theorem span_hyphens {hyphens : Text} (hhyphens : ∀ c ∈ hyphens, c = '-') (hs : s.head? ≠ some '-') :
    (hyphens ++ s).takeWhile (· == '-') = hyphens ∧ (hyphens ++ s).dropWhile (· == '-') = s := by
  have hall : ∀ c ∈ hyphens, (c == '-') = true := fun c hc => beq_iff_eq.mpr (hhyphens c hc)
  rw [List.takeWhile_append_of_pos hall, List.dropWhile_append_of_pos hall]
  cases s with
  | nil => simp
  | cons c s =>
    have hc : c ≠ '-' := fun h => hs (by rw [h]; rfl)
    simp [hc]

theorem closes_hyphens {hyphens : Text} (h : ∀ c ∈ hyphens, c = '-') (t rest : Text) :
    Closes (hyphens ++ t) rest ↔ Closes t rest := by
  have hopen : openEscape? hyphens = none := by
    induction hyphens with
    | nil => rfl
    | cons c hyphens ih =>
      obtain ⟨rfl, htail⟩ := List.forall_mem_cons.mp h
      exact ih htail
  rw [Closes, openEscape?_append_of_eq_none hopen]
  rfl

theorem exists_cons_of_startsIdentifier (h : startsIdentifier t) :
    ∃ c u, t = c :: u ∧ c ≠ '-' ∧ ∀ rest, startsIdentifier (t ++ rest) := by
  cases t with
  | nil => cases h
  | cons c u => exact ⟨c, u, rfl, ne_hyphen_of_startsIdentifier h, fun _ => h⟩

theorem append_ne_hyphens {hyphens : Text} (h : startsIdentifier t) : hyphens ++ t ≠ "--".toList := by
  obtain ⟨c, u, rfl, hc, -⟩ := exists_cons_of_startsIdentifier h
  intro heq
  have hmem : c ∈ "--".toList := heq ▸ List.mem_append_right hyphens List.mem_cons_self
  exact hc (by simpa using hmem)

theorem endsIdentifier_name {hyphens : Text} (hhyphens : ∀ c ∈ hyphens, c = '-')
    (hstarts : startsIdentifier t) :
    EndsIdentifier (hyphens ++ t) rest ↔ Closes t rest ∧ continuesIdentifier rest = false := by
  have hne : hyphens ++ t ≠ "--".toList := append_ne_hyphens hstarts
  constructor
  · rintro ⟨hcloses, hstops, -⟩
    exact ⟨(closes_hyphens hhyphens t rest).mp hcloses, hstops hne⟩
  · rintro ⟨hcloses, hstops⟩
    exact ⟨(closes_hyphens hhyphens t rest).mpr hcloses, fun _ => hstops, fun h => absurd h hne⟩

theorem endsIdentifier_hyphens :
    EndsIdentifier "--".toList rest ↔ startsIdentifier rest = false ∧ rest.head? ≠ some '-' :=
  ⟨fun h => h.hyphens rfl, fun h => ⟨closes_of_eq_none rfl rest, fun hne => absurd rfl hne, fun _ => h⟩⟩

theorem isIdentifier_of_identifier (h : identifier s = .ok n rest) :
    IsIdentifier n ∧ EndsIdentifier n rest ∧ s = n ++ rest := by
  have hall : ∀ c ∈ s.takeWhile (· == '-'), c = '-' := fun c hc => by simpa using List.mem_takeWhile_imp hc
  have hsplit : s = s.takeWhile (· == '-') ++ s.dropWhile (· == '-') := List.takeWhile_append_dropWhile.symm
  have hhead : (s.dropWhile (· == '-')).head? ≠ some '-' := by
    intro hhead
    have hnot := List.head?_dropWhile_not (· == '-') s
    simp [hhead] at hnot
  rw [identifier_apply] at h
  generalize s.takeWhile (· == '-') = hyphens, s.dropWhile (· == '-') = s' at h hall hsplit hhead
  subst hsplit
  split at h
  · next hstarts =>
    obtain ⟨name, hname, rfl⟩ := bind_pure_eq_ok.mp h
    obtain ⟨⟨hpieces, hcloses⟩, rfl, hstop⟩ := reads_nameStep.gatherAll_eq_ok.mp hname
    have hstops := nameStep_eq_none.mp hstop
    have hname : startsIdentifier name := by
      cases name with
      | nil => exact absurd (continuesIdentifier_of_starts hstarts) (Bool.eq_false_iff.mp hstops)
      | cons c name => exact hstarts
    exact ⟨.name hall hname hpieces, (endsIdentifier_name hall hname).mpr ⟨hcloses, hstops⟩, by simp⟩
  · next hstarts =>
    split at h
    · next hhyphens =>
      cases h
      exact ⟨.hyphens, endsIdentifier_hyphens.mpr ⟨by simpa using hstarts, hhead⟩, by rw [hhyphens]⟩
    · cases h

/-- **What is scanned as an identifier.** -/
theorem identifier_eq_ok :
    identifier s = .ok n rest ↔ IsIdentifier n ∧ EndsIdentifier n rest ∧ s = n ++ rest := by
  refine ⟨isIdentifier_of_identifier, ?_⟩
  rintro ⟨hn, hends, rfl⟩
  rw [identifier_apply]
  cases hn with
  | @name hyphens name hall hstarts hpieces =>
    obtain ⟨hcloses, hstops⟩ := (endsIdentifier_name hall hstarts).mp hends
    obtain ⟨c, u, rfl, hc, hstarts'⟩ := exists_cons_of_startsIdentifier hstarts
    obtain ⟨htake, hdrop⟩ := span_hyphens (s := c :: u ++ rest) hall (by simpa using hc)
    rw [List.append_assoc, htake, hdrop, if_pos (hstarts' rest)]
    refine bind_pure_eq_ok.mpr ⟨_, ?_, rfl⟩
    exact reads_nameStep.gatherAll_eq_ok.mpr ⟨⟨hpieces, hcloses⟩, rfl, nameStep_eq_none.mpr hstops⟩
  | hyphens =>
    obtain ⟨hstarts, hhead⟩ := endsIdentifier_hyphens.mp hends
    have hall : ∀ c ∈ "--".toList, c = '-' := by simp
    obtain ⟨htake, hdrop⟩ := span_hyphens hall hhead
    rw [htake, hdrop, if_neg (by simp [hstarts]), if_pos rfl]

end NestedCss.Scanner
