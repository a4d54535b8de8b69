import NestedCss.Proofs.Scanner.Escape
import NestedCss.Selector.Reader

/-!
# Names

* `Selector.IsName`, `Selector.continuesName`, **`Selector.scanName_eq_ok`**: names, which may hold escapes
  and interpolation;
* `Selector.EndsNames`: texts that end any name in front of them;
* `Selector.IsBareValue`, `Selector.scanBareValue_eq_ok`: attribute values without quotes.
-/

namespace NestedCss.Selector

open Scanner

variable {s rest n t u : Text}

/-! ## Words -/

/-- A text of pieces that is not empty. -/
structure IsWord (U : Text → Prop) (t : Text) : Prop where
  pieces : Pieces U t
  ne_nil : t ≠ []

/-- The text, unless it is empty. -/
def unlessEmpty (fault : Fault) (t : Text) : Scanner Text := do
  if t.isEmpty then failHere fault
  return t

theorem unlessEmpty_eq_ok {fault : Fault} :
    unlessEmpty fault t s = .ok u rest ↔ t ≠ [] ∧ t = u ∧ s = rest := by
  cases t with
  | nil =>
    simp only [ne_eq, not_true, false_and, iff_false]
    exact nofun
  | cons c t =>
    rw [unlessEmpty, List.isEmpty_cons, if_neg Bool.false_ne_true]
    simp [pure_eq_ok]

theorem word_eq_ok {U : Text → Prop} {step : Scanner (Option Text)} {fault : Fault} (hr : Reads U step) :
    (gatherAll step >>= unlessEmpty fault) s = .ok n rest ↔
      (IsWord U n ∧ Closes n rest) ∧ s = n ++ rest ∧ step rest = .ok none rest := by
  rw [bind_eq_ok]
  simp only [unlessEmpty_eq_ok, hr.gatherAll_eq_ok]
  constructor
  · rintro ⟨_, _, ⟨⟨hpieces, hcloses⟩, rfl, hstop⟩, hne, rfl, rfl⟩
    exact ⟨⟨⟨hpieces, hne⟩, hcloses⟩, rfl, hstop⟩
  · rintro ⟨⟨⟨hpieces, hne⟩, hcloses⟩, rfl, hstop⟩
    exact ⟨_, _, ⟨⟨hpieces, hcloses⟩, rfl, hstop⟩, hne, rfl, rfl⟩

/-! ## Names -/

/-- What a name is made of besides escapes: name characters and interpolations. -/
inductive IsNameUnit : Text → Prop
  | char {c : Char} : isNameChar c → IsNameUnit [c]
  | interpolation {raw : Text} : IsInterpolation raw → IsNameUnit raw

/-- A name as it is written. -/
abbrev IsName (n : Text) : Prop := IsWord IsNameUnit n

/-- Whether a name could go on with the text. -/
def continuesName : Text → Bool
  | [] => false
  | c :: s => isNameChar c || c == '\\' || startsInterpolation (c :: s)

/-- One piece of a name. -/
def nameStep : Scanner (Option Text) := do
  match ← peek with
  | none => return none
  | some c =>
    if ← atInterpolation then
      return some (← rawInterpolation)
    else if c == '\\' then
      return some (← rawEscape)
    else if isNameChar c then
      skip
      return some [c]
    else
      return none

theorem isNameChar_of_isAlpha {c : Char} (h : c.isUpper || c.isLower) : isNameChar c := by
  have halpha : c.isAlpha = true := h
  simp [isNameChar, isNameStart, halpha]

theorem isNameChar_of_isHexDigit {c : Char} (h : isHexDigit c) : isNameChar c := by
  simp only [isHexDigit, Bool.or_eq_true, Bool.and_eq_true, decide_eq_true_eq] at h
  rcases h with (h | ⟨ha, hf⟩) | ⟨ha, hf⟩
  · simp [isNameChar, h]
  · have hz : c ≤ 'z' := Char.le_trans hf (by decide)
    have hlower : c.isLower := Bool.and_eq_true_iff.mpr ⟨decide_eq_true ha, decide_eq_true hz⟩
    exact isNameChar_of_isAlpha (Bool.or_eq_true_iff.mpr (.inr hlower))
  · have hz : c ≤ 'Z' := Char.le_trans hf (by decide)
    have hupper : c.isUpper := decide_eq_true ⟨ha, hz⟩
    exact isNameChar_of_isAlpha (Bool.or_eq_true_iff.mpr (.inl hupper))

theorem isBlank_eq_false_of_isNameChar {c : Char} (h : isNameChar c) : isBlank c = false := by
  rw [Bool.eq_false_iff]
  intro hblank
  obtain rfl | rfl | rfl := isBlank_iff.mp hblank <;> revert h <;> decide

theorem startsInterpolation_eq_false {c : Char} (hhash : c ≠ '#') (hat : c ≠ '@') (s : Text) :
    startsInterpolation (c :: s) = false := by
  rw [Bool.eq_false_iff]
  intro h
  obtain ⟨mark, t, heq, rfl | rfl⟩ := startsInterpolation_eq_true h
  · cases heq
    exact hhash rfl
  · cases heq
    exact hat rfl

theorem isAsciiSpace_eq_false_of_isNameChar (h : isNameChar c) : isAsciiSpace c = false := by
  rw [Bool.eq_false_iff]
  intro hspace
  simp only [isAsciiSpace, Bool.or_eq_true, beq_iff_eq] at hspace
  rcases hspace with (hblank | rfl) | rfl
  · simp [isBlank_eq_false_of_isNameChar h] at hblank
  · revert h
    decide
  · revert h
    decide

theorem ne_of_isNameChar {c d : Char} (hc : isNameChar c) (hd : isNameChar d = false) : c ≠ d := by
  rintro rfl
  simp [hc] at hd

theorem nameStep_cons (c : Char) (s : Text) :
    nameStep (c :: s) =
      if startsInterpolation (c :: s) then (do return some (← rawInterpolation) : Scanner _) (c :: s)
      else if c = '\\' then (do return some (← rawEscape) : Scanner _) (c :: s)
      else if isNameChar c then .ok (some [c]) s
      else .ok none (c :: s) := by
  rw [nameStep, peek_bind]
  dsimp only [List.head?_cons]
  rw [bind_of_ok (atInterpolation_apply _)]
  simp only [beq_iff_eq]
  split
  · rfl
  · split
    · rfl
    · split <;> rfl

theorem separates_isNameUnit : Separates IsNameUnit where
  ne_nil h := by
    rcases h with _ | ⟨-, -⟩ <;> simp
  head h := by
    rcases h with hc | ⟨rfl | rfl, -⟩
    · simpa using isBlank_eq_false_of_isNameChar hc
    · rfl
    · rfl
  digit h hd := by
    cases h with
    | char => rfl
    | interpolation h =>
      obtain ⟨hmark, -⟩ := h
      rcases hmark with rfl | rfl
      · exact absurd hd (by decide)
      · exact absurd hd (by decide)
  openEscape? h := by
    rcases h with hc | @⟨mark, body, -, -⟩
    · have hslash : isNameChar '\\' = false := by decide
      simp [openEscape?, digitsAfter, ne_of_isNameChar hc hslash]
    · rw [openEscape?, List.foldl_append, List.foldl_cons, List.foldl_nil]
      generalize List.foldl digitsAfter none _ = state
      cases state with
      | none => rfl
      | some n => simp [digitsAfter, isHexDigit]

theorem nameStep_eq_ok {out : Option Text} (h : nameStep s = .ok out rest) :
    out = none ∧ s = rest ∧ continuesName s = false ∨
      ∃ u, out = some u ∧ (rawEscape s = .ok u rest ∨ IsNameUnit u ∧ s = u ++ rest) := by
  cases s with
  | nil =>
    cases h
    exact .inl ⟨rfl, rfl, rfl⟩
  | cons c s =>
    rw [nameStep_cons] at h
    split at h
    · next hstarts =>
      obtain ⟨u, hu, rfl⟩ := bind_pure_eq_ok.mp h
      obtain ⟨hraw, heq⟩ := (rawInterpolation_eq_ok hstarts).mp hu
      exact .inr ⟨u, rfl, .inr ⟨.interpolation hraw, heq⟩⟩
    · split at h
      · next hc =>
        obtain ⟨u, hu, rfl⟩ := bind_pure_eq_ok.mp h
        exact .inr ⟨u, rfl, .inl hu⟩
      · split at h
        · next hc =>
          cases h
          exact .inr ⟨[c], rfl, .inr ⟨.char hc, rfl⟩⟩
        · next hstarts hslash hc =>
          cases h
          exact .inl ⟨rfl, rfl, by simp [continuesName, hstarts, hslash, hc]⟩

theorem nameStep_of_continuesName_eq_false (h : continuesName s = false) : nameStep s = .ok none s := by
  cases s with
  | nil => rfl
  | cons c s =>
    simp only [continuesName, Bool.or_eq_false_iff, beq_eq_false_iff_ne] at h
    simp [nameStep_cons, h]

theorem reads_nameStep : Reads IsNameUnit nameStep where
  separates := separates_isNameUnit
  escape {_ _ rest} h := by
    obtain ⟨⟨he, -⟩, rfl⟩ := rawEscape_eq_ok.mp h
    obtain ⟨e, rfl⟩ := he.exists_eq_cons
    have hstarts := startsInterpolation_eq_false (by decide : '\\' ≠ '#') (by decide) (e ++ rest)
    rw [List.cons_append, nameStep_cons, hstarts, if_neg Bool.false_ne_true, if_pos rfl]
    exact bind_pure_eq_ok.mpr ⟨_, h, rfl⟩
  unit s h := by
    cases h with
    | @char c hc =>
      have hstarts := startsInterpolation_eq_false (ne_of_isNameChar hc (by decide))
        (ne_of_isNameChar hc (by decide)) s
      have hslash : c ≠ '\\' := ne_of_isNameChar hc (by decide)
      simp [nameStep_cons, hstarts, hslash, hc]
    | interpolation hraw =>
      have hstarts := hraw.starts s
      have h := (rawInterpolation_eq_ok hstarts).mpr ⟨hraw, rfl⟩
      obtain ⟨-, -⟩ := hraw
      exact (nameStep_cons _ _).trans ((if_pos hstarts).trans (bind_pure_eq_ok.mpr ⟨_, h, rfl⟩))
  cases h := by
    obtain ⟨h, -⟩ | ⟨u, h, hu⟩ := nameStep_eq_ok h <;> cases h
    exact hu
  stop h := by
    obtain ⟨-, rfl, -⟩ | ⟨u, h, -⟩ := nameStep_eq_ok h
    · rfl
    · cases h

theorem nameStep_eq_none : nameStep rest = .ok none rest ↔ continuesName rest = false := by
  refine ⟨fun h => ?_, nameStep_of_continuesName_eq_false⟩
  obtain ⟨-, -, h⟩ | ⟨u, h, -⟩ := nameStep_eq_ok h
  · exact h
  · cases h

/-- **A name goes on as far as it can.** -/
theorem scanName_eq_ok :
    scanName s = .ok n rest ↔ (IsName n ∧ Closes n rest) ∧ s = n ++ rest ∧ continuesName rest = false := by
  rw [← nameStep_eq_none]
  exact word_eq_ok reads_nameStep

theorem continuesName_of_startsInterpolation (h : startsInterpolation s) : continuesName s := by
  cases s with
  | nil => cases h
  | cons c s => simp [continuesName, h]

theorem IsName.append (hn : IsName n) (ht : IsName t) : IsName (n ++ t) :=
  ⟨hn.pieces.append ht.pieces, by simp [hn.ne_nil]⟩

/-- Whatever goes on with a name goes on with it. -/
theorem IsName.continues (hn : IsName n) (s : Text) : continuesName (n ++ s) := by
  obtain ⟨hpieces, hne⟩ := hn
  cases hpieces with
  | nil => exact absurd rfl hne
  | escape he =>
    obtain ⟨e, rfl⟩ := he.exists_eq_cons
    simp [continuesName]
  | @unit u t hu =>
    cases hu with
    | char hc => simp [continuesName, hc]
    | interpolation hraw =>
      rw [List.append_assoc]
      exact continuesName_of_startsInterpolation (hraw.starts (t ++ s))

/-- Whether the character by itself tells that no name goes on with it. -/
def endsName (c : Char) : Bool := !isNameChar c && c != '\\' && c != '#' && c != '@'

theorem continuesName_cons_eq_false {c : Char} (hc : endsName c) (s : Text) :
    continuesName (c :: s) = false := by
  simp only [endsName, Bool.and_eq_true, Bool.not_eq_true', bne_iff_ne] at hc
  obtain ⟨⟨⟨hname, hslash⟩, hhash⟩, hat⟩ := hc
  simp [continuesName, hname, hslash, startsInterpolation_eq_false hhash hat]

theorem head_ne_of_continuesName {c : Char} (h : continuesName s) (hc : endsName c) :
    s.head? ≠ some c := by
  intro hs
  obtain ⟨s, rfl⟩ := List.head?_eq_some_iff.mp hs
  rw [continuesName_cons_eq_false hc] at h
  cases h

theorem isSolid_of_continuesName (h : continuesName s) : isSolid s := by
  cases s with
  | nil => cases h
  | cons c s =>
    simp only [continuesName, Bool.or_eq_true, beq_iff_eq] at h
    rcases h with (hc | rfl) | hstarts
    · exact isSolid_cons (isBlank_eq_false_of_isNameChar hc) (ne_of_isNameChar hc (by decide)) s
    · exact isSolid_cons (by decide) (by decide) s
    · obtain ⟨mark, t, heq, rfl | rfl⟩ := startsInterpolation_eq_true hstarts <;>
        cases heq <;> exact isSolid_cons (by decide) (by decide) _

theorem closes_of_continuesName (hname : continuesName s = false) (hblank : s.head?.any isBlank = false)
    (t : Text) : Closes t s := by
  refine fun _ _ => ⟨hblank, fun _ => ?_⟩
  cases s with
  | nil => rfl
  | cons c s =>
    rw [Bool.eq_false_iff]
    intro hc
    simp [continuesName, isNameChar_of_isHexDigit hc] at hname

/-! ## What ends a name -/

/-- Whether the text starts with the `|` behind a namespace. -/
def startsBar : Text → Bool
  | '|' :: s => s.head? != some '='
  | _ => false

theorem atNamespaceBar_apply (s : Text) : atNamespaceBar s = .ok (startsBar s) s := by
  unfold atNamespaceBar
  split
  · rfl
  · next t hne =>
    have ht : t.head? ≠ some '=' := fun h => by
      obtain ⟨t, rfl⟩ := List.head?_eq_some_iff.mp h
      exact hne t rfl
    simp [startsBar, ht]
  · next hbar =>
    unfold startsBar
    split
    · exact absurd rfl (hbar _)
    · rfl

theorem startsBar_eq_true (h : startsBar s) : ∃ t, s = '|' :: t ∧ t.head? ≠ some '=' := by
  unfold startsBar at h
  split at h
  · next t => exact ⟨t, rfl, by simpa using h⟩
  · cases h

theorem startsBar_of_head (h : s.head? ≠ some '|') : startsBar s = false := by
  unfold startsBar
  split
  · exact absurd rfl h
  · rfl

theorem startsBar_cons (h : continuesName s) : startsBar ('|' :: s) := by
  have hs : s.head? ≠ some '=' := head_ne_of_continuesName h (by decide)
  simpa [startsBar] using hs

/-- No name in front of the text goes on with it, whatever escape it ends with. -/
structure EndsNames (s : Text) : Prop where
  name : continuesName s = false
  blank : s.head?.any isBlank = false
  bar : startsBar s = false

theorem EndsNames.scanName (h : EndsNames rest) (hn : IsName n) : scanName (n ++ rest) = .ok n rest :=
  scanName_eq_ok.mpr ⟨⟨hn, closes_of_continuesName h.name h.blank n⟩, rfl, h.name⟩

/-! ## Attribute values -/

/-- What an attribute value without quotes is made of besides escapes. -/
inductive IsValueUnit : Text → Prop
  | char {c : Char} : c ≠ ']' → isAsciiSpace c = false → c ≠ '\\' → IsValueUnit [c]

/-- An attribute value without quotes, as it is written. -/
abbrev IsBareValue (v : Text) : Prop := IsWord IsValueUnit v

/-- Whether a value without quotes ends in front of the text. -/
def endsValue (s : Text) : Bool := s.head?.all fun c => c == ']' || isAsciiSpace c

/-- One piece of a value without quotes. -/
def valueStep : Scanner (Option Text) := do
  match ← peek with
  | none => return none
  | some c =>
    if c == ']' || isAsciiSpace c then
      return none
    else if c == '\\' then
      return some (← rawEscape)
    else
      skip
      return some [c]

theorem valueStep_cons (c : Char) (s : Text) :
    valueStep (c :: s) =
      if c == ']' || isAsciiSpace c then .ok none (c :: s)
      else if c = '\\' then (do return some (← rawEscape) : Scanner _) (c :: s)
      else .ok (some [c]) s := by
  rw [valueStep, peek_bind]
  dsimp only [List.head?_cons]
  simp only [beq_iff_eq]
  split
  · rfl
  · split <;> rfl

theorem valueStep_eq_ok {out : Option Text} (h : valueStep s = .ok out rest) :
    out = none ∧ s = rest ∧ endsValue s ∨
      ∃ u, out = some u ∧ (rawEscape s = .ok u rest ∨ IsValueUnit u ∧ s = u ++ rest) := by
  cases s with
  | nil =>
    cases h
    exact .inl ⟨rfl, rfl, rfl⟩
  | cons c s =>
    rw [valueStep_cons] at h
    split at h
    · next hends =>
      cases h
      exact .inl ⟨rfl, rfl, hends⟩
    · next hends =>
      simp only [Bool.or_eq_true, beq_iff_eq, not_or, Bool.not_eq_true] at hends
      split at h
      · obtain ⟨u, hu, rfl⟩ := bind_pure_eq_ok.mp h
        exact .inr ⟨u, rfl, .inl hu⟩
      · next hslash =>
        cases h
        exact .inr ⟨[c], rfl, .inr ⟨.char hends.1 hends.2 hslash, rfl⟩⟩

theorem valueStep_eq_none : valueStep rest = .ok none rest ↔ endsValue rest := by
  constructor
  · intro h
    obtain ⟨-, -, h⟩ | ⟨u, h, -⟩ := valueStep_eq_ok h
    · exact h
    · cases h
  · intro h
    cases rest with
    | nil => rfl
    | cons c rest => exact (valueStep_cons c rest).trans (if_pos h)

theorem separates_isValueUnit : Separates IsValueUnit where
  ne_nil h := by
    cases h
    simp
  head h := by
    cases h with
    | char _ hspace _ =>
      simp only [isAsciiSpace, Bool.or_eq_false_iff] at hspace
      exact hspace.1.1
  digit h _ := by
    cases h
    rfl
  openEscape? h := by
    cases h with
    | char _ _ hslash => simp [openEscape?, digitsAfter, hslash]

theorem reads_valueStep : Reads IsValueUnit valueStep where
  separates := separates_isValueUnit
  escape {_ _ rest} h := by
    obtain ⟨⟨he, -⟩, rfl⟩ := rawEscape_eq_ok.mp h
    obtain ⟨e, rfl⟩ := he.exists_eq_cons
    rw [List.cons_append, valueStep_cons, if_neg (by decide), if_pos rfl]
    exact bind_pure_eq_ok.mpr ⟨_, h, rfl⟩
  unit s h := by
    cases h with
    | char hbracket hspace hslash => simp [valueStep_cons, hbracket, hspace, hslash]
  cases h := by
    obtain ⟨h, -⟩ | ⟨u, h, hu⟩ := valueStep_eq_ok h <;> cases h
    exact hu
  stop h := by
    obtain ⟨-, rfl, -⟩ | ⟨u, h, -⟩ := valueStep_eq_ok h
    · rfl
    · cases h

theorem scanBareValue_eq_ok :
    scanBareValue s = .ok n rest ↔ (IsBareValue n ∧ Closes n rest) ∧ s = n ++ rest ∧ endsValue rest := by
  rw [← valueStep_eq_none]
  exact word_eq_ok reads_valueStep

end NestedCss.Selector
