import NestedCss.Proofs.Scanner.Lexeme

/-!
# Escapes

An escape of fewer than six digits goes on with any digit behind it, and one of any length takes a
blank. So what stands behind a text can matter to the escape that it ends with.

* `Scanner.IsEscape`, **`Scanner.rawEscape_eq_ok`**: escapes, and where they end;
* `Scanner.openEscape?`: how many digits the escape has that a text ends with;
* `Scanner.Pieces`: texts made of escapes and other units;
* **`Scanner.Reads.gatherAll_eq_ok`**: they are what a scanner gathers that takes escapes and units.
-/

namespace NestedCss.Scanner

variable {s rest t u e ds : Text}

/-! ## Single escapes -/

/-- The digits of an escape. -/
structure IsDigits (ds : Text) : Prop where
  ne_nil : ds ≠ []
  length_le : ds.length ≤ 6
  hex : ∀ d ∈ ds, isHexDigit d

/-- An escape as it is written. -/
inductive IsEscape : Text → Prop
  | char {c : Char} : isHexDigit c = false → c ≠ '\n' → IsEscape ['\\', c]
  | digits {ds : Text} : IsDigits ds → IsEscape ('\\' :: ds)
  | blank {ds : Text} {b : Char} : IsDigits ds → isBlank b → IsEscape ('\\' :: ds ++ [b])

theorem IsEscape.two_le_length (h : IsEscape e) : 2 ≤ e.length := by
  cases h with
  | char => simp
  | digits hds => exact Nat.succ_le_succ (List.length_pos_iff.mpr hds.ne_nil)
  | blank => simp

/-- How many digits of an escape were read after one more character. Outside of escapes there is no
such number, and right behind the backslash it is 0. -/
def digitsAfter (state : Option Nat) (c : Char) : Option Nat :=
  match state with
  | some n =>
    if isHexDigit c && n < 6 then some (n + 1) else if c = '\\' && n ≠ 0 then some 0 else none
  | none => if c = '\\' then some 0 else none

/-- The number of digits of the escape that a text ends with, if something behind it could still belong
to that. -/
def openEscape? (t : Text) : Option Nat := t.foldl digitsAfter none

/-- What comes behind a text does not belong to the escape that it ends with. -/
def Closes (t rest : Text) : Prop :=
  ∀ n ∈ openEscape? t, rest.head?.any isBlank = false ∧ (n < 6 → rest.head?.any isHexDigit = false)

theorem isHexDigit_eq_false_of_isBlank {c : Char} (h : isBlank c) : isHexDigit c = false := by
  obtain rfl | rfl | rfl := isBlank_iff.mp h <;> decide

theorem foldl_digits {n : Nat} (hlength : ds.length + n ≤ 6) (hex : ∀ d ∈ ds, isHexDigit d) :
    ds.foldl digitsAfter (some n) = some (ds.length + n) := by
  induction ds generalizing n with
  | nil => simp
  | cons d ds ih =>
    have hd : isHexDigit d := hex d List.mem_cons_self
    rw [List.length_cons] at hlength
    rw [List.foldl_cons, digitsAfter, hd, if_pos (by simp; omega),
      ih (by omega) fun d hd => hex d (List.mem_cons_of_mem _ hd)]
    simp; omega

theorem openEscape?_digits (h : IsDigits ds) : openEscape? ('\\' :: ds) = some ds.length :=
  foldl_digits h.length_le h.hex

theorem skipHexDigits_eq_ok {n : Nat} {a : Unit} :
    skipHexDigits n s = .ok a rest ↔
      ∃ ds, s = ds ++ rest ∧ ds.length ≤ n ∧ (∀ d ∈ ds, isHexDigit d) ∧
        (ds.length < n → rest.head?.any isHexDigit = false) := by
  constructor
  · intro h
    fun_induction skipHexDigits n s with
    | case1 =>
      cases h
      exact ⟨[], by simp⟩
    | case2 =>
      cases h
      exact ⟨[], by simp⟩
    | case3 n c s hc ih =>
      obtain ⟨ds, rfl, hlength, hex, hrest⟩ := ih h
      refine ⟨c :: ds, rfl, by simpa using hlength, ?_, fun hlt => hrest (by simpa using hlt)⟩
      simpa using ⟨hc, hex⟩
    | case4 n c s hc =>
      cases h
      exact ⟨[], by simpa using hc⟩
  · rintro ⟨ds, rfl, hlength, hex, hrest⟩
    induction n generalizing ds with
    | zero =>
      rw [List.length_eq_zero_iff.mp (Nat.le_zero.mp hlength)]
      rfl
    | succ n ih =>
      cases ds with
      | nil =>
        cases rest with
        | nil => rfl
        | cons c rest =>
          have hc : isHexDigit c = false := by simpa using hrest (Nat.succ_pos n)
          simp [skipHexDigits, hc]
      | cons d ds =>
        rw [List.cons_append, skipHexDigits, if_pos (hex d List.mem_cons_self)]
        exact ih ds (by simpa using hlength) (fun d hd => hex d (List.mem_cons_of_mem _ hd))
          fun hlt => hrest (by simpa using hlt)

theorem closes_of_eq_none (h : openEscape? t = none) (rest : Text) : Closes t rest := by
  simp [Closes, h]

theorem IsDigits.closes_iff (h : IsDigits ds) : Closes ('\\' :: ds) rest ↔
    rest.head?.any isBlank = false ∧ (ds.length < 6 → rest.head?.any isHexDigit = false) := by
  simp [Closes, openEscape?_digits h]

theorem openEscape?_blank (h : IsDigits ds) {b : Char} (hb : isBlank b) :
    openEscape? ('\\' :: ds ++ [b]) = none := by
  have hhex : isHexDigit b = false := isHexDigit_eq_false_of_isBlank hb
  have hslash : b ≠ '\\' := by
    rintro rfl
    revert hb
    decide
  rw [openEscape?, List.foldl_append, ← openEscape?, openEscape?_digits h]
  simp [digitsAfter, hhex, hslash]

theorem openEscape?_char {c : Char} (hc : isHexDigit c = false) : openEscape? ['\\', c] = none := by
  simp [openEscape?, digitsAfter, hc]

/-- The blank behind the digits of an escape, if there is one. -/
def blankBehind : Scanner Unit := do
  if ((← peek).map isBlank).getD false then skip

/-- An escape behind its backslash. -/
def escapeTail : Scanner Unit := do
  match ← peek with
  | none => failHere .expectedExpression
  | some '\n' => failHere .expectedEscape
  | some c =>
    if isHexDigit c then
      skipHexDigits 6
      blankBehind
    else
      skip

theorem blankBehind_eq_ok {a : Unit} :
    blankBehind s = .ok a rest ↔
      (∃ b, isBlank b ∧ s = b :: rest) ∨ s.head?.any isBlank = false ∧ s = rest := by
  rw [blankBehind, peek_bind]
  cases s with
  | nil => simp [pure_eq_ok]
  | cons b s =>
    rw [List.head?_cons, Option.map_some, Option.getD_some, Option.any_some]
    cases hb : isBlank b with
    | true =>
      rw [if_pos rfl]
      constructor
      · intro h
        cases h
        exact .inl ⟨b, hb, rfl⟩
      · rintro (⟨b, -, h⟩ | ⟨h, -⟩)
        · cases h
          rfl
        · cases h
    | false =>
      rw [if_neg Bool.false_ne_true, pure_eq_ok]
      constructor
      · rintro ⟨-, rfl⟩
        exact .inr ⟨rfl, rfl⟩
      · rintro (⟨b', hb', h⟩ | ⟨-, rfl⟩)
        · cases h
          simp [hb] at hb'
        · exact ⟨rfl, rfl⟩

theorem escapeTail_of_isHexDigit {c : Char} (hc : isHexDigit c) :
    escapeTail (c :: s) = (do skipHexDigits 6; blankBehind : Scanner Unit) (c :: s) := by
  have hne : c ≠ '\n' := by
    rintro rfl
    revert hc
    decide
  simp only [escapeTail, peek_bind, List.head?_cons, hc, if_true]

theorem escapeTail_of_isHexDigit_eq_false {c : Char} (hc : isHexDigit c = false) :
    escapeTail (c :: s) =
      if c = '\n' then .error ⟨.expectedEscape, .region (.next (s.length + 1))⟩ (c :: s) else .ok () s := by
  rw [escapeTail, peek_bind, List.head?_cons]
  by_cases hne : c = '\n'
  · subst hne
    rfl
  · simp [hc, hne, skip]

/-- The text goes on behind a backslash with the rest of an escape. -/
def EscapesUpTo (s rest : Text) : Prop :=
  ∃ e, (IsEscape ('\\' :: e) ∧ Closes ('\\' :: e) rest) ∧ s = e ++ rest

theorem escapeTail_digits_eq_ok {a : Unit} {c : Char} (hc : isHexDigit c) :
    escapeTail (c :: s) = .ok a rest ↔ EscapesUpTo (c :: s) rest := by
  rw [escapeTail_of_isHexDigit hc, bind_eq_ok]
  simp only [skipHexDigits_eq_ok, blankBehind_eq_ok]
  constructor
  · rintro ⟨_, s', ⟨ds, heq, hlength, hex, hrest⟩, h⟩
    have hds : IsDigits ds := by
      refine ⟨?_, hlength, hex⟩
      rintro rfl
      rw [← List.nil_append s', ← heq] at hrest
      simp [hc] at hrest
    obtain ⟨b, hb, rfl⟩ | ⟨hblank, rfl⟩ := h
    · exact ⟨ds ++ [b], ⟨.blank hds hb, closes_of_eq_none (openEscape?_blank hds hb) _⟩, by simp [heq]⟩
    · exact ⟨ds, ⟨.digits hds, hds.closes_iff.mpr ⟨hblank, hrest⟩⟩, heq⟩
  · rintro ⟨_, ⟨he, hcloses⟩, heq⟩
    cases he with
    | char hc' hne =>
      cases heq
      simp [hc] at hc'
    | digits hds =>
      obtain ⟨hblank, hrest⟩ := hds.closes_iff.mp hcloses
      exact ⟨(), _, ⟨_, heq, hds.length_le, hds.hex, hrest⟩, .inr ⟨hblank, rfl⟩⟩
    | @blank ds b hds hb =>
      have hb' : isHexDigit b = false := isHexDigit_eq_false_of_isBlank hb
      have heq' : c :: s = ds ++ b :: rest := by simp [heq]
      exact ⟨(), b :: rest, ⟨ds, heq', hds.length_le, hds.hex, fun _ => hb'⟩, .inl ⟨b, hb, rfl⟩⟩

theorem escapeTail_char_eq_ok {a : Unit} {c : Char} (hc : isHexDigit c = false) :
    escapeTail (c :: s) = .ok a rest ↔ EscapesUpTo (c :: s) rest := by
  have hdigits {ds t : Text} (hds : IsDigits ds) : c :: s ≠ ds ++ t := by
    obtain ⟨d, ds, rfl⟩ := List.exists_cons_of_ne_nil hds.ne_nil
    intro heq
    cases heq
    simp [hds.hex] at hc
  rw [escapeTail_of_isHexDigit_eq_false hc]
  constructor
  · intro h
    split at h
    · cases h
    · next hne =>
      cases h
      exact ⟨[c], ⟨.char hc hne, closes_of_eq_none (openEscape?_char hc) _⟩, rfl⟩
  · rintro ⟨_, ⟨he, -⟩, heq⟩
    cases he with
    | char hc' hne =>
      cases heq
      exact if_neg hne
    | digits hds => exact absurd heq (hdigits hds)
    | blank hds hb => exact absurd (heq.trans (List.append_assoc _ _ _)) (hdigits hds)

theorem escapeTail_eq_ok {a : Unit} : escapeTail s = .ok a rest ↔ EscapesUpTo s rest := by
  cases s with
  | nil =>
    simp only [escapeTail, peek_bind, List.head?_nil, failHere, reduceCtorEq, false_iff, EscapesUpTo,
      List.nil_eq_append_iff]
    rintro ⟨_, ⟨he, -⟩, rfl, -⟩
    simpa using he.two_le_length
  | cons c s =>
    cases hc : isHexDigit c with
    | true => exact escapeTail_digits_eq_ok hc
    | false => exact escapeTail_char_eq_ok hc

/-- **An escape is read** exactly where one stands that what follows does not go on. -/
theorem rawEscape_eq_ok : rawEscape s = .ok e rest ↔ (IsEscape e ∧ Closes e rest) ∧ s = e ++ rest := by
  refine rawText_eq_ok_of (fun e rest => IsEscape e ∧ Closes e rest) fun rest => ?_
  change (∃ a, (do expectChar '\\'; escapeTail : Scanner Unit) s = .ok a rest) ↔ _
  simp only [bind_eq_ok, expectChar_eq_ok, escapeTail_eq_ok]
  constructor
  · rintro ⟨_, _, s, rfl, e, he, rfl⟩
    exact ⟨'\\' :: e, he, rfl⟩
  · rintro ⟨e, ⟨he, hcloses⟩, rfl⟩
    cases he with
    | char hc hne => exact ⟨(), (), _, rfl, _, ⟨.char hc hne, hcloses⟩, rfl⟩
    | digits hds => exact ⟨(), (), _, rfl, _, ⟨.digits hds, hcloses⟩, rfl⟩
    | blank hds hb => exact ⟨(), (), _, rfl, _, ⟨.blank hds hb, hcloses⟩, rfl⟩

/-! ## Texts with escapes -/

/-- A text made of escapes and of units that satisfy `U`, in any order. -/
inductive Pieces (U : Text → Prop) : Text → Prop
  | nil : Pieces U []
  | escape {e t : Text} : IsEscape e → Pieces U t → Pieces U (e ++ t)
  | unit {u t : Text} : U u → Pieces U t → Pieces U (u ++ t)

/-- What units have to be like so that escapes can be told from what stands behind them: none
starts with a blank or leaves an escape open, and a digit is a unit of its own. -/
structure Separates (U : Text → Prop) : Prop where
  ne_nil {u : Text} : U u → u ≠ []
  head {u : Text} : U u → u.head?.any isBlank = false
  digit {d : Char} {u : Text} : U (d :: u) → isHexDigit d → u = []
  openEscape? {u : Text} : U u → openEscape? u = none

/-- The step takes escapes and units, and ends where there is neither. -/
structure Reads (U : Text → Prop) (step : Scanner (Option Text)) : Prop where
  separates : Separates U
  escape {s e rest : Text} : rawEscape s = .ok e rest → step s = .ok (some e) rest
  unit {u : Text} (rest : Text) : U u → step (u ++ rest) = .ok (some u) rest
  cases {s u rest : Text} : step s = .ok (some u) rest →
    rawEscape s = .ok u rest ∨ U u ∧ s = u ++ rest
  stop {s rest : Text} : step s = .ok none rest → s = rest

variable {U : Text → Prop} {step : Scanner (Option Text)}

theorem Pieces.append (ht : Pieces U t) (hu : Pieces U u) : Pieces U (t ++ u) := by
  induction ht with
  | nil => exact hu
  | escape he ht ih => simpa using ih.escape he
  | unit hv ht ih => simpa using ih.unit hv

theorem IsEscape.exists_eq_cons (h : IsEscape e) : ∃ t, e = '\\' :: t := by
  cases h <;> exact ⟨_, rfl⟩

/-- No text of pieces starts with a blank. -/
theorem Pieces.head (hU : Separates U) (h : Pieces U t) : t.head?.any isBlank = false := by
  cases h with
  | nil => rfl
  | escape he ht =>
    obtain ⟨e, rfl⟩ := he.exists_eq_cons
    rfl
  | @unit u t hu ht =>
    have hhead := hU.head hu
    obtain ⟨c, u, rfl⟩ := List.exists_cons_of_ne_nil (hU.ne_nil hu)
    exact hhead

/-- An escape that goes on in the text behind it is a longer escape in front of a shorter text. -/
theorem Pieces.exists_closed (hU : Separates U) (he : IsEscape e) (ht : Pieces U t) :
    ∃ e' t', e ++ t = e' ++ t' ∧ IsEscape e' ∧ Pieces U t' ∧ Closes e' t' := by
  have hclosed (h : openEscape? e = none) :
      ∃ e' t', e ++ t = e' ++ t' ∧ IsEscape e' ∧ Pieces U t' ∧ Closes e' t' :=
    ⟨e, t, rfl, he, ht, closes_of_eq_none h t⟩
  cases he with
  | char hc => exact hclosed (openEscape?_char hc)
  | blank hds hb => exact hclosed (openEscape?_blank hds hb)
  | @digits ds hds =>
    clear hclosed
    induction ht generalizing ds with
    | nil => exact ⟨_, [], rfl, .digits hds, .nil, hds.closes_iff.mpr ⟨rfl, fun _ => rfl⟩⟩
    | escape he ht ih =>
      refine ⟨_, _, rfl, .digits hds, .escape he ht, ?_⟩
      obtain ⟨e, rfl⟩ := he.exists_eq_cons
      exact hds.closes_iff.mpr ⟨rfl, fun _ => rfl⟩
    | @unit u t hu ht ih =>
      have hblank := (Pieces.unit hu ht).head hU
      obtain ⟨d, u, rfl⟩ := List.exists_cons_of_ne_nil (hU.ne_nil hu)
      by_cases hd : isHexDigit d ∧ ds.length < 6
      · obtain rfl := hU.digit hu hd.1
        have hds' : IsDigits (ds ++ [d]) := by
          refine ⟨by simp, by simp; omega, fun c hc => ?_⟩
          rcases List.mem_append.mp hc with hc | hc
          · exact hds.hex c hc
          · exact List.mem_singleton.mp hc ▸ hd.1
        simpa using ih hds'
      · refine ⟨_, _, rfl, .digits hds, .unit hu ht, hds.closes_iff.mpr ⟨hblank, fun hlt => ?_⟩⟩
        simpa [hlt] using hd

theorem openEscape?_append_of_eq_none (hu : openEscape? u = none) (t : Text) :
    openEscape? (u ++ t) = openEscape? t := by
  rw [openEscape?, List.foldl_append, ← openEscape?, hu, ← openEscape?]

/-- Behind an escape that is closed a reader stands where it would without the escape. -/
theorem IsEscape.openEscape?_append (he : IsEscape e) (hcloses : Closes e t) (hne : t ≠ []) :
    openEscape? (e ++ t) = openEscape? t := by
  cases he with
  | char hc => exact openEscape?_append_of_eq_none (openEscape?_char hc) t
  | blank hds hb => exact openEscape?_append_of_eq_none (openEscape?_blank hds hb) t
  | @digits ds hds =>
    obtain ⟨-, hhex⟩ := hds.closes_iff.mp hcloses
    have hpos : ds.length ≠ 0 := fun h => hds.ne_nil (List.length_eq_zero_iff.mp h)
    obtain ⟨c, t, rfl⟩ := List.exists_cons_of_ne_nil hne
    have hnext : digitsAfter (some ds.length) c = digitsAfter none c := by
      have hc : ¬ (isHexDigit c ∧ ds.length < 6) := fun ⟨hc, hlt⟩ => by simp [hc] at hhex; omega
      simp [digitsAfter, hc, hpos]
    rw [openEscape?, List.foldl_append, ← openEscape?, openEscape?_digits hds, List.foldl_cons, hnext]
    rfl

theorem closes_nil (rest : Text) : Closes [] rest := closes_of_eq_none rfl rest

theorem Closes.of_append (h : Closes (e ++ t) rest) (he : t ≠ [] → openEscape? (e ++ t) = openEscape? t) :
    Closes t rest := by
  by_cases ht : t = []
  · exact ht ▸ closes_nil rest
  · rwa [Closes, ← he ht]

theorem closes_append_iff (hne : t ≠ []) (s : Text) : Closes e (t ++ s) ↔ Closes e t := by
  obtain ⟨c, t, rfl⟩ := List.exists_cons_of_ne_nil hne
  rfl

theorem Reads.gatherAll_pieces (hr : Reads U step) (ht : Pieces U t) (hcloses : Closes t rest)
    (hstop : step rest = .ok none rest) : gatherAll step (t ++ rest) = .ok t rest := by
  -- the induction is on the length, since an escape may take digits of the pieces behind it
  induction hn : t.length using Nat.strongRecOn generalizing t with
  | ind n ih =>
    subst hn
    have hfirst {u t' : Text} (hstep : step (u ++ (t' ++ rest)) = .ok (some u) (t' ++ rest))
        (hne : u ≠ []) (heq : t = u ++ t') (ht' : Pieces U t') (hcloses' : Closes t' rest) :
        gatherAll step (t ++ rest) = .ok t rest := by
      have hlength : 0 < u.length := List.length_pos_iff.mpr hne
      subst heq
      rw [List.append_assoc, gatherAll_of_some hstep (by simp; omega)]
      exact ⟨t', ih t'.length (by simp; omega) ht' hcloses' rfl, rfl⟩
    cases ht with
    | nil => exact gatherAll_of_none hstop
    | @unit u t hu ht =>
      have hopen := openEscape?_append_of_eq_none (hr.separates.openEscape? hu) t
      exact hfirst (hr.unit _ hu) (hr.separates.ne_nil hu) rfl ht (hcloses.of_append fun _ => hopen)
    | @escape e t he ht =>
      obtain ⟨e', t', heq, he', ht', hcloses'⟩ := ht.exists_closed hr.separates he
      have hrest : Closes t' rest := by
        rw [heq] at hcloses
        exact hcloses.of_append (he'.openEscape?_append hcloses')
      have hclosed : Closes e' (t' ++ rest) := by
        by_cases hnil : t' = []
        · subst hnil
          simpa [heq] using hcloses
        · exact (closes_append_iff hnil rest).mpr hcloses'
      refine hfirst (hr.escape ?_) ?_ heq ht' hrest
      · exact rawEscape_eq_ok.mpr ⟨⟨he', hclosed⟩, rfl⟩
      · obtain ⟨e', rfl⟩ := he'.exists_eq_cons
        simp

theorem Reads.pieces (hr : Reads U step) (h : gatherAll step s = .ok t rest) :
    (Pieces U t ∧ Closes t rest) ∧ s = t ++ rest ∧ step rest = .ok none rest := by
  refine gatherAll_induction (motive := fun s out rest =>
    (Pieces U out ∧ Closes out rest) ∧ s = out ++ rest ∧ step rest = .ok none rest) ?_ ?_ ?_ h
  · intro s rest hstep
    obtain rfl := hr.stop hstep
    exact ⟨⟨.nil, closes_nil s⟩, rfl, hstep⟩
  · intro s u rest hstep hlt
    exfalso
    rcases hr.cases hstep with hescape | ⟨hu, rfl⟩
    · obtain ⟨⟨he, -⟩, rfl⟩ := rawEscape_eq_ok.mp hescape
      obtain ⟨e, rfl⟩ := he.exists_eq_cons
      rw [List.length_append, List.length_cons] at hlt
      omega
    · exact hr.separates.ne_nil hu (by simpa using hlt)
  · rintro s u _ more rest hstep - - ⟨⟨hmore, hcloses⟩, rfl, hstop⟩
    rcases hr.cases hstep with hescape | ⟨hu, rfl⟩
    · obtain ⟨⟨he, hclosed⟩, rfl⟩ := rawEscape_eq_ok.mp hescape
      refine ⟨⟨.escape he hmore, ?_⟩, by simp, hstop⟩
      by_cases hnil : more = []
      · subst hnil
        simpa using hclosed
      · rwa [Closes, he.openEscape?_append ((closes_append_iff hnil rest).mp hclosed) hnil]
    · refine ⟨⟨.unit hu hmore, ?_⟩, by simp, hstop⟩
      rwa [Closes, openEscape?_append_of_eq_none (hr.separates.openEscape? hu)]

/-- **What is gathered is pieces**, up to the first place where neither an escape nor a unit follows. -/
theorem Reads.gatherAll_eq_ok (hr : Reads U step) :
    gatherAll step s = .ok t rest ↔
      (Pieces U t ∧ Closes t rest) ∧ s = t ++ rest ∧ step rest = .ok none rest := by
  constructor
  · exact hr.pieces
  · rintro ⟨⟨ht, hcloses⟩, rfl, hstop⟩
    exact hr.gatherAll_pieces ht hcloses hstop

end NestedCss.Scanner
