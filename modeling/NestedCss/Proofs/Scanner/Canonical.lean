import NestedCss.Proofs.Scanner.StatementText
import NestedCss.Proofs.Source.Tokens

/-!
# The text of a statement is canonical

Once comments are blanks, the text of a statement is scanned as it stands. A blank starts nothing and goes
on with nothing, so what stood in front of a comment means the same in front of the blank.

* `Scanner.IsPieces`: the pieces of a text in a row, each as it is written and what it stands for;
* `Scanner.Weakens`: what may come behind a piece once comments are blanks;
* `Scanner.IsPieces.resume`: what the pieces stand for falls into the same pieces;
* **`Scanner.statementText_canonical`**: so the text is scanned as itself, up to its end.
-/

namespace NestedCss.Scanner

variable {s rest t raw input : Text} {closers closers' : List Char} {next next' : Option Char}
  {pieces : List (Text × Text)} {c : Char}

/-! ## Pieces in a row -/

/-- The pieces of the text of a statement, or of the rest of one with `closers` still to come: how each is
written, the last one in front of `rest`, and what it stands for. -/
inductive IsPieces (rest : Text) : List Char → List (Text × Text) → Prop
  | nil : IsPieces rest [] []
  | cons {closers closers' : List Char} {raw t : Text} {pieces : List (Text × Text)} :
      IsPiece closers (pieces.flatMap Prod.fst ++ rest).head? raw t closers' →
        IsPieces rest closers' pieces → IsPieces rest closers ((raw, t) :: pieces)

theorem IsStatementText.exists_pieces (h : IsStatementText rest closers raw t) :
    ∃ pieces, IsPieces rest closers pieces ∧ raw = pieces.flatMap Prod.fst ∧
      t = pieces.flatMap Prod.snd := by
  induction h with
  | nil => exact ⟨[], .nil, rfl, rfl⟩
  | piece hpiece _ ih =>
    obtain ⟨pieces, hpieces, rfl, rfl⟩ := ih
    exact ⟨_, .cons hpiece hpieces, rfl, rfl⟩

theorem IsPieces.isStatementText (h : IsPieces rest closers pieces) :
    IsStatementText rest closers (pieces.flatMap Prod.fst) (pieces.flatMap Prod.snd) := by
  induction h with
  | nil => exact .nil
  | cons hpiece _ ih => exact .piece hpiece ih

/-! ## Blanks for comments -/

/-- A piece stands for itself, unless it is a comment. -/
theorem IsPiece.eq_or (h : IsPiece closers next raw t closers') : t = raw ∨ t = [' '] := by
  cases h with
  | string | interpolation | escaped | backslash | single => exact .inl rfl
  | loud | silent => exact .inr rfl

/-- What comes behind a piece is the same as before, or nothing any more, or a blank for a comment. -/
def Weakens (next next' : Option Char) : Prop :=
  next' = none ∨ next' = next ∨ next ≠ none ∧ next' = some ' '

theorem Weakens.ne (h : Weakens next next') (hc : c ≠ ' ') (hnext : next ≠ some c) : next' ≠ some c := by
  obtain rfl | rfl | ⟨-, rfl⟩ := h
  · simp
  · exact hnext
  · simpa using hc.symm

theorem IsPieces.weakens (h : IsPieces rest closers pieces) :
    Weakens (pieces.flatMap Prod.fst ++ rest).head? (pieces.flatMap Prod.snd).head? := by
  cases h with
  | nil => exact .inl rfl
  | @cons _ _ raw t pieces hpiece _ =>
    obtain ⟨c, raw, rfl⟩ := List.exists_cons_of_ne_nil hpiece.ne_nil
    obtain rfl | rfl := hpiece.eq_or
    · exact .inr (.inl rfl)
    · exact .inr (.inr ⟨by simp, rfl⟩)

/-- All brackets that have to come are closing ones. -/
def AreClosing (closers : List Char) : Prop := ∀ c ∈ closers, isClosing c

theorem isClosing_opposite (h : isOpening c) : isClosing (opposite c) := by
  obtain (rfl | rfl) | rfl : (c = '(' ∨ c = '[') ∨ c = '{' := by simpa [isOpening] using h
  all_goals rfl

theorem IsPiece.areClosing (h : IsPiece closers next raw t closers') (hclosers : AreClosing closers) :
    AreClosing closers' := by
  cases h with
  | string | loud | silent | interpolation | escaped | backslash => exact hclosers
  | single =>
    unfold closersAfter
    split
    · next hopening => exact List.forall_mem_cons.mpr ⟨isClosing_opposite hopening, hclosers⟩
    · split
      · exact fun c hc => hclosers c (List.mem_of_mem_tail hc)
      · exact hclosers

/-- A blank is a piece of its own, within brackets as well. -/
theorem isPiece_space (hclosers : AreClosing closers) (next : Option Char) :
    IsPiece closers next [' '] [' '] closers := by
  -- it is no bracket, so none that could be due
  have hdue : closers.head? ≠ some ' ' := fun h =>
    absurd (hclosers ' ' (List.mem_of_mem_head? h)) (by decide)
  have hafter : closersAfter closers ' ' = closers := by
    rw [closersAfter, if_neg (by decide), if_neg hdue]
  have hsingle : IsSingle closers next ' ' := ⟨fun _ => rfl, rfl, by decide, by simp, by simp, by simp⟩
  simpa only [hafter] using IsPiece.single hsingle

/-- What a piece stands for is a piece with the same brackets. -/
theorem IsPiece.resume (h : IsPiece closers next raw t closers') (hclosers : AreClosing closers)
    (hnext : Weakens next next') : IsPiece closers next' t t closers' := by
  cases h with
  | string hraw => exact .string hraw
  | loud | silent => exact isPiece_space hclosers next'
  | interpolation hraw => exact .interpolation hraw
  | escaped c => exact .escaped c
  | backslash hnone =>
    subst hnone
    obtain rfl | rfl | ⟨hsome, -⟩ := hnext
    · exact .backslash rfl
    · exact .backslash rfl
    · exact absurd rfl hsome
  | single hsingle =>
    exact .single { hsingle with
      loud := fun hc => hnext.ne (by decide) (hsingle.loud hc)
      silent := fun hc hnil => hnext.ne (by decide) (hsingle.silent hc hnil)
      interpolation := fun hc => hnext.ne (by decide) (hsingle.interpolation hc) }

/-- **What the pieces stand for falls into the same pieces.** -/
theorem IsPieces.resume (h : IsPieces rest closers pieces) (hclosers : AreClosing closers) :
    IsPieces [] closers (pieces.map fun piece => (piece.2, piece.2)) := by
  induction h with
  | nil => exact .nil
  | @cons _ _ _ _ pieces hpiece hpieces ih =>
    have hnext := hpieces.weakens
    refine .cons ?_ (ih (hpiece.areClosing hclosers))
    -- behind the piece now comes what the other pieces stand for, and nothing behind that
    rw [List.flatMap_map, List.append_nil]
    exact hpiece.resume hclosers hnext

/-! ## Scanning the text again -/

theorem IsPieces.mem_written (h : IsPieces rest closers pieces) (hc : c ∈ pieces.flatMap Prod.snd) :
    c ∈ pieces.flatMap Prod.fst ∨ c = ' ' := by
  induction h with
  | nil => cases hc
  | cons hpiece _ ih =>
    rw [List.flatMap_cons] at hc ⊢
    rcases List.mem_append.mp hc with hc | hc
    · obtain rfl | rfl := hpiece.eq_or
      · exact .inl (List.mem_append_left _ hc)
      · exact .inr (List.mem_singleton.mp hc)
    · exact (ih hc).imp_left (List.mem_append_right _)

/-- **The text of a statement is canonical.** As a text of its own it is scanned as itself, up to its end,
and falls into the same pieces, with a blank for every comment. -/
theorem statementText_canonical (hs : s <:+ (Source.ofText input).chars)
    (h : statementText s = .ok t rest) :
    statementText (Source.ofText t).chars = .ok t [] ∧
      ∃ pieces, s = pieces.flatMap Prod.fst ++ rest ∧ t = pieces.flatMap Prod.snd ∧
        IsPieces rest [] pieces ∧ IsPieces [] [] (pieces.map fun piece => (piece.2, piece.2)) := by
  obtain ⟨-, raw, hraw, rfl⟩ := statementText_iff.mp h
  obtain ⟨pieces, hpieces, rfl, rfl⟩ := hraw.exists_pieces
  have hresume := hpieces.resume (List.forall_mem_nil _)
  have hplain : Source.HasPlainLines (pieces.flatMap Prod.snd) := by
    intro c hc
    rcases hpieces.mem_written hc with hc | rfl
    · exact Source.hasPlainLines_chars input c (hs.subset (List.mem_append_left rest hc))
    · decide
  refine ⟨?_, pieces, rfl, rfl, hpieces, hresume⟩
  rw [Source.chars_ofText hplain, statementText_iff]
  refine ⟨.inl rfl, pieces.flatMap Prod.snd, ?_, (List.append_nil _).symm⟩
  simpa [List.flatMap_map] using hresume.isStatementText

/-- The text of `a/**//(b]/*)*/// c)/*;*/#{"}"}//d`, in front of a block on the next line. -/
theorem statementText_canonical_comments :
    statementText (Source.ofText "a /(b] // c) #\x7b\"\x7d\"\x7d \n".toList).chars =
      .ok "a /(b] // c) #\x7b\"\x7d\"\x7d \n".toList [] := by
  have hscan : statementText
      (Source.ofText "a/**//(b]/*)*/// c)/*;*/#\x7b\"\x7d\"\x7d//d\n\x7b".toList).chars =
      .ok "a /(b] // c) #\x7b\"\x7d\"\x7d \n".toList ['{'] := by
    with_unfolding_all rfl
  exact (statementText_canonical (List.suffix_refl _) hscan).1

end NestedCss.Scanner
