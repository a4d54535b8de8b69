import NestedCss.Proofs.Scanner.Lexeme
import NestedCss.Stylesheet.StatementText

/-!
# Scanners only consume

A scanner that gives a value leaves an end of the text that it was given.

* `Scanner.Consumes`, with one lemma for each way to put scanners together;
* one lemma for each scanner of lexemes and of the text of statements;
* **`Scanner.statementText_eq_ok`**: the text of a statement is what the source has there, unless there
  is a comment.
-/

namespace NestedCss.Scanner

variable {α β γ σ : Type} {s s' rest : Text}

/-- One more piece of an identifier. -/
def nameStep : Scanner (Option Text) := do
  match ← peek with
  | none => return none
  | some c =>
    if c == '\\' then
      return some (← rawEscape)
    else if isNameChar c then
      skip
      return some [c]
    else
      return none

/-- What a scanner leaves is an end of the text. -/
def Consumes (x : Scanner α) : Prop := ∀ ⦃s : Text⦄ ⦃a : α⦄ ⦃rest : Text⦄, x s = .ok a rest → rest <:+ s

namespace Consumes

variable {x y : Scanner α} {f : α → Scanner β}

/-! ## Putting scanners together -/

protected theorem pure (a : α) : Consumes (pure a : Scanner α) := by
  intro s b rest h
  cases h
  exact List.suffix_refl s

theorem bind (hx : Consumes x) (hf : ∀ a, Consumes (f a)) : Consumes (x >>= f) := by
  intro s b rest h
  obtain ⟨a, s', ha, hb⟩ := bind_eq_ok.mp h
  exact (hf a hb).trans (hx ha)

theorem ite {p : Prop} [Decidable p] (hx : Consumes x) (hy : Consumes y) :
    Consumes (if p then x else y) := by
  split
  · exact hx
  · exact hy

protected theorem discard (hx : Consumes x) : Consumes (discard x) := by
  intro s u rest h
  obtain ⟨a, ha⟩ := discard_eq_ok.mp h
  exact hx ha

theorem failHere (fault : Fault) : Consumes (failHere fault : Scanner α) := fun _ _ _ h => by cases h

theorem failAt (fault : Fault) (r : Region) : Consumes (failAt fault r : Scanner α) :=
  fun _ _ _ h => by cases h

theorem rawText (hx : Consumes x) : Consumes (rawText x) := by
  intro s raw rest h
  obtain ⟨a, ha, -⟩ := rawText_eq_ok.mp h
  exact hx ha

theorem gather {step : σ → Scanner (Option (List γ × σ))} (hstep : ∀ state, Consumes (step state))
    (state : σ) : Consumes (gather step state) := by
  intro s out rest h
  fun_induction Scanner.gather step state s generalizing out rest with
  | case1 => cases h
  | case2 state s rest' hnone =>
    cases h
    exact hstep _ hnone
  | case3 => cases h
  | case4 state s piece state' rest' hpiece _ more last rest'' hmore ih =>
    cases h
    exact (ih hmore).trans (hstep _ hpiece)
  | case5 state s piece state' rest' hpiece =>
    cases h
    exact hstep _ hpiece

theorem gatherAll {step : Scanner (Option (List γ))} (hstep : Consumes step) :
    Consumes (gatherAll step) :=
  bind (gather (fun _ => bind hstep fun _ => .pure _) ()) fun _ => .pure _

/-! ## Single characters -/

theorem of_apply {g : Text → α} (h : ∀ s, x s = .ok (g s) s) : Consumes x := by
  intro s a rest hx
  cases (h s).symm.trans hx
  exact List.suffix_refl s

theorem peek : Consumes peek := of_apply fun _ => rfl

theorem mark : Consumes mark := of_apply fun _ => rfl

theorem regionFrom (start : Nat) : Consumes (regionFrom start) := of_apply fun _ => rfl

theorem lookingAt (t : Text) : Consumes (lookingAt t) := of_apply fun _ => rfl

theorem nextIs (c : Char) : Consumes (nextIs c) := of_apply fun _ => rfl

theorem atInterpolation : Consumes atInterpolation := of_apply atInterpolation_apply

theorem skip : Consumes skip := by
  intro s a rest h
  cases h
  exact List.tail_suffix s

theorem skipWhile (p : Char → Bool) : Consumes (skipWhile p) := by
  intro s a rest h
  cases h
  exact List.dropWhile_suffix p

theorem scan (t : Text) : Consumes (scan t) := by
  intro s a rest h
  unfold Scanner.scan at h
  split at h
  · cases h
    exact List.drop_suffix _ s
  · cases h
    exact List.suffix_refl s

theorem scanChar (c : Char) : Consumes (scanChar c) := by
  intro s a rest h
  obtain ⟨-, rfl⟩ | ⟨-, -, rfl⟩ := scanChar_eq_ok.mp h
  · exact List.suffix_cons c rest
  · exact List.suffix_refl s

theorem expectChar (c : Char) : Consumes (expectChar c) := by
  intro s a rest h
  rw [expectChar_eq_ok.mp h]
  exact List.suffix_cons c rest

/-! ## Lexemes -/

theorem blanks : Consumes blanks := skipWhile isBlank

theorem silentComment : Consumes silentComment := skipWhile _

theorem loudComment : Consumes loudComment :=
  skip.bind fun _ => skip.bind fun _ _ _ _ h => loudCommentRest_suffix h

theorem trivia : Consumes trivia := fun _ _ _ h => (trivia_eq_ok h).2

theorem skipHexDigits (n : Nat) : Consumes (skipHexDigits n) := by
  intro s a rest h
  fun_induction Scanner.skipHexDigits n s with
  | case1 => cases h; exact List.suffix_refl _
  | case2 => cases h; exact List.suffix_refl _
  | case3 n c s _ ih => exact (ih h).trans (List.suffix_cons c s)
  | case4 => cases h; exact List.suffix_refl _

theorem rawEscape : Consumes rawEscape := by
  refine rawText ((expectChar '\\').bind fun _ => peek.bind fun c => ?_)
  split
  · exact failHere _
  · exact failHere _
  · refine ite ((skipHexDigits 6).bind fun _ => peek.bind fun d => ite skip (.pure _)) skip

theorem nameStep : Consumes nameStep := by
  refine peek.bind fun c => ?_
  split
  · exact .pure _
  · exact ite (rawEscape.bind fun _ => .pure _) (ite (skip.bind fun _ => .pure _) (.pure _))

theorem identifier : Consumes identifier := by
  have htail (hyphens : Text) : Consumes (do return hyphens ++ (← Scanner.gatherAll Scanner.nameStep)) :=
    (gatherAll nameStep).bind fun _ => .pure _
  refine (rawText (skipWhile _)).bind fun hyphens => peek.bind fun c => ?_
  dsimp only
  split
  · exact ite (ite (.pure _) ((failHere _).bind fun _ => htail hyphens)) (htail hyphens)
  · exact ite (.pure _) ((failHere _).bind fun _ => htail hyphens)

theorem balanced {opening closing : Char} (h : IsBrackets opening closing) :
    Consumes (balanced opening closing) := by
  intro s a rest hok
  rw [(balanced_eq_ok h).mp hok |>.2]
  exact ⟨a ++ [closing], by simp⟩

theorem separator : Consumes separator := by
  refine blanks.bind fun _ => peek.bind fun c => ?_
  split
  · exact .pure _
  · exact .pure _
  · exact expectChar ';'

end Consumes

/-! ## The text of a statement -/

/-- Whether a text holds a comment or what looks like one. -/
def HasComment (t : Text) : Prop := "/*".toList <:+: t ∨ "//".toList <:+: t

theorem HasComment.mono {t u : Text} (h : HasComment t) (htu : t <:+: u) : HasComment u :=
  h.imp (·.trans htu) (·.trans htu)

theorem exists_of_loudComment {a : Unit} (hs : "/*".toList.isPrefixOf s)
    (h : loudComment s = .ok a rest) : ∃ raw, s = raw ++ rest ∧ HasComment raw := by
  obtain ⟨t, rfl⟩ := List.isPrefixOf_iff_prefix.mp hs
  obtain ⟨raw, rfl⟩ := loudCommentRest_suffix (s := t) h
  exact ⟨"/*".toList ++ raw, by simp, .inl (List.prefix_append _ _).isInfix⟩

theorem exists_of_silentComment {a : Unit} (hs : "//".toList.isPrefixOf s)
    (h : silentComment s = .ok a rest) : ∃ raw, s = raw ++ rest ∧ HasComment raw := by
  obtain ⟨t, rfl⟩ := List.isPrefixOf_iff_prefix.mp hs
  cases h
  refine ⟨"//".toList ++ t.takeWhile (· != '\n'), ?_, .inr (List.prefix_append _ _).isInfix⟩
  rw [List.append_assoc]
  exact congrArg ("//".toList ++ ·) (List.takeWhile_append_dropWhile (p := (· != '\n'))).symm

/-- The text that a piece stands for. -/
def pieceText (out : Option (Text × List Char)) : Text := (out.map Prod.fst).getD []

theorem statementPiece_eq_ok {closers : List Char} {out : Option (Text × List Char)}
    (h : statementPiece closers s = .ok out rest) :
    ∃ raw, s = raw ++ rest ∧ (HasComment raw ∨ pieceText out = raw) := by
  unfold statementPiece at h
  rw [peek_bind] at h
  cases s with
  | nil =>
    cases h
    exact ⟨[], rfl, .inr rfl⟩
  | cons c s =>
    dsimp only [List.head?_cons] at h
    split at h
    · cases h
      exact ⟨[], rfl, .inr rfl⟩
    split at h
    · obtain ⟨raw, hraw, rfl⟩ := bind_pure_eq_ok.mp h
      exact ⟨raw, (quotedText_eq_ok.mp hraw).2, .inr rfl⟩
    obtain ⟨_, _, hloud, h⟩ := bind_eq_ok.mp h
    cases hloud
    split at h
    · next hloud =>
      obtain ⟨_, _, hcomment, hpure⟩ := bind_eq_ok.mp h
      cases hpure
      obtain ⟨raw, hraw, hcomment⟩ := exists_of_loudComment hloud hcomment
      exact ⟨raw, hraw, .inl hcomment⟩
    obtain ⟨_, _, hsilent, h⟩ := bind_eq_ok.mp h
    cases hsilent
    split at h
    · next hsilent =>
      obtain ⟨_, _, hcomment, hpure⟩ := bind_eq_ok.mp h
      cases hpure
      rw [Bool.and_eq_true] at hsilent
      obtain ⟨raw, hraw, hcomment⟩ := exists_of_silentComment hsilent.2 hcomment
      exact ⟨raw, hraw, .inl hcomment⟩
    obtain ⟨_, _, hstarts, h⟩ := bind_eq_ok.mp h
    rw [atInterpolation_apply] at hstarts
    cases hstarts
    split at h
    · next hstarts =>
      obtain ⟨raw, hraw, rfl⟩ := bind_pure_eq_ok.mp h
      exact ⟨raw, ((rawInterpolation_eq_ok hstarts).mp hraw).2, .inr rfl⟩
    rw [skip_bind] at h
    split at h
    · rw [peek_bind] at h
      obtain ⟨_, _, hskip, hpure⟩ := bind_eq_ok.mp h
      cases hskip
      cases hpure
      refine ⟨c :: s.head?.toList, ?_, .inr rfl⟩
      cases s <;> rfl
    · have hone : pieceText out = [c] ∧ s = rest := by
        split at h
        · cases h; exact ⟨rfl, rfl⟩
        · split at h <;> (cases h; exact ⟨rfl, rfl⟩)
      exact ⟨[c], by rw [hone.2]; rfl, .inr hone.1⟩

theorem exists_of_gather_statementPiece {closers last : List Char} {t : Text}
    (h : gather statementPiece closers s = .ok (t, last) rest) :
    ∃ raw, s = raw ++ rest ∧ (HasComment raw ∨ t = raw) := by
  fun_induction gather statementPiece closers s generalizing t last rest with
  | case1 => cases h
  | case2 closers s rest' hnone =>
    cases h
    exact statementPiece_eq_ok hnone
  | case3 => cases h
  | case4 closers s piece closers' s' hpiece _ more last' rest' hmore ih =>
    cases h
    obtain ⟨a, rfl, ha⟩ := statementPiece_eq_ok hpiece
    obtain ⟨b, rfl, hb⟩ := ih hmore
    refine ⟨a ++ b, (List.append_assoc a b _).symm, ?_⟩
    rcases ha with ha | rfl
    · exact .inl (ha.mono (List.prefix_append a b).isInfix)
    · exact hb.imp (·.mono (List.suffix_append _ b).isInfix) (congrArg (piece ++ ·))
  | case5 closers s piece closers' s' hpiece =>
    cases h
    exact statementPiece_eq_ok hpiece

/-- **The text of a statement is what the source has there**, unless that holds a comment. -/
theorem statementText_eq_ok {t : Text} (h : statementText s = .ok t rest) :
    ∃ raw, s = raw ++ rest ∧ (HasComment raw ∨ t = raw) := by
  obtain ⟨⟨t', closers⟩, s', hgather, h⟩ := bind_eq_ok.mp h
  cases closers with
  | nil =>
    cases h
    exact exists_of_gather_statementPiece hgather
  | cons => cases h

theorem Consumes.statementText : Consumes statementText := by
  intro s t rest h
  obtain ⟨raw, rfl, -⟩ := statementText_eq_ok h
  exact List.suffix_append raw rest

end NestedCss.Scanner
