import NestedCss.Proofs.Scanner.Run
import NestedCss.Scanner.Lexeme

/-!
# Strings, brackets and interpolation

What the scanners of lexemes accept, each told by the texts that it takes from the front and where
it leaves off.

* `Scanner.StringBody`, `Scanner.IsString`, `Scanner.quotedText_eq_ok`: strings;
* **`Scanner.balanced_eq_ok`**: `Scanner.Balanced` is what stands between two brackets;
* `Scanner.IsInterpolation`, `Scanner.rawInterpolation_eq_ok`: interpolation;
* `Scanner.isSolid`, `Scanner.trivia_eq_ok`: white space and comments.
-/

namespace NestedCss.Scanner

variable {s s' rest t u raw contents : Text}

/-! ## Strings -/

/-- What may stand between two `quote`s. -/
inductive StringBody (quote : Char) : Text → Prop
  | nil : StringBody quote []
  | escaped (c : Char) {t : Text} : StringBody quote t → StringBody quote ('\\' :: c :: t)
  | char {c : Char} {t : Text} : c ≠ '\\' → c ≠ quote → c ≠ '\n' → StringBody quote t →
      StringBody quote (c :: t)

/-- A string with its quotes. -/
inductive IsString : Text → Prop
  | mk {quote : Char} {contents : Text} : isQuote quote → StringBody quote contents →
      IsString (quote :: contents ++ [quote])

theorem ne_backslash_of_isQuote {q : Char} (h : isQuote q) : q ≠ '\\' := by
  rintro rfl
  revert h
  decide

theorem stringRest_eq_ok {q : Char} (hq : q ≠ '\\') :
    stringRest q s = .ok contents rest ↔ StringBody q contents ∧ s = contents ++ q :: rest := by
  constructor
  · intro h
    fun_induction stringRest q s generalizing contents with
    | case1 => cases h
    | case2 => cases h
    | case3 c t body t' hbody ih =>
      cases h
      obtain ⟨hcontents, rfl⟩ := ih hbody
      exact ⟨.escaped c hcontents, rfl⟩
    | case4 => cases h
    | case5 t =>
      cases h
      exact ⟨.nil, rfl⟩
    | case6 => cases h
    | case7 c t hnil hcons hne hnl body t' hbody ih =>
      cases h
      have hc : c ≠ '\\' := fun hc => by
        cases t with
        | nil => exact hnil hc rfl
        | cons d t => exact hcons d t hc rfl
      obtain ⟨hcontents, rfl⟩ := ih hbody
      exact ⟨.char hc hne hnl hcontents, rfl⟩
    | case8 => cases h
  · rintro ⟨hbody, rfl⟩
    induction hbody with
    | nil => simp [stringRest, hq]
    | escaped c hbody ih => simp [stringRest, ih]
    | char hc hne hnl hbody ih => simp [stringRest, *]

theorem stringContents_eq_ok :
    stringContents s = .ok contents rest ↔
      ∃ q, isQuote q ∧ StringBody q contents ∧ s = q :: contents ++ q :: rest := by
  cases s with
  | nil => simp [stringContents, bind_apply, peek, skip, failHere]
  | cons q s =>
    simp only [stringContents, bind_apply, peek, skip, List.head?_cons, List.tail_cons]
    split
    · next hq =>
      rw [stringRest_eq_ok (ne_backslash_of_isQuote hq)]
      constructor
      · rintro ⟨hbody, rfl⟩
        exact ⟨q, hq, hbody, rfl⟩
      · rintro ⟨q, -, hbody, heq⟩
        cases heq
        exact ⟨hbody, rfl⟩
    · next hq =>
      simp only [failHere, reduceCtorEq, false_iff]
      rintro ⟨q', hq', -, heq⟩
      cases heq
      exact hq hq'

/-- A string is read exactly where one stands. -/
theorem quotedText_eq_ok : quotedText s = .ok raw rest ↔ IsString raw ∧ s = raw ++ rest := by
  refine rawText_eq_ok_of (fun raw _ => IsString raw) fun rest => ?_
  constructor
  · rintro ⟨contents, hcontents⟩
    obtain ⟨q, hq, hbody, rfl⟩ := stringContents_eq_ok.mp hcontents
    exact ⟨q :: contents ++ [q], .mk hq hbody, by simp⟩
  · rintro ⟨_, ⟨hq, hbody⟩, rfl⟩
    exact ⟨_, stringContents_eq_ok.mpr ⟨_, hq, hbody, by simp⟩⟩

/-! ## Brackets -/

/-- The text may stand up to a bracket that closes the last of `depth + 1` open ones: of the brackets
in it `depth` close one that was open before. -/
inductive Balanced (opening closing : Char) : Nat → Text → Prop
  | nil : Balanced opening closing 0 []
  | string {depth : Nat} {raw t : Text} : IsString raw → Balanced opening closing depth t →
      Balanced opening closing depth (raw ++ t)
  | opening {depth : Nat} {t : Text} : Balanced opening closing (depth + 1) t →
      Balanced opening closing depth (opening :: t)
  | closing {depth : Nat} {t : Text} : Balanced opening closing depth t →
      Balanced opening closing (depth + 1) (closing :: t)
  | char {depth : Nat} {c : Char} {t : Text} : isQuote c = false → c ≠ opening → c ≠ closing →
      Balanced opening closing depth t → Balanced opening closing depth (c :: t)

/-- Two brackets that neither a quote nor each other can be mistaken for. -/
structure IsBrackets (opening closing : Char) : Prop where
  ne : opening ≠ closing
  opening : isQuote opening = false
  closing : isQuote closing = false

theorem isBrackets_parens : IsBrackets '(' ')' := ⟨by decide, by decide, by decide⟩

theorem isBrackets_braces : IsBrackets '{' '}' := ⟨by decide, by decide, by decide⟩

variable {o c : Char}

theorem IsString.exists_eq_cons (h : IsString raw) : ∃ q body, raw = q :: body ∧ isQuote q := by
  obtain ⟨hq, -⟩ := h
  exact ⟨_, _, rfl, hq⟩

theorem balanced_step_cons (d : Nat) (x : Char) (s : Text) :
    balanced.step o c (d + 1) (x :: s) =
      if isQuote x then
        match quotedText (x :: s) with
        | .ok raw rest => .ok (some (raw, d + 1)) rest
        | .error e rest => .error e rest
      else if x = o then .ok (some ([x], d + 2)) s
      else if x = c then .ok (some (if d = 0 then [] else [x], d)) s
      else .ok (some ([x], d + 1)) s := by
  simp only [balanced.step, bind_apply, peek, List.head?_cons, beq_iff_eq]
  split
  · rw [bind_apply]
    cases quotedText (x :: s) <;> rfl
  · rw [bind_apply, skip]
    dsimp only
    split
    · rfl
    · split <;> rfl

/-- One step inside of brackets takes a string, a bracket or any other character. -/
theorem balanced_step_eq_ok {d : Nat} {out : Option (Text × Nat)}
    (h : balanced.step o c (d + 1) s = .ok out rest) :
    (∃ raw, IsString raw ∧ s = raw ++ rest ∧ out = some (raw, d + 1)) ∨
      (s = o :: rest ∧ out = some ([o], d + 2)) ∨
      (s = c :: rest ∧ out = some (if d = 0 then [] else [c], d)) ∨
      ∃ x, isQuote x = false ∧ x ≠ o ∧ x ≠ c ∧ s = x :: rest ∧ out = some ([x], d + 1) := by
  cases s with
  | nil => cases h
  | cons x s =>
    rw [balanced_step_cons] at h
    split at h
    · split at h
      · next hraw =>
        cases h
        obtain ⟨hstring, heq⟩ := quotedText_eq_ok.mp hraw
        exact .inl ⟨_, hstring, heq, rfl⟩
      · cases h
    · next hx =>
      refine .inr ?_
      split at h
      · next ho =>
        cases h
        exact .inl ⟨by rw [ho], by rw [ho]⟩
      · next ho =>
        refine .inr ?_
        split at h
        · next hc =>
          cases h
          exact .inl ⟨by rw [hc], by rw [hc]⟩
        · next hc =>
          cases h
          exact .inr ⟨x, by simpa using hx, ho, hc, rfl, rfl⟩

theorem balanced_of_gather {d last : Nat} (h : gather (balanced.step o c) (d + 1) s = .ok (t, last) rest) :
    Balanced o c d t ∧ s = t ++ c :: rest := by
  generalize hstate : d + 1 = state at h
  fun_induction gather (balanced.step o c) state s generalizing d t last rest with
  | case1 => cases h
  | case2 state s rest' hstep =>
    subst hstate
    obtain ⟨_, _, _, h⟩ | ⟨_, h⟩ | ⟨_, h⟩ | ⟨_, _, _, _, _, h⟩ := balanced_step_eq_ok hstep <;> cases h
  | case3 => cases h
  | case4 state s piece state' rest' hstep _ more last' rest'' hmore ih =>
    subst hstate
    cases h
    obtain ⟨raw, hraw, rfl, hout⟩ | ⟨rfl, hout⟩ | ⟨rfl, hout⟩ | ⟨x, hx, ho, hc, rfl, hout⟩ :=
      balanced_step_eq_ok hstep
    · cases hout
      obtain ⟨hbody, rfl⟩ := ih rfl hmore
      exact ⟨.string hraw hbody, by simp⟩
    · cases hout
      obtain ⟨hbody, rfl⟩ := ih rfl hmore
      exact ⟨.opening hbody, rfl⟩
    · cases hout
      cases state' with
      | zero =>
        rw [gather] at hmore
        cases hmore
        exact ⟨.nil, rfl⟩
      | succ d =>
        obtain ⟨hbody, rfl⟩ := ih rfl hmore
        exact ⟨.closing hbody, rfl⟩
    · cases hout
      obtain ⟨hbody, rfl⟩ := ih rfl hmore
      exact ⟨.char hx ho hc hbody, rfl⟩
  | case5 state s piece state' rest' hstep hlt =>
    subst hstate
    obtain ⟨raw, hraw, rfl, -⟩ | ⟨rfl, -⟩ | ⟨rfl, -⟩ | ⟨x, -, -, -, rfl, -⟩ := balanced_step_eq_ok hstep
    · obtain ⟨q, body, rfl, -⟩ := hraw.exists_eq_cons
      rw [List.length_append, List.length_cons] at hlt
      omega
    all_goals simp at hlt

theorem gather_balanced {d : Nat} (hbr : IsBrackets o c) (h : Balanced o c d t) (rest : Text) :
    gather (balanced.step o c) (d + 1) (t ++ c :: rest) = .ok (t, 0) rest := by
  induction h with
  | nil =>
    have hstep : balanced.step o c 1 (c :: rest) = .ok (some ([], 0)) rest := by
      simp [balanced_step_cons, hbr.closing, hbr.ne.symm]
    exact gather_of_some hstep (by simp) (by rw [gather]; rfl)
  | @string d raw t hraw ht ih =>
    obtain ⟨q, body, rfl, hq⟩ := hraw.exists_eq_cons
    have hstep : balanced.step o c (d + 1) (q :: body ++ (t ++ c :: rest)) =
        .ok (some (q :: body, d + 1)) (t ++ c :: rest) := by
      rw [List.cons_append, balanced_step_cons, if_pos hq, ← List.cons_append,
        quotedText_eq_ok.mpr ⟨hraw, rfl⟩]
    rw [List.append_assoc]
    refine gather_of_some hstep ?_ ih
    simp only [List.length_append, List.length_cons]
    omega
  | @opening d t ht ih =>
    have hstep : balanced.step o c (d + 1) (o :: (t ++ c :: rest)) =
        .ok (some ([o], d + 2)) (t ++ c :: rest) := by
      simp [balanced_step_cons, hbr.opening]
    exact gather_of_some hstep (by simp) ih
  | @closing d t ht ih =>
    have hstep : balanced.step o c (d + 2) (c :: (t ++ c :: rest)) =
        .ok (some ([c], d + 1)) (t ++ c :: rest) := by
      simp [balanced_step_cons, hbr.closing, hbr.ne.symm]
    exact gather_of_some hstep (by simp) ih
  | @char d x t hx ho hc ht ih =>
    have hstep : balanced.step o c (d + 1) (x :: (t ++ c :: rest)) =
        .ok (some ([x], d + 1)) (t ++ c :: rest) := by
      simp [balanced_step_cons, hx, ho, hc]
    exact gather_of_some hstep (by simp) ih

/-- **What is read up to a closing bracket** is what balances, with strings taken as a whole. -/
theorem balanced_eq_ok (hbr : IsBrackets o c) :
    balanced o c s = .ok t rest ↔ Balanced o c 0 t ∧ s = t ++ c :: rest := by
  rw [balanced, bind_eq_ok]
  constructor
  · rintro ⟨⟨contents, last⟩, s', h, hpure⟩
    cases hpure
    exact balanced_of_gather h
  · rintro ⟨ht, rfl⟩
    exact ⟨_, _, gather_balanced hbr ht rest, rfl⟩

/-! ## Interpolation -/

/-- Whether the text starts with an interpolation, as far as its first two characters tell. -/
def startsInterpolation : Text → Bool
  | c :: '{' :: _ => c == '#' || c == '@'
  | _ => false

/-- An interpolation as it is written. -/
inductive IsInterpolation : Text → Prop
  | mk {mark : Char} {body : Text} : mark = '#' ∨ mark = '@' → Balanced '{' '}' 0 body →
      IsInterpolation (mark :: '{' :: body ++ ['}'])

theorem atInterpolation_apply (s : Text) : atInterpolation s = .ok (startsInterpolation s) s := by
  match s with
  | [] => rfl
  | [c] => rfl
  | c :: d :: s =>
    by_cases hd : d = '{'
    · subst hd
      rfl
    · simp [atInterpolation, startsInterpolation, hd]

theorem IsInterpolation.starts (h : IsInterpolation raw) (s : Text) : startsInterpolation (raw ++ s) := by
  obtain ⟨rfl | rfl, -⟩ := h <;> rfl

theorem startsInterpolation_eq_true (h : startsInterpolation s) :
    ∃ mark t, s = mark :: '{' :: t ∧ (mark = '#' ∨ mark = '@') := by
  unfold startsInterpolation at h
  split at h
  · exact ⟨_, _, rfl, by simpa using h⟩
  · cases h

/-- Where an interpolation starts, it is read exactly if it is one. -/
theorem rawInterpolation_eq_ok (hs : startsInterpolation s) :
    rawInterpolation s = .ok raw rest ↔ IsInterpolation raw ∧ s = raw ++ rest := by
  obtain ⟨mark, t, rfl, hmark⟩ := startsInterpolation_eq_true hs
  refine rawText_eq_ok_of (fun raw _ => IsInterpolation raw) fun rest => ?_
  simp only [skip_bind, bind_eq_ok, expectChar_eq_ok, discard_eq_ok, balanced_eq_ok isBrackets_braces]
  constructor
  · rintro ⟨_, _, _, heq, body, hbody, rfl⟩
    cases heq
    exact ⟨mark :: '{' :: body ++ ['}'], .mk hmark hbody, by simp⟩
  · rintro ⟨_, ⟨-, hbody⟩, heq⟩
    cases heq
    exact ⟨(), (), _, rfl, _, hbody, by simp⟩

/-! ## White space and comments -/

theorem isBlank_iff {c : Char} : isBlank c ↔ c = ' ' ∨ c = '\t' ∨ c = '\n' := by
  simp [isBlank, or_assoc]

/-- Whether the text starts with neither white space nor a comment. -/
def isSolid (s : Text) : Bool :=
  !s.head?.any isBlank && !"//".toList.isPrefixOf s && !"/*".toList.isPrefixOf s

theorem isSolid_cons {c : Char} (hblank : isBlank c = false) (hslash : c ≠ '/') (s : Text) :
    isSolid (c :: s) := by
  simp [isSolid, List.isPrefixOf, hblank, Ne.symm hslash]

theorem isSolid_of_append (ht : t ≠ []) (h : isSolid (t ++ s)) : isSolid t := by
  obtain ⟨d, t, rfl⟩ := List.exists_cons_of_ne_nil ht
  cases t with
  | nil =>
    simp only [isSolid, Bool.and_eq_true] at h ⊢
    exact ⟨⟨h.1.1, by simp [List.isPrefixOf]⟩, by simp [List.isPrefixOf]⟩
  | cons e t => exact h

/-- A comment starts behind a solid text or within it, but not across its end. -/
theorem isSolid_append {c : Char} (ht : t ≠ []) (h : isSolid t) (hslash : c ≠ '/') (hstar : c ≠ '*')
    (s : Text) : isSolid (t ++ c :: s) := by
  obtain ⟨d, t, rfl⟩ := List.exists_cons_of_ne_nil ht
  cases t with
  | nil => simpa [isSolid, List.isPrefixOf, Ne.symm hslash, Ne.symm hstar] using h
  | cons e t => exact h

/-- One round of `trivia`. -/
def triviaStep : Scanner (Option (List Unit)) := do
  blanks
  if ← atSilentComment then
    silentComment
    return some []
  else if ← atLoudComment then
    loudComment
    return some []
  else
    return none

theorem loudCommentRest_suffix {star : Bool} {a : Unit} (h : loudCommentRest star s = .ok a rest) :
    rest <:+ s := by
  fun_induction loudCommentRest star s with
  | case1 => cases h
  | case2 =>
    cases h
    exact List.suffix_cons _ _
  | case3 star c s _ ih => exact (ih h).trans (List.suffix_cons _ _)

/-- The white space is gone, and either a comment too or there is none. -/
theorem triviaStep_apply (s : Text) : triviaStep s =
    let s' := s.dropWhile isBlank
    if "//".toList.isPrefixOf s' then .ok (some []) (s'.dropWhile (· != '\n'))
    else if "/*".toList.isPrefixOf s' then
      match loudCommentRest false (s'.drop 2) with
      | .ok _ rest => .ok (some []) rest
      | .error e rest => .error e rest
    else .ok none s' := by
  simp only [triviaStep, bind_apply, blanks, skipWhile, atSilentComment, lookingAt]
  split
  · rfl
  · simp only [bind_apply, atLoudComment, lookingAt]
    split
    · simp only [bind_apply, loudComment, skip]
      rw [← List.drop_one, ← List.drop_one, List.drop_drop]
      cases loudCommentRest false _ <;> rfl
    · rfl

theorem triviaStep_eq_ok {out : Option (List Unit)} (h : triviaStep s = .ok out rest) :
    rest <:+ s ∧ (out = none ∧ isSolid rest ∨ out.isSome ∧ rest.length < s.length) := by
  have hdrop : s.dropWhile isBlank <:+ s := List.dropWhile_suffix _
  have hhead : (s.dropWhile isBlank).head?.any isBlank = false := by
    have hnot := List.head?_dropWhile_not isBlank s
    revert hnot
    cases (s.dropWhile isBlank).head? <;> simp
  rw [triviaStep_apply] at h
  dsimp only at h
  generalize s.dropWhile isBlank = s' at h hdrop hhead
  split at h
  · next hsilent =>
    cases h
    obtain ⟨t, rfl⟩ := List.isPrefixOf_iff_prefix.mp hsilent
    have hsuffix : t.dropWhile (· != '\n') <:+ t := List.dropWhile_suffix _
    have hlength := hdrop.length_le
    have := hsuffix.length_le
    simp only [String.reduceToList, List.cons_append, List.nil_append, List.length_cons] at hlength
    refine ⟨?_, .inr ⟨rfl, ?_⟩⟩
    · exact ((hsuffix.trans (List.suffix_append _ _)).trans hdrop)
    · change (t.dropWhile _).length < _
      omega
  · split at h
    · next hloud =>
      split at h
      · next hrest =>
        cases h
        obtain ⟨t, rfl⟩ := List.isPrefixOf_iff_prefix.mp hloud
        have hsuffix := loudCommentRest_suffix hrest
        have hlength := hdrop.length_le
        have := hsuffix.length_le
        simp at hlength this
        exact ⟨(hsuffix.trans (List.drop_suffix _ _)).trans hdrop, .inr ⟨rfl, by omega⟩⟩
      · cases h
    · next hsilent hloud =>
      cases h
      refine ⟨hdrop, .inl ⟨rfl, ?_⟩⟩
      rw [isSolid, hhead, Bool.eq_false_iff.mpr hsilent, Bool.eq_false_iff.mpr hloud]
      rfl

theorem dropWhile_isBlank_of_isSolid (h : isSolid s) : s.dropWhile isBlank = s := by
  cases s with
  | nil => rfl
  | cons c s =>
    simp only [isSolid, Bool.and_eq_true, List.head?_cons, Option.any_some] at h
    exact List.dropWhile_cons_of_neg (by simpa using h.1.1)

/-- White space in front of a solid text is all that is consumed. -/
theorem trivia_of_dropWhile (hs : s.dropWhile isBlank = s') (h : isSolid s') : trivia s = .ok () s' := by
  have hstep : triviaStep s = .ok none s' := by
    simp only [isSolid, Bool.and_eq_true, Bool.not_eq_true'] at h
    obtain ⟨⟨-, hsilent⟩, hloud⟩ := h
    simp only [triviaStep_apply, hs, hsilent, hloud, Bool.false_eq_true, if_false]
  change ((gatherAll triviaStep) >>= _) s = _
  rw [bind_apply, gatherAll_of_none hstep]
  rfl

theorem trivia_solid (h : isSolid s) : trivia s = .ok () s :=
  trivia_of_dropWhile (dropWhile_isBlank_of_isSolid h) h

theorem trivia_blank {c : Char} (hc : isBlank c) (h : isSolid s) : trivia (c :: s) = .ok () s := by
  refine trivia_of_dropWhile ?_ h
  rw [List.dropWhile_cons_of_pos hc, dropWhile_isBlank_of_isSolid h]

theorem trivia_eq_ok {a : Unit} (h : trivia s = .ok a rest) : isSolid rest ∧ rest <:+ s := by
  change ((gatherAll triviaStep) >>= fun _ => pure ()) s = _ at h
  obtain ⟨_, s', hgather, hpure⟩ := bind_eq_ok.mp h
  cases hpure
  refine gatherAll_induction (motive := fun s _ rest => isSolid rest ∧ rest <:+ s) ?_ ?_ ?_ hgather
  · intro s rest hstep
    obtain ⟨hsuffix, ⟨-, hsolid⟩ | ⟨hsome, -⟩⟩ := triviaStep_eq_ok hstep
    · exact ⟨hsolid, hsuffix⟩
    · cases hsome
  · intro s piece rest hstep hlt
    obtain ⟨-, ⟨hnone, -⟩ | ⟨-, hlength⟩⟩ := triviaStep_eq_ok hstep
    · cases hnone
    · exact absurd hlength hlt
  · intro s piece s' more rest hstep _ _ ih
    exact ⟨ih.1, ih.2.trans (triviaStep_eq_ok hstep).1⟩

end NestedCss.Scanner
