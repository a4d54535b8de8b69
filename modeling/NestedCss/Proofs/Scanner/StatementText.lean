import NestedCss.Proofs.Scanner.Comment

/-!
# The text of a statement, piece by piece

* `Scanner.IsPiece`: a piece as it is written and what it stands for;
* `Scanner.isPiece_of_statementPiece`, `Scanner.statementPiece_of_isPiece`: what is scanned as a piece;
* `Scanner.IsStatementText`: pieces in a row;
* **`Scanner.statementText_iff`**: what is scanned as the text of a statement;
* `Scanner.IsNeutral`: what may come behind the text of a statement and leave it as it is;
* `Scanner.IsTrivia.isStatementText`: white space and comments stand for white space in it.
-/

namespace NestedCss.Scanner

variable {s rest t u raw raw' : Text} {closers closers' closers'' : List Char} {next : Option Char} {c : Char}

/-! ## Pieces -/

/-- The brackets that have to come behind a single character. -/
def closersAfter (closers : List Char) (c : Char) : List Char :=
  if isOpening c then opposite c :: closers else if closers.head? = some c then closers.tail else closers

/-- A character that is a piece of its own when `next` is the one behind it: it starts none of the longer
ones, and does not end the text. -/
structure IsSingle (closers : List Char) (next : Option Char) (c : Char) : Prop where
  ends : closers = [] → endsStatement c = false
  quote : isQuote c = false
  backslash : c ≠ '\\'
  loud : c = '/' → next ≠ some '*'
  silent : c = '/' → closers = [] → next ≠ some '/'
  interpolation : c = '#' ∨ c = '@' → next ≠ some '{'

/-- A piece of the text of a statement: how it is written when `next` is the character behind it, what it
stands for, and which brackets have to come afterwards. -/
inductive IsPiece (closers : List Char) (next : Option Char) : Text → Text → List Char → Prop
  | string {raw : Text} : IsString raw → IsPiece closers next raw raw closers
  | loud {raw : Text} : IsLoudComment raw → IsPiece closers next raw [' '] closers
  | silent {line : Text} : closers = [] → '\n' ∉ line → next.all (· == '\n') →
      IsPiece closers next ("//".toList ++ line) [' '] closers
  | interpolation {raw : Text} : IsInterpolation raw → IsPiece closers next raw raw closers
  | escaped (c : Char) : IsPiece closers next ['\\', c] ['\\', c] closers
  | backslash : next = none → IsPiece closers next ['\\'] ['\\'] closers
  | single {c : Char} : IsSingle closers next c → IsPiece closers next [c] [c] (closersAfter closers c)

theorem IsPiece.ne_nil (h : IsPiece closers next raw t closers') : raw ≠ [] := by
  cases h with
  | string h => obtain ⟨hq, -⟩ := h; exact List.cons_ne_nil _ _
  | loud h => obtain ⟨hbody⟩ := h; exact List.cons_ne_nil _ _
  | interpolation h => obtain ⟨hmark, -⟩ := h; exact List.cons_ne_nil _ _
  | _ => exact List.cons_ne_nil _ _

theorem isPrefixOf_pair {a b : Char} : [a, b].isPrefixOf (c :: s) = true ↔ c = a ∧ s.head? = some b := by
  cases s with
  | nil => simp [List.isPrefixOf]
  | cons d s =>
    simp only [List.isPrefixOf, Bool.and_eq_true, beq_iff_eq, and_true, List.head?_cons, Option.some.injEq]
    exact and_congr eq_comm eq_comm

theorem startsInterpolation_cons :
    startsInterpolation (c :: s) = true ↔ (c = '#' ∨ c = '@') ∧ s.head? = some '{' := by
  cases s with
  | nil => simp [startsInterpolation]
  | cons d s =>
    by_cases hd : d = '{'
    · subst hd
      simp [startsInterpolation]
    · simp [startsInterpolation, hd]

theorem statementPiece_cons (closers : List Char) (c : Char) (s : Text) : statementPiece closers (c :: s) =
    if closers = [] ∧ endsStatement c then .ok none (c :: s)
    else if isQuote c then (do return some (← quotedText, closers) : Scanner _) (c :: s)
    else if c = '/' ∧ s.head? = some '*' then
      (do loudComment; return some ([' '], closers) : Scanner _) (c :: s)
    else if closers = [] ∧ c = '/' ∧ s.head? = some '/' then
      .ok (some ([' '], closers)) ((c :: s).dropWhile (· != '\n'))
    else if (c = '#' ∨ c = '@') ∧ s.head? = some '{' then
      (do return some (← rawInterpolation, closers) : Scanner _) (c :: s)
    else if c = '\\' then .ok (some (c :: s.head?.toList, closers)) s.tail
    else .ok (some ([c], closersAfter closers c)) s := by
  have hends : (closers.isEmpty && endsStatement c) = true ↔ closers = [] ∧ endsStatement c := by
    rw [Bool.and_eq_true, List.isEmpty_iff]
  have hloud : "/*".toList.isPrefixOf (c :: s) = true ↔ c = '/' ∧ s.head? = some '*' := isPrefixOf_pair
  have hsilent : (closers.isEmpty && "//".toList.isPrefixOf (c :: s)) = true ↔
      closers = [] ∧ c = '/' ∧ s.head? = some '/' := by
    rw [Bool.and_eq_true, List.isEmpty_iff]
    exact and_congr_right' isPrefixOf_pair
  rw [statementPiece, peek_bind]
  simp only [List.head?_cons, ← hends, ← hloud, ← hsilent, ← startsInterpolation_cons (s := s)]
  split
  · rfl
  split
  · rfl
  rw [bind_of_ok (show atLoudComment (c :: s) = .ok _ _ from rfl)]
  split
  · rfl
  rw [bind_of_ok (show atSilentComment (c :: s) = .ok _ _ from rfl)]
  split
  · rfl
  rw [bind_of_ok (atInterpolation_apply _)]
  split
  · rfl
  rw [skip_bind]
  simp only [beq_iff_eq]
  split
  · rfl
  unfold closersAfter
  split
  · rfl
  · split <;> rfl

/-- What is scanned as a piece. -/
theorem isPiece_of_statementPiece (h : statementPiece closers s = .ok (some (t, closers')) rest) :
    ∃ raw, IsPiece closers rest.head? raw t closers' ∧ s = raw ++ rest := by
  cases s with
  | nil => cases h
  | cons c s =>
    rw [statementPiece_cons] at h
    split at h
    · cases h
    next hends =>
    split at h
    · obtain ⟨raw, hraw, hout⟩ := bind_pure_eq_ok.mp h
      cases hout
      obtain ⟨hstring, heq⟩ := quotedText_eq_ok.mp hraw
      exact ⟨t, .string hstring, heq⟩
    next hquote =>
    split at h
    · next hloud =>
      obtain ⟨_, _, hcomment, hpure⟩ := bind_eq_ok.mp h
      cases hpure
      obtain ⟨raw, hraw, heq⟩ := (loudComment_eq_ok (isPrefixOf_pair.mpr hloud)).mp hcomment
      exact ⟨raw, .loud hraw, heq⟩
    next hloud =>
    split at h
    · next hsilent =>
      cases h
      obtain ⟨rfl, rfl, hhead⟩ := hsilent
      obtain ⟨s, rfl⟩ := List.head?_eq_some_iff.mp hhead
      obtain ⟨line, hline, hs, hnext⟩ := exists_line s
      have hdrop : ('/' :: '/' :: s).dropWhile (· != '\n') = s.dropWhile (· != '\n') := rfl
      refine ⟨"//".toList ++ line, ?_, ?_⟩
      · rw [hdrop]
        exact .silent rfl hline hnext
      · rw [hdrop, List.append_assoc, ← hs]
        rfl
    next hsilent =>
    split at h
    · next hstarts =>
      obtain ⟨raw, hraw, hout⟩ := bind_pure_eq_ok.mp h
      cases hout
      obtain ⟨hinterpolation, heq⟩ := (rawInterpolation_eq_ok (startsInterpolation_cons.mpr hstarts)).mp hraw
      exact ⟨t, .interpolation hinterpolation, heq⟩
    next hstarts =>
    split at h
    · next hbackslash =>
      subst hbackslash
      cases h
      cases s with
      | nil => exact ⟨['\\'], .backslash rfl, rfl⟩
      | cons d s => exact ⟨['\\', d], .escaped d, rfl⟩
    · next hbackslash =>
      cases h
      refine ⟨[c], .single ⟨fun hnil => ?_, by simpa using hquote, hbackslash,
        fun hc hnext => hloud ⟨hc, hnext⟩, fun hc hnil hnext => hsilent ⟨hnil, hc, hnext⟩,
        fun hc hnext => hstarts ⟨hc, hnext⟩⟩, rfl⟩
      exact Bool.eq_false_iff.mpr fun hend => hends ⟨hnil, hend⟩

theorem dropWhile_line_append {line : Text} (hline : '\n' ∉ line) (hnext : rest.head?.all (· == '\n')) :
    (line ++ rest).dropWhile (· != '\n') = rest := by
  cases rest with
  | nil =>
    rw [List.append_nil, List.dropWhile_eq_nil_iff]
    exact fun c hc => bne_iff_ne.mpr fun heq => hline (heq ▸ hc)
  | cons c rest =>
    obtain rfl : c = '\n' := by simpa using hnext
    exact dropWhile_line hline rest

/-- A piece is scanned as one. -/
theorem statementPiece_of_isPiece (h : IsPiece closers rest.head? raw t closers') :
    statementPiece closers (raw ++ rest) = .ok (some (t, closers')) rest := by
  have hends {c : Char} (hc : endsStatement c = false) : ¬ (closers = [] ∧ endsStatement c) := by
    simp [hc]
  cases h with
  | string hstring =>
    have hraw : quotedText (t ++ rest) = .ok t rest := quotedText_eq_ok.mpr ⟨hstring, rfl⟩
    obtain ⟨q, body, rfl, hq⟩ := hstring.exists_eq_cons
    have hend : endsStatement q = false := by
      obtain rfl | rfl : q = '"' ∨ q = '\'' := by simpa [isQuote] using hq
      all_goals rfl
    rw [List.cons_append, statementPiece_cons, if_neg (hends hend), if_pos hq]
    exact bind_pure_eq_ok.mpr ⟨_, hraw, rfl⟩
  | loud hloud =>
    have hstarts : "/*".toList.isPrefixOf (raw ++ rest) := by
      obtain ⟨hbody⟩ := hloud
      rw [List.append_assoc, List.append_assoc]
      exact List.isPrefixOf_iff_prefix.mpr (List.prefix_append _ _)
    have hraw := (loudComment_eq_ok (a := ()) hstarts).mpr ⟨raw, hloud, rfl⟩
    obtain ⟨s, heq⟩ := List.isPrefixOf_iff_prefix.mp hstarts
    have hcons : raw ++ rest = '/' :: '*' :: s := heq.symm
    rw [hcons] at hraw ⊢
    rw [statementPiece_cons, if_neg (hends rfl), if_neg (by decide), if_pos ⟨rfl, rfl⟩]
    exact bind_eq_ok.mpr ⟨(), rest, hraw, rfl⟩
  | @silent line hnil hline hnext =>
    rw [List.append_assoc]
    change statementPiece closers ('/' :: '/' :: (line ++ rest)) = _
    rw [statementPiece_cons, if_neg (hends rfl), if_neg (by decide), if_neg (by simp),
      if_pos ⟨hnil, rfl, rfl⟩, List.dropWhile_cons_of_pos (by decide), List.dropWhile_cons_of_pos (by decide),
      dropWhile_line_append hline hnext]
  | interpolation hraw =>
    have hscan := (rawInterpolation_eq_ok (hraw.starts rest)).mpr ⟨hraw, rfl⟩
    obtain @⟨mark, body, hmark, -⟩ := hraw
    have hfirst : endsStatement mark = false ∧ isQuote mark = false ∧ mark ≠ '/' := by
      obtain rfl | rfl := hmark <;> decide
    simp only [List.cons_append] at hscan ⊢
    rw [statementPiece_cons, if_neg (hends hfirst.1), if_neg (by simp [hfirst.2.1]),
      if_neg (fun h => hfirst.2.2 h.1), if_neg (fun h => hfirst.2.2 h.2.1), if_pos ⟨hmark, rfl⟩]
    exact bind_pure_eq_ok.mpr ⟨_, hscan, rfl⟩
  | escaped c =>
    change statementPiece closers ('\\' :: c :: rest) = _
    rw [statementPiece_cons, if_neg (hends rfl), if_neg (by decide), if_neg (by simp), if_neg (by simp),
      if_neg (by simp), if_pos rfl]
    rfl
  | backslash hnext =>
    obtain rfl : rest = [] := List.head?_eq_none_iff.mp hnext
    change statementPiece closers ['\\'] = _
    rw [statementPiece_cons, if_neg (hends rfl), if_neg (by decide), if_neg (by simp), if_neg (by simp),
      if_neg (by simp), if_pos rfl]
    rfl
  | @single c hsingle =>
    have hnot : ¬ (closers = [] ∧ endsStatement c) := fun h => by simp [hsingle.ends h.1] at h
    change statementPiece closers (c :: rest) = _
    rw [statementPiece_cons, if_neg hnot, if_neg (by simp [hsingle.quote]),
      if_neg (fun h => hsingle.loud h.1 h.2), if_neg (fun h => hsingle.silent h.2.1 h.1 h.2.2),
      if_neg (fun h => hsingle.interpolation h.1 h.2), if_neg hsingle.backslash]

/-- Whether the text of a statement may end in front of a text. -/
def EndsText (closers : List Char) (rest : Text) : Prop :=
  rest = [] ∨ closers = [] ∧ rest.head?.any endsStatement

theorem statementPiece_eq_none_iff :
    statementPiece closers s = .ok none rest ↔ EndsText closers s ∧ s = rest := by
  cases s with
  | nil =>
    change EStateM.Result.ok none [] = .ok none rest ↔ _
    simp [EndsText]
  | cons c s =>
    have hends : EndsText closers (c :: s) ↔ closers = [] ∧ endsStatement c := by simp [EndsText]
    rw [hends, statementPiece_cons]
    split
    · next hc => simp [hc]
    · next hc =>
      refine iff_of_false (fun h => ?_) fun h => hc h.1
      split at h
      · obtain ⟨_, -, hout⟩ := bind_pure_eq_ok.mp h
        cases hout
      split at h
      · obtain ⟨_, _, -, hpure⟩ := bind_eq_ok.mp h
        cases hpure
      split at h
      · cases h
      split at h
      · obtain ⟨_, -, hout⟩ := bind_pure_eq_ok.mp h
        cases hout
      split at h <;> cases h

/-! ## All of the text -/

/-- The text of a statement, or the rest of one with `closers` still to come: how it is written in front of
`rest`, and what it stands for. -/
inductive IsStatementText (rest : Text) : List Char → Text → Text → Prop
  | nil : IsStatementText rest [] [] []
  | piece {closers closers' : List Char} {raw raw' t t' : Text} :
      IsPiece closers (raw' ++ rest).head? raw t closers' → IsStatementText rest closers' raw' t' →
        IsStatementText rest closers (raw ++ raw') (t ++ t')

theorem isStatementText_of_gather (h : gather statementPiece closers s = .ok (t, []) rest) :
    EndsText [] rest ∧ ∃ raw, IsStatementText rest closers raw t ∧ s = raw ++ rest := by
  generalize hlast : ([] : List Char) = last at h
  fun_induction gather statementPiece closers s generalizing t last rest with
  | case1 => cases h
  | case2 closers s rest' hnone =>
    cases h
    subst hlast
    obtain ⟨hends, rfl⟩ := statementPiece_eq_none_iff.mp hnone
    exact ⟨hends, [], .nil, rfl⟩
  | case3 => cases h
  | case4 closers s piece closers' s' hpiece _ more last' rest' hmore ih =>
    cases h
    obtain ⟨raw, hraw, rfl⟩ := isPiece_of_statementPiece hpiece
    obtain ⟨hends, raw', hraw', rfl⟩ := ih _ hlast hmore
    exact ⟨hends, raw ++ raw', .piece hraw hraw', (List.append_assoc _ _ _).symm⟩
  | case5 closers s piece closers' s' hpiece hlt =>
    obtain ⟨raw, hraw, rfl⟩ := isPiece_of_statementPiece hpiece
    have := List.length_pos_iff.mpr hraw.ne_nil
    rw [List.length_append] at hlt
    omega

theorem gather_statementPiece (h : IsStatementText rest closers raw t) (hends : EndsText [] rest) :
    gather statementPiece closers (raw ++ rest) = .ok (t, []) rest := by
  induction h with
  | nil =>
    rw [gather, List.nil_append, statementPiece_eq_none_iff.mpr ⟨hends, rfl⟩]
  | @piece closers closers' raw raw' t t' hpiece _ ih =>
    rw [List.append_assoc]
    refine gather_of_some (statementPiece_of_isPiece hpiece) ?_ ih
    have := List.length_pos_iff.mpr hpiece.ne_nil
    simp only [List.length_append]
    omega

/-- **The text of a statement** is made of pieces. -/
theorem statementText_iff : statementText s = .ok t rest ↔
    EndsText [] rest ∧ ∃ raw, IsStatementText rest [] raw t ∧ s = raw ++ rest := by
  constructor
  · intro h
    obtain ⟨⟨t', closers⟩, s', hgather, h⟩ := bind_eq_ok.mp h
    cases closers with
    | nil =>
      cases h
      exact isStatementText_of_gather hgather
    | cons => cases h
  · rintro ⟨hends, raw, hraw, rfl⟩
    exact bind_eq_ok.mpr ⟨_, _, gather_statementPiece hraw hends, rfl⟩

/-! ## What comes behind -/

/-- No character that would change the meaning of the piece in front of it. -/
def IsNeutral (next : Option Char) : Prop := ∀ c ∈ next, c ≠ '/' ∧ c ≠ '*' ∧ c ≠ '{'

theorem IsPiece.of_isNeutral (h : IsPiece closers (some c) raw t closers') (hc : c ≠ '\n')
    (hnext : IsNeutral next) : IsPiece closers next raw t closers' := by
  cases h with
  | string hraw => exact .string hraw
  | loud hraw => exact .loud hraw
  | silent _ _ hline => exact absurd (by simpa using hline) hc
  | interpolation hraw => exact .interpolation hraw
  | escaped d => exact .escaped d
  | backslash hnone => cases hnone
  | single hsingle =>
    exact .single { hsingle with
      loud := fun _ hstar => (hnext _ hstar).2.1 rfl
      silent := fun _ _ hslash => (hnext _ hslash).1 rfl
      interpolation := fun _ hbrace => (hnext _ hbrace).2.2 rfl }

/-- What comes behind the text of a statement does not matter, but for a comment that goes on there. -/
theorem IsStatementText.of_isNeutral {z : Text} (h : IsStatementText (c :: z) closers raw t)
    (hc : c ≠ '\n') (hrest : IsNeutral rest.head?) : IsStatementText rest closers raw t := by
  induction h with
  | nil => exact .nil
  | @piece closers closers' raw raw' t t' hpiece _ ih =>
    refine .piece ?_ ih
    cases raw' with
    | nil => exact hpiece.of_isNeutral hc hrest
    | cons d raw' => exact hpiece

theorem IsStatementText.append (h : IsStatementText (raw' ++ rest) closers raw t)
    (h' : IsStatementText rest [] raw' u) : IsStatementText rest closers (raw ++ raw') (t ++ u) := by
  induction h with
  | nil => exact h'
  | @piece closers closers' raw raw'' t t'' hpiece _ ih =>
    rw [List.append_assoc, List.append_assoc]
    rw [← List.append_assoc raw''] at hpiece
    exact .piece hpiece ih

/-- A blank is a piece of its own wherever it stands. -/
theorem isPiece_of_isBlank (hc : isBlank c) (next : Option Char) : IsPiece [] next [c] [c] [] := by
  obtain rfl | rfl | rfl := isBlank_iff.mp hc <;>
    exact .single ⟨fun _ => rfl, rfl, by decide, by simp, by simp, by simp⟩

theorem IsStatementText.blank (hc : isBlank c) (h : IsStatementText rest [] raw t) :
    IsStatementText rest [] (c :: raw) (c :: t) :=
  .piece (isPiece_of_isBlank hc _) h

/-- White space and comments stand for white space. -/
theorem IsTrivia.isStatementText (h : IsTrivia raw) (rest : Text) :
    ∃ gap, (∀ c ∈ gap, isBlank c) ∧ IsStatementText rest [] raw gap := by
  induction h with
  | nil => exact ⟨[], by simp, .nil⟩
  | @blank c raw hc _ ih =>
    obtain ⟨gap, hgap, htext⟩ := ih
    exact ⟨c :: gap, List.forall_mem_cons.mpr ⟨hc, hgap⟩, htext.blank hc⟩
  | @loud comment raw hcomment _ ih =>
    obtain ⟨gap, hgap, htext⟩ := ih
    exact ⟨' ' :: gap, List.forall_mem_cons.mpr ⟨by decide, hgap⟩, .piece (.loud hcomment) htext⟩
  | @silent line raw hline _ ih =>
    obtain ⟨gap, hgap, htext⟩ := ih
    refine ⟨' ' :: '\n' :: gap, ?_, .piece (.silent rfl hline rfl) (htext.blank (by decide))⟩
    exact List.forall_mem_cons.mpr ⟨by decide, List.forall_mem_cons.mpr ⟨by decide, hgap⟩⟩

end NestedCss.Scanner
