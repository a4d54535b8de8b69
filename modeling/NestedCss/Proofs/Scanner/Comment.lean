import Mathlib.Data.List.TakeWhile
import NestedCss.Proofs.Scanner.Consumes

/-!
# Comments and white space

* `Scanner.IsLoudComment`, `Scanner.loudComment_eq_ok`: a comment in `/*` and `*/` ends at the first `*/`;
* `Scanner.IsTrivia`: white space and comments in any order, where lines end what started with `//`;
* `Scanner.trivia_append`, **`Scanner.exists_isTrivia`**: that is what is passed over between tokens.
-/

namespace NestedCss.Scanner

variable {s rest t u body : Text} {star : Bool}

/-! ## Comments -/

/-- A comment in `/*` and `*/`. There is no `*/` before its end. -/
inductive IsLoudComment : Text → Prop
  | mk {body : Text} : ¬ "*/".toList <:+: body ++ ['*'] → IsLoudComment ("/*".toList ++ body ++ "*/".toList)

/-- The star that came last, if one did. -/
def lastStar (star : Bool) : Text := if star then ['*'] else []

theorem starSlash_infix_cons {c : Char} : "*/".toList <:+: c :: t ↔
    c = '*' ∧ t.head? = some '/' ∨ "*/".toList <:+: t := by
  rw [List.infix_cons_iff]
  refine or_congr_left ?_
  cases t with
  | nil => simp
  | cons d t => simp [List.cons_prefix_cons, eq_comm]

theorem loudCommentRest_of_body (h : ¬ "*/".toList <:+: lastStar star ++ body ++ ['*']) (rest : Text) :
    loudCommentRest star (body ++ "*/".toList ++ rest) = .ok () rest := by
  induction body generalizing star with
  | nil => cases star <;> rfl
  | cons c body ih =>
    have hopen : ¬ (star && c == '/') := by
      rw [Bool.and_eq_true, beq_iff_eq]
      rintro ⟨rfl, rfl⟩
      exact h (List.prefix_append _ _).isInfix
    rw [List.cons_append, List.cons_append, loudCommentRest, if_neg hopen]
    refine ih fun hoccurs => h (hoccurs.trans ?_)
    have hlast : lastStar (c == '*') ++ body ++ ['*'] <:+ c :: (body ++ ['*']) := by
      by_cases hc : c = '*'
      · subst hc
        exact List.suffix_refl _
      · have hfalse : (c == '*') = false := beq_false_of_ne hc
        rw [hfalse]
        exact List.suffix_cons _ _
    rw [List.append_assoc (lastStar star)]
    exact (hlast.trans (List.suffix_append _ _)).isInfix

theorem exists_of_loudCommentRest {a : Unit} (h : loudCommentRest star s = .ok a rest) :
    ∃ body, lastStar star ++ s = body ++ "*/".toList ++ rest ∧ ¬ "*/".toList <:+: body ++ ['*'] := by
  fun_induction loudCommentRest star s with
  | case1 => cases h
  | case2 star c s hclose =>
    cases h
    rw [Bool.and_eq_true, beq_iff_eq] at hclose
    obtain ⟨rfl, rfl⟩ := hclose
    exact ⟨[], rfl, by decide⟩
  | case3 star c s hopen ih =>
    obtain ⟨body, heq, hbody⟩ := ih h
    rw [Bool.and_eq_true, beq_iff_eq, not_and] at hopen
    by_cases hc : c = '*'
    · subst hc
      have hhead : (body ++ ['*']).head? ≠ some '/' := by
        cases body with
        | nil => decide
        | cons d body =>
          cases heq
          simp
      refine ⟨lastStar star ++ body, ?_, ?_⟩
      · rw [List.append_assoc, List.append_assoc, ← List.append_assoc body, ← heq]
        rfl
      · cases star with
        | false => exact hbody
        | true =>
          change ¬ "*/".toList <:+: '*' :: (body ++ ['*'])
          rw [starSlash_infix_cons]
          exact fun h => h.elim (fun h => hhead h.2) hbody
    · have hfalse : (c == '*') = false := beq_false_of_ne hc
      rw [hfalse] at heq
      have hcons : ¬ "*/".toList <:+: c :: (body ++ ['*']) := by
        rw [starSlash_infix_cons]
        exact fun h => h.elim (fun h => hc h.1) hbody
      refine ⟨lastStar star ++ c :: body, ?_, ?_⟩
      · have heq' : s = body ++ "*/".toList ++ rest := heq
        rw [heq']
        simp
      · cases star with
        | false => exact hcons
        | true =>
          change ¬ "*/".toList <:+: '*' :: c :: (body ++ ['*'])
          rw [starSlash_infix_cons]
          exact fun h => h.elim (fun h => hopen rfl (by simpa using h.2)) hcons

theorem loudComment_eq_ok {a : Unit} (hs : "/*".toList.isPrefixOf s) :
    loudComment s = .ok a rest ↔ ∃ raw, IsLoudComment raw ∧ s = raw ++ rest := by
  obtain ⟨t, rfl⟩ := List.isPrefixOf_iff_prefix.mp hs
  change loudCommentRest false t = .ok a rest ↔ _
  constructor
  · intro h
    obtain ⟨body, heq, hbody⟩ := exists_of_loudCommentRest h
    have heq' : t = body ++ "*/".toList ++ rest := heq
    exact ⟨_, .mk hbody, by rw [heq']; simp⟩
  · rintro ⟨_, ⟨hbody⟩, heq⟩
    rw [List.append_assoc, List.append_assoc] at heq
    rw [List.append_cancel_left heq, ← List.append_assoc]
    exact loudCommentRest_of_body hbody rest

/-! ## White space and comments -/

/-- White space and comments in any order. A comment that started with `//` ends with its line. -/
inductive IsTrivia : Text → Prop
  | nil : IsTrivia []
  | blank {c : Char} {t : Text} : isBlank c → IsTrivia t → IsTrivia (c :: t)
  | loud {raw t : Text} : IsLoudComment raw → IsTrivia t → IsTrivia (raw ++ t)
  | silent {line t : Text} : '\n' ∉ line → IsTrivia t → IsTrivia ("//".toList ++ line ++ '\n' :: t)

theorem IsTrivia.append (ht : IsTrivia t) (hu : IsTrivia u) : IsTrivia (t ++ u) := by
  induction ht with
  | nil => exact hu
  | blank hc _ ih => exact .blank hc ih
  | loud hraw _ ih => simpa using IsTrivia.loud hraw ih
  | silent hline _ ih => simpa using IsTrivia.silent hline ih

theorem dropWhile_line {line : Text} (h : '\n' ∉ line) (t : Text) :
    (line ++ '\n' :: t).dropWhile (· != '\n') = '\n' :: t := by
  rw [List.dropWhile_append_of_pos, List.dropWhile_cons_of_neg (by simp)]
  intro c hc
  simp only [bne_iff_ne]
  exact fun heq => h (heq ▸ hc)

theorem triviaStep_blank {c : Char} (hc : isBlank c) (s : Text) : triviaStep (c :: s) = triviaStep s := by
  rw [triviaStep_apply, triviaStep_apply, List.dropWhile_cons_of_pos hc]

theorem triviaStep_loud {raw : Text} (hraw : IsLoudComment raw) (s : Text) :
    triviaStep (raw ++ s) = .ok (some []) s := by
  obtain @⟨body, hbody⟩ := hraw
  have hrest : loudCommentRest false (body ++ "*/".toList ++ s) = .ok () s :=
    loudCommentRest_of_body hbody s
  have heq : "/*".toList ++ body ++ "*/".toList ++ s = '/' :: '*' :: (body ++ "*/".toList ++ s) := by simp
  rw [heq, triviaStep_apply, List.dropWhile_cons_of_neg (by decide)]
  simp only [List.drop_succ_cons, List.drop_zero, hrest]
  rw [if_neg (by simp [List.isPrefixOf]), if_pos (by simp [List.isPrefixOf])]

theorem triviaStep_silent {line : Text} (hline : '\n' ∉ line) (s : Text) :
    triviaStep ("//".toList ++ line ++ '\n' :: s) = .ok (some []) ('\n' :: s) := by
  have heq : "//".toList ++ line ++ '\n' :: s = '/' :: '/' :: (line ++ '\n' :: s) := by simp
  rw [heq, triviaStep_apply, List.dropWhile_cons_of_neg (by decide)]
  dsimp only
  rw [if_pos (by simp [List.isPrefixOf]), List.dropWhile_cons_of_pos (by decide),
    List.dropWhile_cons_of_pos (by decide), dropWhile_line hline]

theorem trivia_eq_ok_iff {a : Unit} :
    trivia s = .ok a rest ↔ ∃ out, gatherAll triviaStep s = .ok out rest := by
  change ((gatherAll triviaStep) >>= fun _ => pure ()) s = _ ↔ _
  rw [bind_eq_ok]
  constructor
  · rintro ⟨out, s', hout, hpure⟩
    cases hpure
    exact ⟨out, hout⟩
  · rintro ⟨out, hout⟩
    exact ⟨out, rest, hout, rfl⟩

theorem gatherAll_triviaStep_blank {c : Char} {out : List Unit} (hc : isBlank c)
    (h : gatherAll triviaStep s = .ok out rest) : gatherAll triviaStep (c :: s) = .ok out rest := by
  have hblank := triviaStep_blank hc s
  refine gatherAll_induction
    (motive := fun s' out rest => s' = s → gatherAll triviaStep (c :: s) = .ok out rest) ?_ ?_ ?_ h rfl
  · rintro _ rest hstep rfl
    exact gatherAll_of_none (hblank.trans hstep)
  · rintro _ piece rest hstep hlt rfl
    obtain ⟨-, ⟨hnone, -⟩ | ⟨-, hlength⟩⟩ := triviaStep_eq_ok hstep
    · cases hnone
    · exact absurd hlength hlt
  · rintro _ piece s' more rest hstep hlt hmore - rfl
    exact (gatherAll_of_some (hblank.trans hstep) (Nat.lt_succ_of_lt hlt)).mpr ⟨more, hmore, rfl⟩

/-- White space and comments make no difference to what is passed over behind them. -/
theorem trivia_append (ht : IsTrivia t) (h : trivia s = .ok () rest) : trivia (t ++ s) = .ok () rest := by
  rw [trivia_eq_ok_iff] at h ⊢
  induction ht with
  | nil => exact h
  | blank hc _ ih => exact ih.imp fun _ => gatherAll_triviaStep_blank hc
  | @loud raw t hraw _ ih =>
    obtain ⟨out, hout⟩ := ih
    rw [List.append_assoc]
    refine ⟨_, (gatherAll_of_some (triviaStep_loud hraw _) ?_).mpr ⟨out, hout, rfl⟩⟩
    obtain ⟨hbody⟩ := hraw
    simp; omega
  | @silent line t hline _ ih =>
    obtain ⟨out, hout⟩ := ih
    have hout' : gatherAll triviaStep ('\n' :: (t ++ s)) = .ok out rest :=
      gatherAll_triviaStep_blank (by decide) hout
    rw [List.append_assoc, List.cons_append]
    refine ⟨_, (gatherAll_of_some (triviaStep_silent hline _) ?_).mpr ⟨out, hout', rfl⟩⟩
    simp; omega

theorem isTrivia_of_isBlank (h : ∀ c ∈ t, isBlank c) : IsTrivia t := by
  induction t with
  | nil => exact .nil
  | cons c t ih =>
    obtain ⟨hc, ht⟩ := List.forall_mem_cons.mp h
    exact .blank hc (ih ht)

/-- The text up to the end of its line and what is behind it. -/
theorem exists_line (t : Text) : ∃ line, '\n' ∉ line ∧ t = line ++ t.dropWhile (· != '\n') ∧
    (t.dropWhile (· != '\n')).head?.all (· == '\n') := by
  refine ⟨t.takeWhile (· != '\n'), fun hmem => ?_, List.takeWhile_append_dropWhile.symm, ?_⟩
  · simpa using List.mem_takeWhile_imp hmem
  · have hnot := List.head?_dropWhile_not (· != '\n') t
    revert hnot
    cases (t.dropWhile (· != '\n')).head? <;> simp

/-- One round passes over white space and, unless it is the last one, over a comment. -/
theorem exists_of_triviaStep {out : Option (List Unit)} (h : triviaStep s = .ok out rest) :
    ∃ gap s', (∀ c ∈ gap, isBlank c) ∧ s = gap ++ s' ∧
      (s' = rest ∨ (∃ raw, IsLoudComment raw ∧ s' = raw ++ rest) ∨
        ∃ line, '\n' ∉ line ∧ s' = "//".toList ++ line ++ rest ∧ rest.head?.all (· == '\n')) := by
  refine ⟨_, _, fun c hc => List.mem_takeWhile_imp hc,
    (List.takeWhile_append_dropWhile (p := isBlank) (l := s)).symm, ?_⟩
  rw [triviaStep_apply] at h
  dsimp only at h
  generalize s.dropWhile isBlank = s' at h ⊢
  split at h
  · next hsilent =>
    cases h
    obtain ⟨t, rfl⟩ := List.isPrefixOf_iff_prefix.mp hsilent
    have hdrop : ("//".toList ++ t).dropWhile (· != '\n') = t.dropWhile (· != '\n') := rfl
    obtain ⟨line, hline, ht, hhead⟩ := exists_line t
    refine .inr (.inr ⟨line, hline, ?_, hdrop ▸ hhead⟩)
    rw [hdrop, List.append_assoc, ← ht]
  · split at h
    · next hloud =>
      split at h
      · next hrest =>
        cases h
        obtain ⟨t, rfl⟩ := List.isPrefixOf_iff_prefix.mp hloud
        exact .inr (.inl ((loudComment_eq_ok hloud).mp hrest))
      · cases h
    · cases h
      exact .inl rfl

theorem IsTrivia.tail {c : Char} (h : IsTrivia (c :: t)) (hc : isBlank c) : IsTrivia t := by
  generalize hs : c :: t = s at h
  cases h with
  | nil => cases hs
  | blank _ ht =>
    cases hs
    exact ht
  | loud hraw =>
    obtain ⟨hbody⟩ := hraw
    cases hs
    cases hc
  | silent =>
    cases hs
    cases hc

/-- Behind its blanks there is nothing or a comment. -/
theorem IsTrivia.blank_or_comment (h : IsTrivia t) :
    (∀ c ∈ t, isBlank c) ∨ ∃ gap u, (∀ c ∈ gap, isBlank c) ∧ t = gap ++ '/' :: u := by
  induction h with
  | nil => exact .inl (List.forall_mem_nil _)
  | @blank c t hc _ ih =>
    obtain hblank | ⟨gap, u, hgap, rfl⟩ := ih
    · exact .inl (List.forall_mem_cons.mpr ⟨hc, hblank⟩)
    · exact .inr ⟨c :: gap, u, List.forall_mem_cons.mpr ⟨hc, hgap⟩, rfl⟩
  | loud hraw =>
    obtain ⟨hbody⟩ := hraw
    exact .inr ⟨[], _, List.forall_mem_nil _, rfl⟩
  | silent => exact .inr ⟨[], _, List.forall_mem_nil _, rfl⟩

/-- One round in front of white space and comments. -/
theorem IsTrivia.of_triviaStep {out : Option (List Unit)} (h : triviaStep s = .ok out (t ++ rest))
    (ht : IsTrivia t) (hsolid : isSolid rest) (hne : rest ≠ []) : ∃ u, IsTrivia u ∧ s = u ++ rest := by
  obtain ⟨gap, s', hgap, rfl, rfl | ⟨raw, hraw, rfl⟩ | ⟨line, hline, rfl, hhead⟩⟩ := exists_of_triviaStep h
  · exact ⟨gap ++ t, (isTrivia_of_isBlank hgap).append ht, by simp⟩
  · exact ⟨gap ++ (raw ++ t), (isTrivia_of_isBlank hgap).append (.loud hraw ht), by simp⟩
  · cases t with
    | nil =>
      obtain ⟨c, rest, rfl⟩ := List.exists_cons_of_ne_nil hne
      obtain rfl : c = '\n' := by simpa using hhead
      cases hsolid
    | cons c t =>
      obtain rfl : c = '\n' := by simpa using hhead
      have hsilent := IsTrivia.silent hline (ht.tail (by decide))
      exact ⟨_, (isTrivia_of_isBlank hgap).append hsilent, by simp⟩

/-- **White space and comments** are what is passed over in front of a token. -/
theorem exists_isTrivia {a : Unit} (h : trivia s = .ok a rest) (hne : rest ≠ []) :
    ∃ t, IsTrivia t ∧ s = t ++ rest := by
  have hsolid := (trivia_eq_ok h).1
  obtain ⟨out, hout⟩ := trivia_eq_ok_iff.mp h
  refine gatherAll_induction
    (motive := fun s _ rest => isSolid rest → rest ≠ [] → ∃ t, IsTrivia t ∧ s = t ++ rest)
    ?_ ?_ ?_ hout hsolid hne
  · intro s rest hstep hsolid hne
    exact IsTrivia.nil.of_triviaStep hstep hsolid hne
  · intro s piece rest hstep _ hsolid hne
    exact IsTrivia.nil.of_triviaStep hstep hsolid hne
  · intro s piece s' more rest hstep _ _ ih hsolid hne
    obtain ⟨t, ht, rfl⟩ := ih hsolid hne
    exact ht.of_triviaStep hstep hsolid hne

end NestedCss.Scanner
