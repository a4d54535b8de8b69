import NestedCss.Proofs.Flatten.Run
import NestedCss.Proofs.Stylesheet.Preludes
import NestedCss.Proofs.Stylesheet.Trailing

/-!
# Where statements stand

All that can be read as one statement, by the places of what it is made of: where it starts, where the parts in
front of its block end, and how much is left behind it.

* `Stylesheet.Reads`: a statement in front of a text, with one case for each way to lay one out;
* `Stylesheet.Reads.length_lt`: reading one takes at least one character;
* one lemma for each scanner of statements;
* **`Stylesheet.reads_scanStatement`**: nothing else is read;
* `Stylesheet.reads_scanItem`: the same for all that is read of a body.
-/

namespace NestedCss

/-- Where the selector list of a style rule stands. -/
def Stmt.prelude? : Stmt → Option Region
  | .rule _ prelude _ _ => some prelude
  | _ => none

namespace Stylesheet

open Scanner

variable {s s' rest : Text} {block : Scanner (List Stmt)} {stmt : Stmt} {stmts : List Stmt}
  {dialect : Dialect}

/-- What may be read in front of a text as one statement, and what is left of the text. Blocks are read by
`block`. -/
inductive Reads (block : Scanner (List Stmt)) : Text → List Stmt → Text → Prop
  /-- A variable gives no statement. -/
  | nothing {s rest : Text} : rest.length < s.length → Reads block s [] rest
  /-- A statement without a block, which stands for what is in front of its separator or all of it. -/
  | plain {stmt : Stmt} {s rest : Text} {stop : Nat} : stmt.body = [] → stmt.prelude? = none →
      stmt.region = ⟨s.length, stop⟩ → rest.length ≤ stop → stop < s.length → Reads block s [stmt] rest
  /-- A message stands for its text alone, without the name in front and the separator behind it. -/
  | message {severity : Severity} {text s s' s'' rest : Text} : s'.length < s.length → s''.length ≤ s'.length →
      separator s'' = .ok () rest → Reads block s [.message severity text ⟨s'.length, s''.length⟩] rest
  /-- An at-rule with a block in front of `s'`. -/
  | atRule {stmt : Stmt} {s s' rest : Text} : stmt.prelude? = none → stmt.region = ⟨s.length, rest.length⟩ →
      s'.length < s.length → block s' = .ok stmt.body rest → Reads block s [stmt] rest
  /-- A style rule, whose selector list goes up to `s'`. -/
  | rule {selector s s' rest : Text} {body : List Stmt} : s'.length < s.length → block s' = .ok body rest →
      Reads block s [.rule selector ⟨s.length, s'.length⟩ ⟨s.length, rest.length⟩ body] rest
  /-- A style rule in front of `s'`, behind `@at-root`. -/
  | atRoot {selector s s' s'' rest : Text} {body : List Stmt} : s'.length < s.length →
      s''.length < s'.length → block s'' = .ok body rest →
      Reads block s [.atRoot ⟨s.length, rest.length⟩
        [.rule selector ⟨s'.length, s''.length⟩ ⟨s'.length, rest.length⟩ body]] rest

/-- **Reading a statement takes at least one character.** -/
theorem Reads.length_lt (hblock : Consumes block) (h : Reads block s stmts rest) : rest.length < s.length := by
  cases h with
  | nothing hlt => exact hlt
  | plain _ _ _ hle hlt => exact Nat.lt_of_le_of_lt hle hlt
  | message hlt hle hseparator =>
    exact Nat.lt_of_le_of_lt ((Consumes.separator hseparator).length_le.trans hle) hlt
  | atRule _ _ hlt hbody | rule hlt hbody => exact Nat.lt_of_le_of_lt (hblock hbody).length_le hlt
  | atRoot hlt hlt' hbody => exact Nat.lt_of_le_of_lt (hblock hbody).length_le (hlt'.trans hlt)

/-! ## Parts of statements -/

theorem length_lt_append {raw : Text} (h : raw ≠ []) (rest : Text) : rest.length < (raw ++ rest).length := by
  have := List.length_pos_iff.mpr h
  rw [List.length_append]
  omega

theorem ne_nil_of_hasComment {raw : Text} (h : HasComment raw) : raw ≠ [] := by
  rintro rfl
  rcases h with h | h <;> cases List.eq_nil_of_infix_nil h

theorem length_lt_of_statementText {t : Text} (h : statementText s = .ok t rest) (ht : t ≠ []) :
    rest.length < s.length := by
  obtain ⟨raw, rfl, hcomment | rfl⟩ := statementText_eq_ok h
  · exact length_lt_append (ne_nil_of_hasComment hcomment) rest
  · exact length_lt_append ht rest

theorem length_lt_of_scanAtRuleName {name : Text} (h : scanAtRuleName s = .ok name rest) :
    rest.length < s.length := by
  obtain ⟨_, s', hat, h⟩ := bind_eq_ok.mp h
  obtain rfl := expectChar_eq_ok.mp hat
  have hrest : rest <:+ s' :=
    (Consumes.identifier.bind fun _ => Consumes.trivia.bind fun _ => .pure _) h
  exact Nat.lt_succ_of_le hrest.length_le

theorem length_lt_of_skipScssVariable {u : Unit} (h : skipScssVariable s = .ok u rest) :
    rest.length < s.length := by
  obtain ⟨_, s', hdollar, h⟩ := bind_eq_ok.mp h
  obtain rfl := expectChar_eq_ok.mp hdollar
  have hrest : rest <:+ s' :=
    (Consumes.identifier.discard.bind fun _ => Consumes.trivia.bind fun _ =>
      (Consumes.expectChar ':').bind fun _ => consumes_skipValue) h
  exact Nat.lt_succ_of_le hrest.length_le

/-! ## Style rules and declarations -/

/-- A style rule stands from the start of its selector list to the end of its block. -/
theorem exists_of_scanRule {selector : Text} (htext : statementText s = .ok selector s')
    (h : scanRule block selector s.length s' = .ok stmt rest) : ∃ selector body,
      stmt = .rule selector ⟨s.length, s'.length⟩ ⟨s.length, rest.length⟩ body ∧
        s'.length < s.length ∧ block s' = .ok body rest := by
  rw [scanRule, regionFrom_bind] at h
  dsimp only at h
  split at h
  · cases h
  · next hne =>
    obtain ⟨body, s'', hbody, h⟩ := bind_eq_ok.mp h
    cases h
    refine ⟨_, body, rfl, length_lt_of_statementText htext ?_, hbody⟩
    rintro rfl
    exact hne rfl

theorem reads_scanDeclaration {t : Text} (htext : statementText s = .ok t s')
    (h : scanDeclaration t ⟨s.length, s'.length⟩ s' = .ok stmt rest) : Reads block s [stmt] rest := by
  have hlt : t ≠ [] → s'.length < s.length := length_lt_of_statementText htext
  cases hsplit : Text.splitAtFirst ':' t with
  | none =>
    simp only [scanDeclaration, hsplit] at h
    cases h
  | some parts =>
    obtain ⟨property, value⟩ := parts
    simp only [scanDeclaration, hsplit] at h
    split at h
    · cases h
    split at h
    · cases h
    obtain ⟨_, _, hseparator, h⟩ := bind_eq_ok.mp h
    cases h
    refine .plain rfl rfl rfl (Consumes.separator hseparator).length_le (hlt ?_)
    rintro rfl
    cases hsplit

theorem reads_scanDeclarationOrRule (h : scanDeclarationOrRule dialect block s = .ok stmt rest) :
    Reads block s [stmt] rest := by
  rw [scanDeclarationOrRule, mark_bind] at h
  obtain ⟨text, s', htext, h⟩ := bind_eq_ok.mp h
  rw [nextIs_bind] at h
  split at h
  · obtain ⟨selector, body, rfl, hlt, hbody⟩ := exists_of_scanRule htext h
    exact .rule hlt hbody
  · rw [regionFrom_bind] at h
    split at h
    · cases h
    · exact reads_scanDeclaration htext h

/-! ## At-rules -/

section

variable (hlt : s'.length < s.length)

include hlt

theorem reads_scanMedia (h : scanMedia block s.length s' = .ok stmt rest) : Reads block s [stmt] rest := by
  obtain ⟨text, s'', htext, h⟩ := bind_eq_ok.mp h
  dsimp only at h
  split at h
  · cases h
  · obtain ⟨body, _, hbody, h⟩ := bind_eq_ok.mp h
    cases h
    exact .atRule rfl rfl (Nat.lt_of_le_of_lt (Consumes.statementText htext).length_le hlt) hbody

theorem reads_scanOtherAtRule {name : Text} (h : scanOtherAtRule block name s.length s' = .ok stmt rest) :
    Reads block s [stmt] rest := by
  obtain ⟨text, s'', htext, h⟩ := bind_eq_ok.mp h
  have hlt : s''.length < s.length := Nat.lt_of_le_of_lt (Consumes.statementText htext).length_le hlt
  rw [nextIs_bind] at h
  split at h
  · obtain ⟨body, _, hbody, h⟩ := bind_eq_ok.mp h
    cases h
    exact .atRule rfl rfl hlt hbody
  · obtain ⟨_, _, hseparator, h⟩ := bind_eq_ok.mp h
    cases h
    exact .plain rfl rfl rfl le_rfl (Nat.lt_of_le_of_lt (Consumes.separator hseparator).length_le hlt)

theorem reads_scanExtend (h : scanExtend s.length s' = .ok stmt rest) : Reads block s [stmt] rest := by
  obtain ⟨text, s'', htext, h⟩ := bind_eq_ok.mp h
  dsimp only at h
  split at h
  · cases h
  · rw [regionFrom_bind] at h
    obtain ⟨_, _, hseparator, h⟩ := bind_eq_ok.mp h
    cases h
    exact .plain rfl rfl rfl (Consumes.separator hseparator).length_le
      (Nat.lt_of_le_of_lt (Consumes.statementText htext).length_le hlt)

theorem reads_scanMessage {severity : Severity} {text : Text} {region : Region}
    (h : scanMessage s' = .ok (text, region) rest) : Reads block s [.message severity text region] rest := by
  rw [scanMessage, mark_bind] at h
  obtain ⟨t, s'', htext, h⟩ := bind_eq_ok.mp h
  rw [regionFrom_bind] at h
  obtain ⟨_, _, hseparator, h⟩ := bind_eq_ok.mp h
  cases h
  exact .message hlt (Consumes.statementText htext).length_le hseparator

theorem reads_scanAtRoot (h : scanAtRoot block s.length s' = .ok stmt rest) : Reads block s [stmt] rest := by
  rw [scanAtRoot, nextIs_bind] at h
  dsimp only at h
  split at h
  · cases h
  rw [nextIs_bind] at h
  split at h
  · obtain ⟨body, _, hbody, h⟩ := bind_eq_ok.mp h
    cases h
    exact .atRule rfl rfl hlt hbody
  rw [mark_bind] at h
  obtain ⟨text, s'', htext, h⟩ := bind_eq_ok.mp h
  rw [nextIs_bind] at h
  split at h
  · cases h
  · obtain ⟨rule, _, hrule, h⟩ := bind_eq_ok.mp h
    cases h
    obtain ⟨selector, body, rfl, hlt', hbody⟩ := exists_of_scanRule htext hrule
    exact .atRoot hlt hlt' hbody

end

/-- A single statement. -/
theorem reads_singleton {x : Scanner Stmt} (hx : ∀ ⦃stmt rest⦄, x s' = .ok stmt rest → Reads block s [stmt] rest)
    (h : (do return [← x] : Scanner (List Stmt)) s' = .ok stmts rest) : Reads block s stmts rest := by
  obtain ⟨stmt, hstmt, rfl⟩ := bind_pure_eq_ok.mp h
  exact hx hstmt

/-! ## SCSS -/

theorem reads_scanScssAtRule (h : scanScssAtRule block s = .ok stmts rest) : Reads block s stmts rest := by
  rw [scanScssAtRule, mark_bind] at h
  obtain ⟨name, s', hname, h⟩ := bind_eq_ok.mp h
  have hlt : s'.length < s.length := length_lt_of_scanAtRuleName hname
  dsimp only at h
  split at h
  · cases h
  split at h
  · exact reads_singleton (fun _ _ => reads_scanAtRoot hlt) h
  split at h
  · exact reads_singleton (fun _ _ => reads_scanExtend hlt) h
  split at h
  · exact reads_singleton (fun _ _ => reads_scanMedia hlt) h
  cases hseverity : severity? name with
  | none =>
    rw [hseverity] at h
    exact reads_singleton (fun _ _ => reads_scanOtherAtRule hlt) h
  | some severity =>
    rw [hseverity] at h
    obtain ⟨⟨text, region⟩, _, hmessage, h⟩ := bind_eq_ok.mp h
    cases h
    exact reads_scanMessage hlt hmessage

theorem reads_scanScssStatement (h : scanScssStatement block s = .ok stmts rest) :
    Reads block s stmts rest := by
  rw [scanScssStatement, nextIs_bind, bind_of_ok (atInterpolation_apply s)] at h
  split at h
  · exact reads_scanScssAtRule h
  rw [nextIs_bind] at h
  split at h
  · obtain ⟨_, hvariable, rfl⟩ := bind_pure_eq_ok.mp h
    exact .nothing (length_lt_of_skipScssVariable hvariable)
  · exact reads_singleton (fun _ _ => reads_scanDeclarationOrRule) h

/-! ## LESS -/

theorem reads_scanLessAtRule (hblock : Consumes block) (h : scanLessAtRule block s = .ok stmts rest) :
    Reads block s stmts rest := by
  have hconsumes : Consumes (skipLessVariable block) :=
    (Consumes.expectChar ':').bind fun _ => Consumes.trivia.bind fun _ => (Consumes.nextIs '{').bind fun _ =>
      .ite hblock.discard consumes_skipValue
  rw [scanLessAtRule, mark_bind] at h
  obtain ⟨name, s', hname, h⟩ := bind_eq_ok.mp h
  have hlt : s'.length < s.length := length_lt_of_scanAtRuleName hname
  rw [nextIs_bind] at h
  split at h
  · obtain ⟨_, hvariable, rfl⟩ := bind_pure_eq_ok.mp h
    exact .nothing (Nat.lt_of_le_of_lt (hconsumes hvariable).length_le hlt)
  split at h
  · exact reads_singleton (fun _ _ => reads_scanMedia hlt) h
  · exact reads_singleton (fun _ _ => reads_scanOtherAtRule hlt) h

/-- An extend stands for what is in front of the blanks behind it. -/
theorem reads_scanExtendDeclaration (block : Scanner (List Stmt)) {out : Option Stmt}
    (h : scanExtendDeclaration s = .ok out rest) :
    (∃ extend, out = some extend ∧ Reads block s [extend] rest) ∨ out = none ∧ rest = s := by
  obtain ⟨-, hnone, hrest⟩ | ⟨targets, t, htargets, hs⟩ := exists_of_scanExtendDeclaration h
  · exact .inr ⟨hnone, hrest⟩
  rw [scanExtendDeclaration_apply htargets hs] at h
  split at h
  · cases h
    have hafter : (afterEnd (t.dropWhile isBlank)).length ≤ t.length := by
      refine Nat.le_trans ?_ (List.dropWhile_suffix isBlank).length_le
      unfold afterEnd
      split
      · exact (List.tail_suffix _).length_le
      · exact le_rfl
    have hlt : t.length < s.length := by
      rw [hs, List.length_append, List.length_append, List.length_cons]
      omega
    exact .inl ⟨_, rfl, .plain rfl rfl rfl hafter hlt⟩
  · cases h
    exact .inr ⟨rfl, rfl⟩

theorem reads_scanLessStatement (hblock : Consumes block) (h : scanLessStatement block s = .ok stmts rest) :
    Reads block s stmts rest := by
  rw [scanLessStatement, nextIs_bind, bind_of_ok (atInterpolation_apply s)] at h
  split at h
  · exact reads_scanLessAtRule hblock h
  obtain ⟨out, s', hextend, hout⟩ := bind_eq_ok.mp h
  obtain ⟨extend, rfl, hreads⟩ | ⟨rfl, rfl⟩ := reads_scanExtendDeclaration block hextend
  · cases hout
    exact hreads
  · exact reads_singleton (fun _ _ => reads_scanDeclarationOrRule) hout

/-! ## Bodies -/

/-- **All that is read as one statement** has one of these shapes, whatever reads its block. -/
theorem reads_scanStatement (hblock : Consumes block) (h : scanStatement dialect block s = .ok stmts rest) :
    Reads block s stmts rest := by
  cases dialect with
  | scss => exact reads_scanScssStatement h
  | less => exact reads_scanLessStatement hblock h

theorem reads_scanComment (hs : "/*".toList.isPrefixOf s) (h : scanComment s = .ok stmt rest) :
    Reads block s [stmt] rest := by
  rw [scanComment, mark_bind] at h
  obtain ⟨text, _, hraw, h⟩ := bind_eq_ok.mp h
  rw [regionFrom_bind] at h
  cases h
  obtain ⟨_, hloud, -⟩ := rawText_eq_ok.mp hraw
  obtain ⟨raw, rfl, hcomment⟩ := exists_of_loudComment hs hloud
  exact .plain rfl rfl rfl le_rfl (length_lt_append (ne_nil_of_hasComment hcomment) _)

/-- What comes next in a body, behind white space, or the end of the body. Semicolons and comments in `//` give
no statement either. -/
theorem reads_scanItem (hblock : Consumes block) {inBlock : Bool} {out : Option (List Stmt)}
    (h : scanItem dialect block inBlock s = .ok out rest) :
    out = none ∧ rest.length + inBlock.toNat ≤ s.length ∧ (inBlock = false → rest = []) ∨
      ∃ stmts, out = some stmts ∧ Reads block (s.dropWhile isBlank) stmts rest := by
  rw [scanItem, blanks, skipWhile_bind, peek_bind] at h
  have hle : (s.dropWhile isBlank).length ≤ s.length := (List.dropWhile_suffix isBlank).length_le
  generalize s.dropWhile isBlank = s' at h hle ⊢
  cases s' with
  | nil =>
    cases inBlock <;> cases h
    exact .inl ⟨rfl, hle, fun _ => rfl⟩
  | cons c s' =>
    by_cases hbrace : c = '}'
    · subst hbrace
      cases inBlock <;> cases h
      exact .inl ⟨rfl, hle, fun h => by cases h⟩
    by_cases hsemicolon : c = ';'
    · subst hsemicolon
      cases h
      exact .inr ⟨_, rfl, .nothing (Nat.lt_succ_self _)⟩
    simp only [List.head?_cons] at h
    rw [atSilentComment, lookingAt_bind] at h
    split at h
    · next hsilent =>
      obtain ⟨_, _, hcomment, h⟩ := bind_eq_ok.mp h
      cases h
      obtain ⟨raw, hraw, hcomment⟩ := exists_of_silentComment hsilent hcomment
      refine .inr ⟨_, rfl, .nothing ?_⟩
      rw [hraw]
      exact length_lt_append (ne_nil_of_hasComment hcomment) rest
    rw [atLoudComment, lookingAt_bind] at h
    split at h
    · next hloud =>
      obtain ⟨stmt, _, hcomment, h⟩ := bind_eq_ok.mp h
      cases h
      exact .inr ⟨_, rfl, reads_scanComment hloud hcomment⟩
    · obtain ⟨stmts, _, hstmts, h⟩ := bind_eq_ok.mp h
      cases h
      exact .inr ⟨_, rfl, reads_scanStatement hblock hstmts⟩

theorem length_lt_of_scanItem (hblock : Consumes block) {inBlock : Bool}
    (h : scanItem dialect block inBlock s = .ok (some stmts) rest) : rest.length < s.length := by
  obtain ⟨hnone, -⟩ | ⟨_, hsome, hreads⟩ := reads_scanItem hblock h
  · cases hnone
  · exact Nat.lt_of_lt_of_le (hreads.length_lt hblock) (List.dropWhile_suffix isBlank).length_le

end Stylesheet

end NestedCss
