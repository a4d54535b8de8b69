import NestedCss.Proofs.Stylesheet.Ends
import NestedCss.Proofs.Text.Collapse
import NestedCss.Stylesheet.Reader

/-!
# White space and comments in front of the end of a statement

* `Stylesheet.IsStatement`: statements without a block as they are written, up to where they end;
* `Stylesheet.Moved`: the same statements in another place;
* `Stylesheet.TakesBlank`: names of at-rules to which a blank behind them belongs;
* `Stylesheet.scanExtendDeclaration_apply`: what is read as an extend of LESS;
* **`Stylesheet.scanStatement_gap`**: a statement is read the same with white space and comments in front of
  its end, unless it is an extend of LESS and there is a comment;
* `Stylesheet.scanLessStatement_comment`: that is read as a declaration or as a style rule.
-/

namespace NestedCss

/-- The statement in another place. -/
def Stmt.movedTo (r : Region) : Stmt → Stmt
  | .rule selector prelude _ body => .rule selector prelude r body
  | .declaration property value _ => .declaration property value r
  | .media query _ body => .media query r body
  | .blockAtRule name params _ body => .blockAtRule name params r body
  | .plainAtRule name params _ => .plainAtRule name params r
  | .extend dialect targets _ => .extend dialect targets r
  | .atRoot _ body => .atRoot r body
  | .comment text _ => .comment text r
  | .message severity text _ => .message severity text r

/-- The text that a statement without a block ends with, if its white space is collapsed. -/
def Stmt.collapsed : Stmt → Text
  | .declaration _ value _ => value
  | .plainAtRule _ params _ => params
  | .message _ text _ => text
  | .rule .. | .media .. | .blockAtRule .. | .extend .. | .atRoot .. | .comment .. => []

namespace Stylesheet

open Scanner

variable {α β : Type} {s t raw w y rest : Text} {block : Scanner (List Stmt)} {dialect : Dialect}
  {stmts : List Stmt}

/-- A scanner of blocks for statements that have none. -/
def noBlock : Scanner (List Stmt) := failHere (.expected ';')

/-- The text is a statement without a block and read as `stmts`. Of two semicolons behind it the first
one ends it, so it neither ends earlier nor goes on in what is behind it. -/
def IsStatement (dialect : Dialect) (core : Text) (stmts : List Stmt) : Prop :=
  scanStatement dialect noBlock (core ++ ";;".toList) = .ok stmts ";".toList

/-- The statements may have moved, if no string is left open at their ends. -/
def Moved (stmts stmts' : List Stmt) : Prop :=
  (∀ stmt ∈ stmts, Text.IsClosed stmt.collapsed) → ∃ r, stmts' = stmts.map (·.movedTo r)

/-- The same for scanners of single statements. -/
def MovedOne (stmt stmt' : Stmt) : Prop := Moved [stmt] [stmt']

/-! ## Statements of both dialects -/

theorem collapse_gap {gap : Text} (hclosed : Text.IsClosed (Text.collapse t)) (hgap : ∀ c ∈ gap, isBlank c) :
    Text.collapse (t ++ gap) = Text.collapse t :=
  Text.collapse_append (Text.isClosed_collapse.mp hclosed) fun c hc => by simp [isAsciiSpace, hgap c hc]

theorem trim_gap {gap : Text} (hgap : ∀ c ∈ gap, isBlank c) : Text.trim (t ++ gap) = Text.trim t := by
  refine Text.trim_append fun c hc => ?_
  obtain rfl | rfl | rfl := isBlank_iff.mp (hgap c hc) <;> decide

theorem fails_scanRule (selector : Text) (start : Nat) : Fails (scanRule noBlock selector start) :=
  .bind fun _ => .ite (.bind_left (fails_failHere _)) (.bind_left (fails_failHere _))

/-- An at-rule without a meaning of its own. -/
theorem keepsAcross_scanOtherAtRule (name : Text) (m n : Nat) :
    KeepsAcross MovedOne (scanOtherAtRule noBlock name m) (scanOtherAtRule block name n) := by
  refine KeepsBehind.keepsAcross (.noBrace (fun _ => .bind_left (fails_failHere _)) ?_)
  refine .separator fun t gap s s' a hgap h => ?_
  cases h
  refine ⟨rfl, fun rest => ⟨_, rfl, fun hclosed => ⟨⟨n, rest.length⟩, ?_⟩⟩⟩
  rw [collapse_gap (hclosed _ List.mem_cons_self) hgap]
  rfl

/-- The rest of a statement as a message. -/
theorem keepsAcross_scanMessage :
    KeepsAcross (fun a b => Text.IsClosed a.1 → b.1 = a.1) scanMessage scanMessage := by
  refine .mark fun m n => KeepsBehind.keepsAcross (.region fun r r' => ?_)
  refine .separator fun t gap s s' a hgap h => ?_
  cases h
  exact ⟨rfl, fun rest => ⟨_, rfl, fun hclosed => collapse_gap hclosed hgap⟩⟩

theorem keepsAcross_scanExtend (m n : Nat) :
    KeepsAcross MovedOne (scanExtend m) (scanExtend n) := by
  refine KeepsBehind.keepsAcross (.guard (fun _ => .bind_left (fails_failHere _)) ?_ ?_)
  · intro t gap hgap
    rw [trim_gap hgap]
    exact id
  · refine .region fun r r' => .separator fun t gap s s' a hgap h => ?_
    cases h
    refine ⟨rfl, fun rest => ⟨_, rfl, fun _ => ⟨r', ?_⟩⟩⟩
    rw [trim_gap hgap]
    rfl

theorem keepsAcross_skipValue : KeepsAcross (fun _ _ => True) skipValue skipValue := by
  unfold skipValue
  rw [discard_bind]
  refine KeepsBehind.keepsAcross (.noBrace (fun _ => .bind_left (fails_failHere _)) ?_)
  exact fun t s a hends h => ⟨eq_of_separator hends h, fun gap rest _ hrest =>
    ⟨(), separator_of_isEnd hrest, trivial⟩⟩

/-- A declaration, which is split at its first colon. -/
theorem keepsBehind_scanDeclaration (r r' : Region) : KeepsBehind MovedOne
    (scanDeclaration · r) (scanDeclaration · r') := by
  intro t s a hends h
  cases hsplit : Text.splitAtFirst ':' t with
  | none =>
    simp only [scanDeclaration, hsplit] at h
    cases h
  | some parts =>
    obtain ⟨property, value⟩ := parts
    simp only [scanDeclaration, hsplit] at h
    split at h
    · cases h
    next hproperty =>
    split at h
    · cases h
    next hvalue =>
    obtain ⟨_, s', hseparator, h⟩ := bind_eq_ok.mp h
    cases h
    obtain rfl := eq_of_separator hends hseparator
    refine ⟨rfl, fun gap rest hgap hrest => ?_⟩
    have hvalue' : ¬ (Text.collapse (value ++ gap)).isEmpty := by
      rw [List.isEmpty_iff] at hvalue ⊢
      exact fun hnil => hvalue (List.prefix_nil.mp (hnil ▸ Text.collapseFrom_prefix value gap))
    refine ⟨.declaration (Text.trim property) (Text.collapse (value ++ gap)) r', ?_, fun hclosed => ?_⟩
    · simp only [scanDeclaration, Text.splitAtFirst_append hsplit gap]
      rw [if_neg hproperty, if_neg hvalue']
      exact bind_eq_ok.mpr ⟨_, _, separator_of_isEnd hrest, rfl⟩
    · rw [collapse_gap (hclosed _ List.mem_cons_self) hgap]
      exact ⟨_, rfl⟩

theorem keepsAcross_scanDeclarationOrRule (dialect : Dialect) : KeepsAcross MovedOne
    (scanDeclarationOrRule dialect noBlock) (scanDeclarationOrRule dialect block) := by
  refine .mark fun m n => KeepsBehind.keepsAcross (.noBrace (fun _ => fails_scanRule _ m) (.region fun r r' => ?_))
  refine .guard (fun _ => .bind_left (fails_failAt _ _)) ?_ (keepsBehind_scanDeclaration r r')
  intro t gap hgap
  rw [trim_gap hgap]
  exact id

/-! ## At-rules and variables -/

/-- The text is the name of an at-rule and ends with an escape, which takes a blank behind it. -/
def TakesBlank (core : Text) : Prop := ∃ n, IsIdentifier n ∧ core = '@' :: n ∧ openEscape? n ≠ none

theorem atRule_gap {R : α → β → Prop} {a : α} {f : Nat → Text → Scanner α} {g : Nat → Text → Scanner β}
    (hfg : ∀ name m n, KeepsAcross R (f m name) (g n name))
    (h : (do let start ← mark; let name ← scanAtRuleName; f start name : Scanner α) (raw ++ ";;".toList) =
      .ok a ";".toList)
    (hblank : ¬ TakesBlank raw) (hw : IsGap w) (hrest : IsEnd rest) :
    ∃ b, (do let start ← mark; let name ← scanAtRuleName; g start name : Scanner β) (raw ++ (w ++ rest)) =
      .ok b (afterEnd rest) ∧ R a b := by
  simp only [scanAtRuleName, bind_assoc, pure_bind] at h ⊢
  obtain ⟨m, _, hmark, h⟩ := bind_eq_ok.mp h
  obtain rfl := (EStateM.Result.ok.inj hmark).2
  obtain ⟨_, s, hat, h⟩ := bind_eq_ok.mp h
  rw [expectChar_eq_ok] at hat
  have hkeeps (name : Text) : KeepsAcross R (trivia >>= fun _ => f m name)
      (trivia >>= fun _ => g (raw ++ (w ++ rest)).length name) :=
    .bind passes_trivia fun _ => hfg name _ _
  obtain ⟨n, raw', rfl, hn, -, hraw'⟩ := identifier_gap hkeeps h
  have hraw : raw = '@' :: (n ++ raw') := by
    rw [← List.append_assoc, ← List.cons_append] at hat
    exact List.append_cancel_right hat
  have hopen (hnil : raw' = []) : openEscape? n = none := by
    refine not_not.mp fun hopen => hblank ⟨n, hn, ?_, hopen⟩
    rw [hraw, hnil, List.append_nil]
  obtain ⟨b, hb, hab⟩ := hraw' hw hrest hopen
  refine ⟨b, bind_eq_ok.mpr ⟨_, _, rfl, bind_eq_ok.mpr ⟨(), n ++ (raw' ++ (w ++ rest)), ?_, hb⟩⟩, hab⟩
  rw [expectChar_eq_ok, hraw, List.cons_append, List.append_assoc]

theorem KeepsAcross.singleton {x x' : Scanner Stmt} (h : KeepsAcross MovedOne x x') :
    KeepsAcross Moved (do return [← x]) (do return [← x']) :=
  h.map fun _ _ hab => hab

theorem fails_scanAtRoot (start : Nat) : Fails (scanAtRoot noBlock start) :=
  .bind fun _ => .ite (.bind_left (fails_failHere _)) <|
    .bind fun _ => .ite (.bind_left (fails_failHere _)) <|
      .bind fun _ => .bind fun _ => .bind fun _ => .ite (.bind_left (fails_failHere _)) <|
        .bind_left (fails_scanRule _ _)

theorem fails_scanMedia (start : Nat) : Fails (scanMedia noBlock start) :=
  .bind fun _ => .ite (.bind_left (fails_failHere _)) (.bind_left (fails_failHere _))

theorem scanScssAtRule_gap (h : scanScssAtRule noBlock (raw ++ ";;".toList) = .ok stmts ";".toList)
    (hblank : ¬ TakesBlank raw) (hw : IsGap w) (hrest : IsEnd rest) :
    ∃ stmts', scanScssAtRule block (raw ++ (w ++ rest)) = .ok stmts' (afterEnd rest) ∧
      Moved stmts stmts' := by
  refine atRule_gap (fun name m n => ?_) h hblank hw hrest
  refine .ite (Fails.bind fun _ => .bind_left (fails_failAt _ _)).keepsAcross ?_
  refine .ite (Fails.bind_left (fails_scanAtRoot m)).keepsAcross <|
    .ite (keepsAcross_scanExtend m n).singleton <|
      .ite (Fails.bind_left (fails_scanMedia m)).keepsAcross ?_
  cases severity? name with
  | none => exact (keepsAcross_scanOtherAtRule name m n).singleton
  | some severity =>
    refine keepsAcross_scanMessage.map fun a b hab hclosed => ?_
    have htext : b.1 = a.1 := hab (hclosed _ List.mem_cons_self)
    exact ⟨b.2, by rw [← htext]; rfl⟩

theorem keepsAcross_skipScssVariable : KeepsAcross (fun _ _ => True) skipScssVariable skipScssVariable := by
  unfold skipScssVariable
  rw [discard_bind]
  refine .bind (passes_expectChar '$') fun _ => .identifier (fun _ => .bind passes_trivia fun _ =>
    .bind (passes_expectChar ':') fun _ => keepsAcross_skipValue) fun n a h => ?_
  rw [bind_of_ok (trivia_solid (by decide))] at h
  cases h

theorem keepsAcross_skipLessVariable :
    KeepsAcross (fun _ _ => True) (skipLessVariable noBlock) (skipLessVariable block) :=
  .bind (passes_expectChar ':') fun _ => .bind passes_trivia fun _ =>
    .bind (passes_nextIs (by decide)) fun _ =>
      .ite (Fails.keepsAcross fun _ _ _ h => by cases h) keepsAcross_skipValue

theorem KeepsAcross.variable {x x' : Scanner Unit} (h : KeepsAcross (fun _ _ => True) x x') :
    KeepsAcross Moved (do x; return [] : Scanner (List Stmt)) (do x'; return []) :=
  h.map fun _ _ _ _ => ⟨⟨0, 0⟩, rfl⟩

theorem scanLessAtRule_gap (h : scanLessAtRule noBlock (raw ++ ";;".toList) = .ok stmts ";".toList)
    (hblank : ¬ TakesBlank raw) (hw : IsGap w) (hrest : IsEnd rest) :
    ∃ stmts', scanLessAtRule block (raw ++ (w ++ rest)) = .ok stmts' (afterEnd rest) ∧
      Moved stmts stmts' := by
  refine atRule_gap (fun name m n => ?_) h hblank hw hrest
  exact .bind (passes_nextIs (by decide)) fun colon => .ite keepsAcross_skipLessVariable.variable <|
    .ite (Fails.bind_left (fails_scanMedia m)).keepsAcross (keepsAcross_scanOtherAtRule name m n).singleton

/-! ## Extends as statements of LESS -/

/-- How an extend of LESS starts. -/
def extendStart : Text := "&:extend(".toList

theorem scan_extendStart (s : Text) : Scanner.scan extendStart (extendStart ++ s) = .ok true s := by
  have hstarts : extendStart.isPrefixOf (extendStart ++ s) = true :=
    List.isPrefixOf_iff_prefix.mpr (List.prefix_append _ _)
  rw [Scanner.scan, if_pos hstarts, List.drop_left]

/-- Behind its targets an extend ends, or goes on as part of a selector. -/
theorem scanExtendDeclaration_apply {targets : Text} (h : Balanced '(' ')' 0 targets)
    (hs : s = extendStart ++ (targets ++ ')' :: t)) : scanExtendDeclaration s =
      if IsEnd (t.dropWhile isBlank) then
        .ok (some (.extend .less targets ⟨s.length, t.length⟩)) (afterEnd (t.dropWhile isBlank))
      else .ok none s := by
  have hstart : Scanner.scan "&:extend(".toList s = .ok true (targets ++ ')' :: t) := hs ▸ scan_extendStart _
  have htargets : balanced '(' ')' (targets ++ ')' :: t) = .ok targets t :=
    (balanced_eq_ok isBrackets_parens).mpr ⟨h, rfl⟩
  have hget : (get : Scanner Text) s = .ok s s := rfl
  have hmark : mark s = .ok s.length s := rfl
  have hregion : regionFrom s.length t = .ok ⟨s.length, t.length⟩ t := rfl
  have hblanks : blanks t = .ok () (t.dropWhile isBlank) := rfl
  rw [scanExtendDeclaration, bind_of_ok hget, bind_of_ok hmark, bind_of_ok hstart, if_neg (by decide),
    bind_of_ok htargets, bind_of_ok hregion, bind_of_ok hblanks, peek_bind]
  generalize t.dropWhile isBlank = t'
  cases t' with
  | nil => rfl
  | cons c t' =>
    have hend : IsEnd (c :: t') ↔ (c == ';' || c == '}') = true := by simp [IsEnd]
    simp only [List.head?_cons, hend]
    split
    · next hc => exact bind_eq_ok.mpr ⟨_, _, separator_of_isEnd (hend.mpr hc), rfl⟩
    · rfl

theorem exists_of_scanExtendDeclaration {out : Option Stmt} (h : scanExtendDeclaration s = .ok out rest) :
    extendStart.isPrefixOf s = false ∧ out = none ∧ rest = s ∨
      ∃ targets t, Balanced '(' ')' 0 targets ∧ s = extendStart ++ (targets ++ ')' :: t) := by
  obtain ⟨_, _, hget, h⟩ := bind_eq_ok.mp h
  cases hget
  obtain ⟨_, _, hmark, h⟩ := bind_eq_ok.mp h
  cases hmark
  obtain ⟨found, s', hfound, h⟩ := bind_eq_ok.mp h
  change Scanner.scan extendStart s = _ at hfound
  by_cases hstarts : extendStart.isPrefixOf s = true
  · obtain ⟨s, rfl⟩ := List.isPrefixOf_iff_prefix.mp hstarts
    rw [scan_extendStart] at hfound
    cases hfound
    rw [if_neg (by decide)] at h
    obtain ⟨targets, t, htargets, -⟩ := bind_eq_ok.mp h
    obtain ⟨hbalanced, rfl⟩ := (balanced_eq_ok isBrackets_parens).mp htargets
    exact .inr ⟨targets, t, hbalanced, rfl⟩
  · rw [Scanner.scan, if_neg hstarts] at hfound
    cases hfound
    cases h
    exact .inl ⟨Bool.eq_false_iff.mpr hstarts, rfl, rfl⟩

theorem scanExtendDeclaration_of_not_prefix (h : extendStart.isPrefixOf s = false) :
    scanExtendDeclaration s = .ok none s := by
  have hscan : Scanner.scan extendStart s = .ok false s := by
    rw [Scanner.scan, if_neg (Bool.eq_false_iff.mp h)]
  exact bind_eq_ok.mpr ⟨_, _, rfl, bind_eq_ok.mpr ⟨_, _, rfl, bind_eq_ok.mpr ⟨_, _, hscan, rfl⟩⟩⟩

/-- An extend is the same behind blanks. -/
theorem scanExtendDeclaration_blanks {stmt : Stmt}
    (h : scanExtendDeclaration (raw ++ ";;".toList) = .ok (some stmt) ";".toList) :
    ∃ targets r, stmt = .extend .less targets r ∧ ∀ ⦃w rest : Text⦄, (∀ c ∈ w, isBlank c) → IsEnd rest →
      ∃ r', scanExtendDeclaration (raw ++ (w ++ rest)) =
        .ok (some (.extend .less targets r')) (afterEnd rest) := by
  obtain ⟨-, hnone, -⟩ | ⟨targets, t, htargets, hs⟩ := exists_of_scanExtendDeclaration h
  · cases hnone
  rw [scanExtendDeclaration_apply htargets hs] at h
  split at h
  · next hend =>
    obtain ⟨hstmt, hafter⟩ := EStateM.Result.ok.inj h
    cases hstmt
    have hsplit : t = t.takeWhile isBlank ++ ";;".toList := by
      rw [← eq_of_afterEnd hend hafter, List.takeWhile_append_dropWhile]
    have hblank : ∀ c ∈ t.takeWhile isBlank, isBlank c := fun c hc => List.mem_takeWhile_imp hc
    generalize t.takeWhile isBlank = u at hsplit hblank
    subst hsplit
    have hraw : raw = extendStart ++ (targets ++ ')' :: u) := by
      rw [← List.cons_append, ← List.append_assoc targets, ← List.append_assoc] at hs
      exact List.append_cancel_right hs
    refine ⟨targets, _, rfl, fun w rest hw hrest => ?_⟩
    have hsplit' : raw ++ (w ++ rest) = extendStart ++ (targets ++ ')' :: (u ++ w ++ rest)) := by simp [hraw]
    have hall : ∀ c ∈ u ++ w, isBlank c := fun c hc => (List.mem_append.mp hc).elim (hblank c) (hw c)
    refine ⟨⟨(raw ++ (w ++ rest)).length, (u ++ w ++ rest).length⟩, ?_⟩
    rw [scanExtendDeclaration_apply htargets hsplit', hrest.dropWhile_append hall, if_pos hrest]
  · cases h

theorem IsBreak.start_prefix (hy : IsBreak y) (h : extendStart <+: raw ++ y) :
    extendStart <+: raw := by
  obtain ⟨v, hv⟩ := h
  obtain ⟨u, hu, rfl⟩ | ⟨u, rfl, -⟩ := List.append_eq_append_iff.mp hv.symm
  · cases u with
    | nil => exact ⟨[], by rw [hu, List.append_nil, List.append_nil]⟩
    | cons c u =>
      have hmem : c ∈ extendStart := hu ▸ List.mem_append_right raw List.mem_cons_self
      have hsolid : extendStart.all (fun c => isBlank c = false ∧ c ≠ ';' ∧ c ≠ '}') = true := by decide
      exact absurd rfl (hy.ne (of_decide_eq_true (List.all_eq_true.mp hsolid c hmem)))
  · exact List.prefix_append _ _

/-- What is no extend in front of a semicolon is none in front of anything else. -/
theorem scanExtendDeclaration_none (h : scanExtendDeclaration (raw ++ ";;".toList) = .ok none s)
    (hy : IsBreak y) : s = raw ++ ";;".toList ∧ scanExtendDeclaration (raw ++ y) = .ok none (raw ++ y) := by
  obtain ⟨hstarts, -, hs⟩ | ⟨targets, t, htargets, hs⟩ := exists_of_scanExtendDeclaration h
  · refine ⟨hs, scanExtendDeclaration_of_not_prefix (Bool.eq_false_iff.mpr fun hstarts' => ?_)⟩
    have hraw := hy.start_prefix (List.isPrefixOf_iff_prefix.mp hstarts')
    have hstarts'' := List.isPrefixOf_iff_prefix.mpr (hraw.trans (List.prefix_append raw ";;".toList))
    exact Bool.eq_false_iff.mp hstarts hstarts''
  rw [scanExtendDeclaration_apply htargets hs] at h
  split at h
  · cases h
  next hend =>
  refine ⟨(EStateM.Result.ok.inj h).2.symm, ?_⟩
  -- what is behind the targets starts in `raw`, or there would be an end behind its blanks
  have ht : t <:+ raw ++ ";;".toList := ⟨extendStart ++ (targets ++ [')']), by rw [hs]; simp⟩
  obtain ⟨u, rfl⟩ : ";;".toList <:+ t := by
    refine (List.suffix_or_suffix_of_suffix ht (List.suffix_append _ _)).resolve_left fun hsemicolons => ?_
    refine hend fun c hc => ?_
    have hmem := hsemicolons.subset ((List.dropWhile_suffix isBlank).subset (List.mem_of_mem_head? hc))
    exact .inl (by simpa using hmem)
  have hraw : raw = extendStart ++ (targets ++ ')' :: u) := by
    rw [← List.cons_append, ← List.append_assoc targets, ← List.append_assoc] at hs
    exact List.append_cancel_right hs
  have hsplit : raw ++ y = extendStart ++ (targets ++ ')' :: (u ++ y)) := by simp [hraw]
  rw [scanExtendDeclaration_apply htargets hsplit, if_neg]
  rw [List.dropWhile_append] at hend ⊢
  split at hend
  · exact absurd (by decide) hend
  · next hne =>
    rw [if_neg hne]
    generalize u.dropWhile isBlank = v at hne hend
    cases v with
    | nil => exact absurd rfl hne
    | cons c v => exact hend

/-! ## Statements -/

theorem scanScssStatement_gap (h : scanScssStatement noBlock (raw ++ ";;".toList) = .ok stmts ";".toList)
    (hblank : ¬ TakesBlank raw) (hw : IsGap w) (hrest : IsEnd rest) :
    ∃ stmts', scanScssStatement block (raw ++ (w ++ rest)) = .ok stmts' (afterEnd rest) ∧
      Moved stmts stmts' := by
  have hbreak := hw.isBreak hrest
  rw [scanScssStatement, bind_of_ok (isBreak_semicolons.nextIs_append (by decide)),
    bind_of_ok (atInterpolation_apply _), isBreak_semicolons.startsInterpolation_append] at h
  rw [scanScssStatement, bind_of_ok (hbreak.nextIs_append (by decide)),
    bind_of_ok (atInterpolation_apply _), hbreak.startsInterpolation_append]
  split at h
  · next hat =>
    rw [if_pos hat]
    exact scanScssAtRule_gap h hblank hw hrest
  · next hat =>
    rw [if_neg hat]
    refine KeepsAcross.apply (.bind (passes_nextIs (by decide)) fun _ => .ite ?_ ?_) h hw hrest
    · exact keepsAcross_skipScssVariable.variable
    · exact (keepsAcross_scanDeclarationOrRule .scss).singleton

theorem scanLessStatement_gap (h : scanLessStatement noBlock (raw ++ ";;".toList) = .ok stmts ";".toList)
    (hblank : ¬ TakesBlank raw) (hw : IsGap w) (hrest : IsEnd rest)
    (hextend : ∀ targets r, .extend .less targets r ∈ stmts → ∀ c ∈ w, isBlank c) :
    ∃ stmts', scanLessStatement block (raw ++ (w ++ rest)) = .ok stmts' (afterEnd rest) ∧
      Moved stmts stmts' := by
  have hbreak := hw.isBreak hrest
  rw [scanLessStatement, bind_of_ok (isBreak_semicolons.nextIs_append (by decide)),
    bind_of_ok (atInterpolation_apply _), isBreak_semicolons.startsInterpolation_append] at h
  rw [scanLessStatement, bind_of_ok (hbreak.nextIs_append (by decide)),
    bind_of_ok (atInterpolation_apply _), hbreak.startsInterpolation_append]
  split at h
  · next hat =>
    rw [if_pos hat]
    exact scanLessAtRule_gap h hblank hw hrest
  · next hat =>
    rw [if_neg hat]
    obtain ⟨out, s', hout, h⟩ := bind_eq_ok.mp h
    cases out with
    | some stmt =>
      cases h
      obtain ⟨targets, r, rfl, hblanks⟩ := scanExtendDeclaration_blanks hout
      obtain ⟨r', hextend'⟩ := hblanks (hextend targets r List.mem_cons_self) hrest
      exact ⟨_, bind_eq_ok.mpr ⟨_, _, hextend', rfl⟩, fun _ => ⟨r', rfl⟩⟩
    | none =>
      obtain ⟨rfl, hnone⟩ := scanExtendDeclaration_none hout hbreak
      obtain ⟨b, hb, hab⟩ := (keepsAcross_scanDeclarationOrRule .less).singleton.apply h hw hrest
      exact ⟨b, bind_eq_ok.mpr ⟨_, _, hnone, hb⟩, hab⟩

/-- **White space and comments in front of the end of a statement** make no difference to it, unless a
blank belongs to the escape in an at-rule's name, the text of the statement leaves a string open, or
there is a comment behind an extend of LESS. -/
theorem scanStatement_gap {core : Text} (h : IsStatement dialect core stmts)
    (hblank : ¬ TakesBlank core) (hclosed : ∀ stmt ∈ stmts, Text.IsClosed stmt.collapsed)
    (hextend : ∀ targets r, .extend .less targets r ∈ stmts → ∀ c ∈ w, isBlank c)
    (hw : IsGap w) (hrest : IsEnd rest) (block : Scanner (List Stmt)) :
    ∃ r, scanStatement dialect block (core ++ (w ++ rest)) =
      .ok (stmts.map (·.movedTo r)) (afterEnd rest) := by
  have hscan : ∃ stmts', scanStatement dialect block (core ++ (w ++ rest)) = .ok stmts' (afterEnd rest) ∧
      Moved stmts stmts' := by
    cases dialect with
    | scss => exact scanScssStatement_gap h hblank hw hrest
    | less => exact scanLessStatement_gap h hblank hw hrest hextend
  obtain ⟨stmts', hstmts', hmoved⟩ := hscan
  obtain ⟨r, rfl⟩ := hmoved hclosed
  exact ⟨r, hstmts'⟩

/-- An extend of LESS in front of a comment is read as a declaration or as a style rule. -/
theorem scanLessStatement_comment {targets : Text} (h : Balanced '(' ')' 0 targets) (hw : IsTrivia w)
    (hcomment : ¬ ∀ c ∈ w, isBlank c) (hs : s = extendStart ++ (targets ++ ')' :: (w ++ rest))) :
    scanLessStatement block s =
      (do return [← scanDeclarationOrRule .less block] : Scanner (List Stmt)) s := by
  obtain hblanks | ⟨gap, u, hgap, rfl⟩ := hw.blank_or_comment
  · exact absurd hblanks hcomment
  have hslash : (gap ++ '/' :: u ++ rest).dropWhile isBlank = '/' :: (u ++ rest) := by
    rw [List.append_assoc, List.dropWhile_append_of_pos hgap]
    rfl
  have hnone : scanExtendDeclaration s = .ok none s := by
    rw [scanExtendDeclaration_apply h hs, hslash, if_neg (by simp [IsEnd])]
  have hat : nextIs '@' s = .ok false s := by rw [hs]; rfl
  rw [scanLessStatement, bind_of_ok hat, bind_of_ok (atInterpolation_apply s), if_neg (by simp),
    bind_of_ok hnone]

/-- An at-rule that ends with a string. -/
def charsetRule : Text := "@charset \"utf-8\"".toList

/-- White space and a comment of each kind. -/
def mixedGap : Text := " /* c */\t// d\n".toList

theorem isGap_mixedGap : IsGap mixedGap := by
  have hsilent : IsTrivia ("//".toList ++ " d".toList ++ ['\n']) := .silent (by decide) .nil
  have hloud : IsLoudComment ("/*".toList ++ " c ".toList ++ "*/".toList) := .mk (by decide)
  exact ⟨.blank (by decide) (.loud hloud (.blank (by decide) hsilent)), by rintro _ ⟨⟩; rfl⟩

theorem scanStatement_gap_charsetRule : IsGap mixedGap ∧ IsEnd ['\x7d'] ∧
    ∃ r, scanStatement .scss (scanBlock .scss) (charsetRule ++ (mixedGap ++ ['\x7d'])) =
      .ok [.plainAtRule "charset".toList "\"utf-8\"".toList r] ['\x7d'] := by
  have hstatement : IsStatement .scss charsetRule
      [.plainAtRule "charset".toList "\"utf-8\"".toList ⟨18, 1⟩] := by with_unfolding_all rfl
  have hblank : ¬ TakesBlank charsetRule := by
    rintro ⟨n, -, heq, hopen⟩
    cases heq
    exact hopen (by decide)
  have hend : IsEnd ['\x7d'] := by decide
  exact ⟨isGap_mixedGap, hend, scanStatement_gap hstatement hblank (by simpa using by decide) (by simp)
    isGap_mixedGap hend _⟩

/-- A comment in front of the end of an extend of LESS makes a declaration of it. -/
theorem not_scanStatement_gap :
    ¬ ∀ (dialect : Dialect) (core w rest : Text) (stmts : List Stmt), IsStatement dialect core stmts →
      IsGap w → IsEnd rest → ∃ r, scanStatement dialect (scanBlock dialect) (core ++ (w ++ rest)) =
        .ok (stmts.map (·.movedTo r)) (afterEnd rest) := by
  intro h
  have hstatement : IsStatement .less "&:extend(.b)".toList [.extend .less ".b".toList ⟨14, 2⟩] := by
    with_unfolding_all rfl
  have hloud : IsLoudComment ("/*".toList ++ " c ".toList ++ "*/".toList) := .mk (by decide)
  have hgap : IsGap " /* c */".toList := ⟨.blank (by decide) (.loud hloud .nil), by rintro _ ⟨⟩; rfl⟩
  obtain ⟨r, hr⟩ := h .less _ _ ";".toList _ hstatement hgap (by decide)
  have hread : scanStatement .less (scanBlock .less) "&:extend(.b) /* c */;".toList =
      .ok [.declaration "&".toList "extend(.b)".toList ⟨21, 1⟩] [] := by with_unfolding_all rfl
  cases hread.symm.trans hr

end Stylesheet

end NestedCss
