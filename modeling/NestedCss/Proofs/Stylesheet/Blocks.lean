import NestedCss.Proofs.Stylesheet.Shapes

/-!
# Where blocks are read

A statement reads one block at most, from a place further on in the text, and nothing behind it. So it only
counts what blocks are in shorter texts, and the bound on how deep they are is no bound at all.

* `Stylesheet.Settled`, `Stylesheet.Opened`: what is read without a block, and what one block decides;
* `Stylesheet.Asks`: one of the two, with one lemma for each way to put scanners together;
* one lemma for each scanner of statements, and `Stylesheet.exists_of_scanItem` for all that is read of a body;
* **`Stylesheet.scanBlock_eq`**: a block is a body in braces, to any depth.
-/

namespace NestedCss.Stylesheet

open Scanner

variable {α β : Type} {s s' t : Text} {dialect : Dialect} {high : Nat}

/-- What a scanner gives or reports, and the text that it leaves. -/
abbrev Outcome (α : Type) := EStateM.Result Problem Text α

/-- The outcome is the same, whatever reads blocks. -/
def Settled (x : Scanner (List Stmt) → Outcome α) (outcome : Outcome α) : Prop := ∀ block, x block = outcome

/-- The outcome is that of one block, which is read from `s` on. Nothing is read or refused behind it. -/
def Opened (x : Scanner (List Stmt) → Outcome α) (s : Text) (make : List Stmt → Text → α) : Prop :=
  ∀ block, x block = (do let body ← block; return make body (← get)) s

namespace Opened

variable {x : Scanner (List Stmt) → Outcome α} {make : List Stmt → Text → α} {block : Scanner (List Stmt)}
  {rest : Text}

theorem of_ok {body : List Stmt} (h : Opened x t make) (hblock : block t = .ok body rest) :
    x block = .ok (make body rest) rest := by
  rw [h block, bind_of_ok hblock]
  rfl

theorem of_error {problem : Problem} (h : Opened x t make) (hblock : block t = .error problem rest) :
    x block = .error problem rest := by
  rw [h block, bind_of_error hblock]

end Opened

/-- One block is read at most, and that where fewer than `high` characters are left. -/
inductive Asks (high : Nat) (x : Scanner (List Stmt) → Outcome α) : Prop
  | settled {outcome : Outcome α} : Settled x outcome → Asks high x
  | opened {s : Text} {make : List Stmt → Text → α} : s.length < high → Opened x s make → Asks high x

namespace Asks

theorem mono {high' : Nat} {x : Scanner (List Stmt) → Outcome α} (h : Asks high x) (hle : high ≤ high') :
    Asks high' x := by
  cases h with
  | settled h => exact .settled h
  | opened hlt h => exact .opened (Nat.lt_of_lt_of_le hlt hle) h

/-- Only blocks in shorter texts count. -/
theorem congr {x : Scanner (List Stmt) → Outcome α} {block block' : Scanner (List Stmt)} (h : Asks high x)
    (hblock : ∀ t : Text, t.length < high → block t = block' t) : x block = x block' := by
  cases h with
  | settled h => rw [h, h]
  | opened hlt h => rw [h, h, bind_apply, bind_apply, hblock _ hlt]

/-- The place of the block is known from what is done. -/
theorem length_lt {x : Scanner (List Stmt) → Outcome α} {make : List Stmt → Text → α} (hx : Asks high x)
    (h : Opened x t make) : t.length < high := by
  -- a block that can be read from `t` on and from nowhere else
  let problem : Problem := ⟨.expectedString, .region (.next 0)⟩
  let probe : Scanner (List Stmt) := fun u => if u = t then .ok [] u else .error problem u
  have hprobe : x probe = .ok (make [] t) t := h.of_ok (if_pos rfl)
  cases hx with
  | settled hsettled =>
    have hfail : x (fun u => .error problem u) = .error problem t := h.of_error rfl
    cases hprobe.symm.trans ((hsettled _).trans ((hsettled _).symm.trans hfail))
  | @opened t' make' hlt h' =>
    by_cases ht : t' = t
    · rwa [← ht]
    · have hfail : x probe = .error problem t' := h'.of_error (if_neg ht)
      cases hprobe.symm.trans hfail

/-! ## Putting scanners together -/

protected theorem const (x : Scanner α) : Asks high fun _ => x s := .settled fun _ => rfl

protected theorem block (hlt : s.length < high) : Asks high fun block => block s := by
  have hopened : Opened (fun block => block s) s fun body _ => body := by
    intro block
    dsimp only
    rw [bind_apply]
    cases block s <;> rfl
  exact .opened hlt hopened

/-- What reads no block comes first. -/
theorem bind {x : Scanner β} {f : β → Scanner (List Stmt) → Scanner α}
    (hf : ∀ b s', x s = .ok b s' → Asks high fun block => f b block s') :
    Asks high fun block => (x >>= fun b => f b block) s := by
  simp only [bind_apply]
  cases hx : x s with
  | ok b s' => exact hf b s' hx
  | error problem s' => exact .settled fun _ => rfl

/-- What consumes nothing comes first. -/
theorem look {x : Scanner β} {g : Text → β} {f : β → Scanner (List Stmt) → Scanner α}
    (hx : ∀ s, x s = .ok (g s) s) (hf : Asks high fun block => f (g s) block s) :
    Asks high fun block => (x >>= fun b => f b block) s := by
  simp only [bind_of_ok (hx s)]
  exact hf

/-- What consumes nothing comes last. -/
theorem andThen {x : Scanner (List Stmt) → Scanner β} {f : β → Scanner α} {g : β → Text → α}
    (hx : Asks high fun block => x block s) (hf : ∀ b rest, f b rest = .ok (g b rest) rest) :
    Asks high fun block => (x block >>= f) s := by
  cases hx with
  | settled h =>
    simp only [bind_apply, h _]
    exact .settled fun _ => rfl
  | @opened t make hlt h =>
    have hopened : Opened (fun block => (x block >>= f) s) t fun body rest => g (make body rest) rest := by
      intro block
      dsimp only
      rw [bind_apply, h block, bind_apply, bind_apply]
      cases block t with
      | ok body rest => exact hf _ _
      | error problem rest => rfl
    exact .opened hlt hopened

theorem ite {c : Prop} [Decidable c] {x y : Scanner (List Stmt) → Scanner α}
    (hx : c → Asks high fun block => x block s) (hy : ¬ c → Asks high fun block => y block s) :
    Asks high fun block => (if c then x block else y block) s := by
  by_cases h : c
  · simpa only [h, if_true] using hx h
  · simpa only [h, if_false] using hy h

theorem guard {c : Prop} [Decidable c] {fault : Fault} {x : Scanner (List Stmt) → Scanner α}
    (hx : ¬ c → Asks high fun block => x block s) :
    Asks high fun block => (if c then failHere fault >>= fun _ : Unit => x block else x block) s :=
  .ite (fun _ => .bind fun _ _ h => by cases h) hx

end Asks

/-! ## Statements -/

/-- A style rule without a selector list is refused before its block is read. -/
theorem asks_scanRule {selector : Text} (htext : statementText s = .ok selector s') (start : Nat) :
    Asks s.length fun block => scanRule block selector start s' := by
  refine .look (fun _ => rfl) (.guard fun hne => .andThen (.block ?_) fun _ _ => rfl)
  refine length_lt_of_statementText htext ?_
  rintro rfl
  exact hne rfl

theorem asks_scanDeclarationOrRule (dialect : Dialect) (s : Text) :
    Asks s.length fun block => scanDeclarationOrRule dialect block s :=
  .look (fun _ => rfl) <| .bind fun _ _ htext => .look (fun _ => rfl) <|
    .ite (fun _ => asks_scanRule htext _) fun _ => .const _

section AtRules

variable (hlt : s.length < high) (start : Nat)

include hlt

theorem asks_scanMedia : Asks high fun block => scanMedia block start s := by
  refine .bind fun text s' htext => .guard fun _ => .andThen (.block ?_) fun _ _ => rfl
  exact Nat.lt_of_le_of_lt (Consumes.statementText htext).length_le hlt

theorem asks_scanOtherAtRule (name : Text) : Asks high fun block => scanOtherAtRule block name start s := by
  refine .bind fun text s' htext => .look (fun _ => rfl) ?_
  refine .ite (fun _ => .andThen (.block ?_) fun _ _ => rfl) fun _ => .const _
  exact Nat.lt_of_le_of_lt (Consumes.statementText htext).length_le hlt

theorem asks_scanAtRoot : Asks high fun block => scanAtRoot block start s := by
  refine .look (fun _ => rfl) (.guard fun _ => .look (fun _ => rfl) ?_)
  refine .ite (fun _ => .andThen (.block hlt) fun _ _ => rfl) fun _ => .look (fun _ => rfl) ?_
  refine .bind fun selector s' htext => .look (fun _ => rfl) (.guard fun _ => ?_)
  exact .andThen ((asks_scanRule htext _).mono hlt.le) fun _ _ => rfl

theorem asks_skipLessVariable : Asks high fun block => skipLessVariable block s := by
  refine .bind fun _ s' hcolon => .bind fun _ s'' htrivia => .look (fun _ => rfl) ?_
  refine .ite (fun _ => ?_) fun _ => .const _
  have hle : s''.length ≤ s.length :=
    ((Consumes.trivia htrivia).trans (Consumes.expectChar ':' hcolon)).length_le
  simp only [discard_eq]
  exact .andThen (.block (Nat.lt_of_le_of_lt hle hlt)) fun _ _ => rfl

end AtRules

theorem asks_scanScssAtRule (s : Text) : Asks s.length fun block => scanScssAtRule block s := by
  refine .look (fun _ => rfl) (.bind fun name s' hname => ?_)
  have hlt : s'.length < s.length := length_lt_of_scanAtRuleName hname
  refine .ite (fun _ => .const _) fun _ => ?_
  refine .ite (fun _ => .andThen (asks_scanAtRoot hlt _) fun _ _ => rfl) fun _ => ?_
  refine .ite (fun _ => .const _) fun _ => ?_
  refine .ite (fun _ => .andThen (asks_scanMedia hlt _) fun _ _ => rfl) fun _ => ?_
  cases severity? name with
  | none => exact .andThen (asks_scanOtherAtRule hlt _ name) fun _ _ => rfl
  | some severity => exact .const _

theorem asks_scanScssStatement (s : Text) : Asks s.length fun block => scanScssStatement block s :=
  .look (fun _ => rfl) <| .look atInterpolation_apply <| .ite (fun _ => asks_scanScssAtRule s) fun _ =>
    .look (fun _ => rfl) <| .ite (fun _ => .const _) fun _ =>
      .andThen (asks_scanDeclarationOrRule .scss s) fun _ _ => rfl

theorem asks_scanLessAtRule (s : Text) : Asks s.length fun block => scanLessAtRule block s := by
  refine .look (fun _ => rfl) (.bind fun name s' hname => .look (fun _ => rfl) ?_)
  have hlt : s'.length < s.length := length_lt_of_scanAtRuleName hname
  refine .ite (fun _ => .andThen (asks_skipLessVariable hlt) fun _ _ => rfl) fun _ => ?_
  exact .ite (fun _ => .andThen (asks_scanMedia hlt _) fun _ _ => rfl) fun _ =>
    .andThen (asks_scanOtherAtRule hlt _ name) fun _ _ => rfl

theorem asks_scanLessStatement (s : Text) : Asks s.length fun block => scanLessStatement block s := by
  refine .look (fun _ => rfl) (.look atInterpolation_apply (.ite (fun _ => asks_scanLessAtRule s) fun _ => ?_))
  refine .bind fun out s' hextend => ?_
  -- what turns out not to be an extend is read once more from the same place on
  obtain ⟨extend, rfl, -⟩ | ⟨rfl, rfl⟩ := reads_scanExtendDeclaration (pure []) hextend
  · exact .const _
  · exact .andThen (asks_scanDeclarationOrRule .less _) fun _ _ => rfl

/-- **A statement reads one block at most**, and that from further on in the text. -/
theorem asks_scanStatement (dialect : Dialect) (s : Text) :
    Asks s.length fun block => scanStatement dialect block s := by
  cases dialect with
  | scss => exact asks_scanScssStatement s
  | less => exact asks_scanLessStatement s

/-! ## Bodies -/

/-- Only statements read blocks. -/
theorem settled_or_scanStatement (dialect : Dialect) (inBlock : Bool) (s : Text) :
    (∃ outcome, Settled (scanItem dialect · inBlock s) outcome) ∨
      ∀ block, scanItem dialect block inBlock s =
        (do return some (← scanStatement dialect block)) (s.dropWhile isBlank) := by
  simp only [Settled, scanItem, blanks, skipWhile_bind, peek_bind]
  generalize s.dropWhile isBlank = s'
  cases s' with
  | nil => exact .inl ⟨_, fun _ => rfl⟩
  | cons c s' =>
    by_cases hbrace : c = '}'
    · subst hbrace
      exact .inl ⟨_, fun _ => rfl⟩
    by_cases hsemicolon : c = ';'
    · subst hsemicolon
      exact .inl ⟨_, fun _ => rfl⟩
    simp only [List.head?_cons]
    simp only [atSilentComment, atLoudComment, lookingAt_bind]
    cases hsilent : "//".toList.isPrefixOf (c :: s') with
    | true => exact .inl ⟨_, fun _ => rfl⟩
    | false =>
      simp only [Bool.false_eq_true, if_false, lookingAt_bind]
      cases hloud : "/*".toList.isPrefixOf (c :: s') with
      | true => exact .inl ⟨_, fun _ => rfl⟩
      | false => exact .inr fun _ => rfl

/-- **What comes next in a body reads one block at most**, and that from further on in the text. With a block it
is no end of the body. -/
theorem exists_of_scanItem (dialect : Dialect) (inBlock : Bool) (s : Text) :
    (∃ outcome, Settled (scanItem dialect · inBlock s) outcome) ∨
      ∃ (t : Text) (make : List Stmt → Text → List Stmt), t.length < s.length ∧
        Opened (scanItem dialect · inBlock s) t fun body rest => some (make body rest) := by
  obtain h | h := settled_or_scanStatement dialect inBlock s
  · exact .inl h
  cases asks_scanStatement dialect (s.dropWhile isBlank) with
  | @settled outcome hsettled =>
    refine .inl ?_
    cases outcome with
    | ok stmts rest => exact ⟨_, fun block => (h block).trans (bind_of_ok (hsettled block))⟩
    | error problem rest => exact ⟨_, fun block => (h block).trans (bind_of_error (hsettled block))⟩
  | @opened t make hlt hopened =>
    have hle : (s.dropWhile isBlank).length ≤ s.length := (List.dropWhile_suffix isBlank).length_le
    refine .inr ⟨t, make, Nat.lt_of_lt_of_le hlt hle, fun block => (h block).trans ?_⟩
    rw [bind_apply, hopened block, bind_apply, bind_apply]
    cases block t <;> rfl

theorem asks_scanItem (dialect : Dialect) (inBlock : Bool) (s : Text) :
    Asks s.length (scanItem dialect · inBlock s) := by
  obtain ⟨_, h⟩ | ⟨t, make, hlt, h⟩ := exists_of_scanItem dialect inBlock s
  · exact .settled h
  · exact .opened hlt h

/-- The statements of a stylesheet or, if `inBlock`, those up to the brace that closes a block. -/
def scanBody (dialect : Dialect) (inBlock : Bool) : Scanner (List Stmt) :=
  gatherAll (scanItem dialect (scanBlock dialect) inBlock)

/-- A text has no more blocks within each other than characters. -/
theorem scanBlockTo_congr {n m : Nat} (hn : s.length ≤ n) (hm : s.length ≤ m) :
    scanBlockTo dialect n s = scanBlockTo dialect m s := by
  induction n generalizing m s with
  | zero =>
    obtain rfl := List.length_eq_zero_iff.mp (Nat.le_zero.mp hn)
    cases m <;> rfl
  | succ n ih =>
    cases m with
    | zero =>
      obtain rfl := List.length_eq_zero_iff.mp (Nat.le_zero.mp hm)
      rfl
    | succ m =>
      rw [scanBlockTo, scanBlockTo, bind_apply, bind_apply]
      cases hbrace : expectChar '{' s with
      | error problem s' => rfl
      | ok u s' =>
        obtain rfl := expectChar_eq_ok.mp hbrace
        refine gatherAll_congr fun u hu => (asks_scanItem dialect true u).congr fun t ht => ?_
        have ht' : t.length ≤ s'.length := ht.le.trans hu
        exact ih (ht'.trans (Nat.le_of_succ_le_succ hn)) (ht'.trans (Nat.le_of_succ_le_succ hm))

/-- **A block is a body in braces**, whose blocks are read in the same way. No depth is too deep. -/
theorem scanBlock_eq (dialect : Dialect) : scanBlock dialect = (do expectChar '{'; scanBody dialect true) := by
  funext s
  rw [scanBlock, scanBlockTo_congr le_rfl (Nat.le_succ _), scanBlockTo, bind_apply, bind_apply]
  cases hbrace : expectChar '{' s with
  | error problem s' => rfl
  | ok u s' =>
    obtain rfl := expectChar_eq_ok.mp hbrace
    refine gatherAll_congr fun u hu => (asks_scanItem dialect true u).congr fun t ht => ?_
    exact scanBlockTo_congr ((ht.le.trans hu).trans (Nat.le_succ _)) le_rfl

theorem scanBlock_cons (dialect : Dialect) (t : Text) :
    scanBlock dialect ('{' :: t) = scanBody dialect true t := by
  have hbrace : expectChar '{' ('{' :: t) = .ok () t := expectChar_eq_ok.mpr rfl
  rw [scanBlock_eq, bind_of_ok hbrace]

theorem consumes_scanBlock (dialect : Dialect) : Consumes (scanBlock dialect) :=
  (finds_scanBlock dialect).consumes

theorem consumes_scanBody (dialect : Dialect) (inBlock : Bool) : Consumes (scanBody dialect inBlock) :=
  .gatherAll (finds_scanItem (finds_scanBlock dialect) dialect inBlock).consumes

end NestedCss.Stylesheet
