import NestedCss.Flatten

/-!
# Runs of the flattening

What a stylesheet that is accepted does to the state, statement by statement. A statement with a block is
entered, which gives the context of its body, then the body runs, then it is left.

* `Adds`: what statements without a block do;
* `Enters`: how a block is entered, `leave`: how it is left;
* `Run`: statements one after the other;
* **`addStmts_eq_ok`**: the runs are what `addStmts` does.
-/

namespace NestedCss

/-- The statements in the block. -/
def Stmt.body : Stmt → List Stmt
  | .rule _ _ _ body | .media _ _ body | .blockAtRule _ _ _ body | .atRoot _ body => body
  | _ => []

namespace Flatten

open Css (Head NodeId)
open Extend (ContainerId RuleId Store)

variable {o : Origin} {c : Context} {s s' : State} {stmt : Stmt} {stmts : List Stmt}

/-! ## Entering and leaving blocks -/

/-- The style rule in effect. -/
def Context.ruleInEffect (c : Context) : Option RuleContext := if c.hasRule then c.rule else none

theorem Context.ruleInEffect_eq_some {rule : RuleContext} :
    c.ruleInEffect = some rule ↔ c.hasRule = true ∧ c.rule = some rule := by
  unfold ruleInEffect
  split <;> simp_all

theorem Context.ruleInEffect_eq_none : c.ruleInEffect = none ↔ c.hasRule = false := by
  unfold ruleInEffect
  cases h : c.hasRule
  · simp
  · have hrule : c.rule.isSome := by simpa [Context.hasRule] using (Bool.and_eq_true_iff.mp h).2
    simp [Option.isSome_iff_ne_none.mp hrule]

/-- The selectors that the children of a rule nest under. -/
def nestable (dialect : Dialect) (selectors : List Selector) : List Selector :=
  match dialect with
  | .scss => selectors
  | .less => Selector.stripExtends selectors

/-- The query of a `@media`, within the one around it. -/
def Context.mergedQuery (c : Context) (query : Text) : Text :=
  match c.query with
  | some outer => MediaQuery.merge outer query
  | none => query

/-- What a `@media` leaves: style rules, and the `@media` around it, whose query it has taken over. -/
def Context.leftByMedia (c : Context) (head : Head RuleId) : Bool :=
  head.isRule || (c.query.isSome && head.isMedia)

/-- Adds a block and goes into it. -/
def State.enterBlock (s : State) (c : Context) (head : Head RuleId) (through : Head RuleId → Bool) :
    Context × State :=
  let (i, tree) := s.tree.addBlock head c.parent through
  ({ c with parent := some i }, { s with tree })

/-- Goes into a style rule. -/
def enterRule (o : Origin) (c : Context) (selectors : List Selector) (s : State) : Context × State :=
  let (id, store) := s.store.addRule selectors c.containers
  State.enterBlock { s with store }
    { c with rule := some ⟨nestable o.dialect selectors, id⟩, atRoot := false } (.rule id) Head.isRule

/-- Goes into a copy of the style rule in effect, if there is one. -/
def enterCopy (c : Context) (s : State) : Context × State :=
  match c.ruleInEffect with
  | none => (c, s)
  | some rule =>
    let (id, store) := s.store.addRule rule.selectors c.containers
    State.enterBlock { s with store } { c with rule := some ⟨rule.selectors, id⟩ } (.rule id) fun _ => false

theorem enterCopy_of_none (h : c.ruleInEffect = none) (s : State) : enterCopy c s = (c, s) := by
  rw [enterCopy, h]

theorem enterCopy_of_some {rule : RuleContext} (h : c.ruleInEffect = some rule) (s : State) :
    enterCopy c s = State.enterBlock { s with store := (s.store.addRule rule.selectors c.containers).2 }
      { c with rule := some ⟨rule.selectors, s.store.rules.length⟩ } (.rule s.store.rules.length)
      fun _ => false := by
  rw [enterCopy, h]
  rfl

/-- Adds a `@media` and goes into it. -/
def openMedia (c : Context) (query : Text) (s : State) : Context × State :=
  let (container, store) := s.store.addContainer
  let (c₁, s₁) := State.enterBlock { s with store } c (.media (c.mergedQuery query)) c.leftByMedia
  ({ c₁ with query := some (c.mergedQuery query), containers := c.containers ++ [container] }, s₁)

/-- Goes into a `@media`, and there into a copy of the style rule in effect. -/
def enterMedia (c : Context) (query : Text) (s : State) : Context × State :=
  enterCopy (openMedia c query s).1 (openMedia c query s).2

/-- Adds any other at-rule and goes into it. -/
def openAtRule (c : Context) (name params : Text) (s : State) : Context × State :=
  let (container, store) := s.store.addContainer
  let (c₁, s₁) := State.enterBlock { s with store } c (.blockAtRule name params) Head.isRule
  ({ c₁ with
    containers := c.containers ++ [container]
    inKeyframes := c.inKeyframes || AtRule.isKeyframes name
    inAtRule := c.inAtRule || !AtRule.isKeyframes name }, s₁)

/-- Goes into any other at-rule, and there into a copy of the style rule in effect, unless it is within
`@keyframes`. -/
def enterAtRule (c : Context) (name params : Text) (s : State) : Context × State :=
  let r := openAtRule c name params s
  if r.1.inKeyframes then r else enterCopy r.1 r.2

/-- How the block of a statement is entered. -/
inductive Enters (o : Origin) (c : Context) (s : State) : Stmt → Context × State → Prop
  | keyframe {selector : Text} {prelude region : Region} {body : List Stmt}
      (h : c.inKeyframes = true) :
      Enters o c s (.rule selector prelude region body)
        (s.enterBlock c (.keyframe (Text.collapse selector)) Head.isRule)
  | rule {selector : Text} {prelude region : Region} {body : List Stmt} {list : List Selector}
      (h : c.inKeyframes = false)
      (hread : Selector.readList ⟨true, o.dialect = .scss⟩
        (Source.ofSnippet selector (o.spanOf prelude)) = .ok list) :
      Enters o c s (.rule selector prelude region body) (enterRule o c
        (Selector.combine ((c.rule.map RuleContext.selectors).getD []) list (!c.atRoot)) s)
  | media {query : Text} {region : Region} {body : List Stmt} :
      Enters o c s (.media query region body) (enterMedia c query s)
  | atRule {name params : Text} {region : Region} {body : List Stmt}
      (h : AtRule.isCharset name = false) :
      Enters o c s (.blockAtRule name params region body) (enterAtRule c name params s)
  | atRoot {region : Region} {body : List Stmt} :
      Enters o c s (.atRoot region body)
        ({ c with parent := c.parent.bind (s.tree.climb Head.isRule), atRoot := true }, s)

/-- What is left to do behind the block of a statement. -/
def leave (c : Context) (stmt : Stmt) (s : State) : State :=
  if c.hasRule then s
  else match stmt with
    | .rule .. => if c.inKeyframes then s else { s with tree := s.tree.endGroup c.parent }
    | .media .. | .blockAtRule .. => { s with tree := s.tree.endGroup c.parent }
    | _ => s

@[simp] theorem leave_store (c : Context) (stmt : Stmt) (s : State) : (leave c stmt s).store = s.store := by
  unfold leave
  split
  · rfl
  · split
    · split <;> rfl
    all_goals rfl

/-! ## Statements without a block -/

/-- The state with one more statement without a block. -/
def State.addLeaf (s : State) (head : Head RuleId) (c : Context) : State :=
  { s with tree := (s.tree.add head c.parent).2 }

/-- What a statement without a block does, or a block that is passed over. -/
inductive Adds (o : Origin) (c : Context) (s : State) : Stmt → State → Prop
  | declaration {property value : Text} {region : Region}
      (h : (c.hasRule || c.inAtRule || c.inKeyframes) = true) :
      Adds o c s (.declaration property value region) (s.addLeaf (.declaration property value) c)
  | dropped {property value : Text} {region : Region}
      (h : (c.hasRule || c.inAtRule || c.inKeyframes) = false) (hless : o.dialect = .less) :
      Adds o c s (.declaration property value region) s
  | atRule {name params : Text} {region : Region} (h : AtRule.isCharset name = false) :
      Adds o c s (.plainAtRule name params region) (s.addLeaf (.plainAtRule name params) c)
  | charset {name params : Text} {region : Region} (h : AtRule.isCharset name = true) :
      Adds o c s (.plainAtRule name params region) s
  | charsetBlock {name params : Text} {region : Region} {body : List Stmt}
      (h : AtRule.isCharset name = true) : Adds o c s (.blockAtRule name params region body) s
  | extend {dialect : Dialect} {targets : Text} {region : Region} {rule : RuleContext}
      (h : c.ruleInEffect = some rule) :
      Adds o c s (.extend dialect targets region)
        { s with store := s.store.addMarker rule.id ⟨dialect, targets⟩ }
  | ignored {targets : Text} {region : Region} (h : c.ruleInEffect = none) :
      Adds o c s (.extend .less targets region) { s with log := s.log ++ [⟨.warning,
        "&:extend() is only allowed inside a rule and has been ignored.".toList, o.spanOf region⟩] }
  | comment {text : Text} {region : Region} :
      Adds o c s (.comment text region) (s.addLeaf (.comment text (o.columnOf region)) c)
  | message {severity : Severity} {text : Text} {region : Region} (h : severity ≠ .error) :
      Adds o c s (.message severity text region)
        { s with log := s.log ++ [⟨severity, Text.unquote text, o.spanOf region⟩] }

/-! ## Runs -/

/-- In context `c`, the statements take one state to the other. -/
inductive Run (o : Origin) : Context → List Stmt → State → State → Prop
  | nil {c : Context} {s : State} : Run o c [] s s
  | plain {c : Context} {stmt : Stmt} {rest : List Stmt} {s s₁ s' : State} :
      Adds o c s stmt s₁ → Run o c rest s₁ s' → Run o c (stmt :: rest) s s'
  | block {c : Context} {stmt : Stmt} {rest : List Stmt} {s s₂ s' : State} {r : Context × State} :
      Enters o c s stmt r → Run o r.1 stmt.body r.2 s₂ → Run o c rest (leave c stmt s₂) s' →
      Run o c (stmt :: rest) s s'

theorem bind_eq_ok {x : Builder Unit} {f : Unit → Builder Unit} :
    (x >>= f) s = .ok () s' ↔ ∃ s₁, x s = .ok () s₁ ∧ f () s₁ = .ok () s' := by
  change EStateM.bind x f s = .ok () s' ↔ _
  unfold EStateM.bind
  cases x s <;> simp

theorem pure_eq_ok : (pure () : Builder Unit) s = .ok () s' ↔ s = s' := by
  change EStateM.Result.ok () s = .ok () s' ↔ _
  simp

theorem endGroup_eq (c : Context) (s : State) : Builder.endGroup c s =
    .ok () (if c.hasRule then s else { s with tree := s.tree.endGroup c.parent }) := by
  rw [Builder.endGroup]
  split <;> rfl

theorem addCopied_eq (c : Context) (body : Context → Builder Unit) (s : State) :
    addCopied c body s = body (enterCopy c s).1 (enterCopy c s).2 := by
  unfold addCopied enterCopy Context.ruleInEffect
  generalize (if c.hasRule then c.rule else none) = rule
  cases rule <;> rfl

theorem addMedia_eq (c : Context) (query : Text) (body : Context → Builder Unit) (s : State) :
    addMedia c query body s = (body (enterMedia c query s).1 >>= fun _ => Builder.endGroup c)
      (enterMedia c query s).2 := by
  unfold addMedia enterMedia openMedia
  change EStateM.bind (addCopied _ body) (fun _ => Builder.endGroup c) _ = _
  unfold EStateM.bind
  rw [addCopied_eq]
  rfl

theorem addAtRule_eq (c : Context) {name : Text} (params : Text) (body : Context → Builder Unit)
    (s : State) (h : AtRule.isCharset name = false) :
    addAtRule c name params body s =
      (body (enterAtRule c name params s).1 >>= fun _ => Builder.endGroup c)
        (enterAtRule c name params s).2 := by
  unfold addAtRule enterAtRule openAtRule
  rw [h, if_neg Bool.false_ne_true]
  dsimp only
  cases c.inKeyframes || AtRule.isKeyframes name with
  | true => rfl
  | false =>
    change EStateM.bind (addCopied _ body) (fun _ => Builder.endGroup c) _ = _
    unfold EStateM.bind
    rw [addCopied_eq]
    rfl

theorem addRule_eq_ok {selector : Text} {prelude : Region} {body : Context → Builder Unit}
    (h : c.inKeyframes = false) :
    addRule o c selector prelude body s = .ok () s' ↔ ∃ list,
      Selector.readList ⟨true, o.dialect = .scss⟩ (Source.ofSnippet selector (o.spanOf prelude)) =
        .ok list ∧
      (body (enterRule o c
          (Selector.combine ((c.rule.map RuleContext.selectors).getD []) list (!c.atRoot)) s).1 >>=
        fun _ => Builder.endGroup c) (enterRule o c
          (Selector.combine ((c.rule.map RuleContext.selectors).getD []) list (!c.atRoot)) s).2 =
        .ok () s' := by
  unfold addRule
  rw [if_neg (by simp [h])]
  cases hread : Selector.readList ⟨true, o.dialect = .scss⟩
      (Source.ofSnippet selector (o.spanOf prelude)) with
  | error diagnosis =>
    have hthrow : ∀ f : List Selector → Builder Unit, (throw diagnosis >>= f) s = .error diagnosis s :=
      fun _ => rfl
    simp [hthrow]
  | ok list =>
    constructor
    · exact fun hok => ⟨list, rfl, hok⟩
    · rintro ⟨_, hlist, hok⟩
      cases hlist
      exact hok

/-- What `addStmt` does with a statement. -/
inductive Step (o : Origin) (c : Context) (stmt : Stmt) (s : State) : State → Prop
  | plain {s' : State} (h : Adds o c s stmt s') : Step o c stmt s s'
  | block {r : Context × State} {s₂ : State} (h : Enters o c s stmt r)
      (hbody : addStmts o stmt.body r.1 r.2 = .ok () s₂) : Step o c stmt s (leave c stmt s₂)

theorem bind_endGroup_eq_ok {body : Builder Unit} :
    (body >>= fun _ => Builder.endGroup c) s = .ok () s' ↔ ∃ s₂, body s = .ok () s₂ ∧
      (if c.hasRule then s₂ else { s₂ with tree := s₂.tree.endGroup c.parent }) = s' := by
  rw [bind_eq_ok]
  refine exists_congr fun s₂ => and_congr_right fun _ => ?_
  rw [endGroup_eq]
  simp

theorem addStmt_rule {selector : Text} {prelude region : Region} {body : List Stmt} :
    addStmt o (.rule selector prelude region body) c s = .ok () s' ↔
      Step o c (.rule selector prelude region body) s s' := by
  change addRule o c selector prelude (addStmts o body) s = .ok () s' ↔ _
  cases hkeyframes : c.inKeyframes with
  | true =>
    have hadd : addRule o c selector prelude (addStmts o body) s =
        addStmts o body (s.enterBlock c (.keyframe (Text.collapse selector)) Head.isRule).1
          (s.enterBlock c (.keyframe (Text.collapse selector)) Head.isRule).2 := by
      rw [addRule, if_pos hkeyframes]
      rfl
    have hleave (s₂ : State) : leave c (.rule selector prelude region body) s₂ = s₂ := by
      simp [leave, hkeyframes]
    rw [hadd]
    constructor
    · exact fun h => hleave s' ▸ .block (.keyframe hkeyframes) h
    · rintro (⟨⟨⟩⟩ | ⟨henters, hbody⟩)
      rw [hleave]
      cases henters with
      | keyframe => exact hbody
      | rule h => simp [hkeyframes] at h
  | false =>
    have hleave (s₂ : State) : leave c (.rule selector prelude region body) s₂ =
        if c.hasRule then s₂ else { s₂ with tree := s₂.tree.endGroup c.parent } := by
      simp [leave, hkeyframes]
    rw [addRule_eq_ok hkeyframes]
    simp only [bind_endGroup_eq_ok, ← hleave]
    constructor
    · rintro ⟨list, hread, s₂, hbody, rfl⟩
      exact .block (.rule hkeyframes hread) hbody
    · rintro (⟨⟨⟩⟩ | ⟨henters, hbody⟩)
      cases henters with
      | keyframe h => simp [hkeyframes] at h
      | rule _ hread => exact ⟨_, hread, _, hbody, rfl⟩

theorem addStmt_media {query : Text} {region : Region} {body : List Stmt} :
    addStmt o (.media query region body) c s = .ok () s' ↔
      Step o c (.media query region body) s s' := by
  change addMedia c query (addStmts o body) s = .ok () s' ↔ _
  rw [addMedia_eq, bind_endGroup_eq_ok]
  constructor
  · rintro ⟨s₂, hbody, rfl⟩
    exact .block .media hbody
  · rintro (⟨⟨⟩⟩ | ⟨⟨⟩, hbody⟩)
    exact ⟨_, hbody, rfl⟩

theorem addStmt_blockAtRule {name params : Text} {region : Region} {body : List Stmt} :
    addStmt o (.blockAtRule name params region body) c s = .ok () s' ↔
      Step o c (.blockAtRule name params region body) s s' := by
  change addAtRule c name params (addStmts o body) s = .ok () s' ↔ _
  cases hcharset : AtRule.isCharset name with
  | true =>
    rw [addAtRule, if_pos hcharset, pure_eq_ok]
    constructor
    · rintro rfl
      exact .plain (.charsetBlock hcharset)
    · rintro (⟨⟨⟩⟩ | ⟨henters, -⟩)
      · rfl
      · cases henters with
        | atRule h => simp [hcharset] at h
  | false =>
    rw [addAtRule_eq c params _ s hcharset, bind_endGroup_eq_ok]
    constructor
    · rintro ⟨s₂, hbody, rfl⟩
      exact .block (.atRule hcharset) hbody
    · rintro (⟨⟨⟩⟩ | ⟨⟨⟩, hbody⟩)
      · simp_all
      · exact ⟨_, hbody, rfl⟩

/-- A statement without a block is not entered. -/
theorem step_iff_adds (h : ∀ r, ¬ Enters o c s stmt r) : Step o c stmt s s' ↔ Adds o c s stmt s' := by
  constructor
  · rintro (hadds | ⟨henters, -⟩)
    · exact hadds
    · exact absurd henters (h _)
  · exact .plain

theorem addStmt_declaration {property value : Text} {region : Region} :
    addStmt o (.declaration property value region) c s = .ok () s' ↔
      Adds o c s (.declaration property value region) s' := by
  change addDeclaration o c property value region s = .ok () s' ↔ _
  rw [addDeclaration]
  cases hcond : c.hasRule || c.inAtRule || c.inKeyframes with
  | true =>
    rw [if_pos rfl]
    constructor
    · rintro ⟨⟩
      exact .declaration hcond
    · intro h
      cases h with
      | declaration => rfl
      | dropped h => simp [hcond] at h
  | false =>
    rw [if_neg Bool.false_ne_true]
    cases hdialect : o.dialect with
    | scss =>
      constructor
      · rintro ⟨⟩
      · intro h
        cases h with
        | declaration h => simp [hcond] at h
        | dropped _ h => simp [hdialect] at h
    | less =>
      dsimp only
      rw [pure_eq_ok]
      constructor
      · rintro rfl
        exact .dropped hcond hdialect
      · intro h
        cases h with
        | declaration h => simp [hcond] at h
        | dropped => rfl

theorem addStmt_plainAtRule {name params : Text} {region : Region} :
    addStmt o (.plainAtRule name params region) c s = .ok () s' ↔
      Adds o c s (.plainAtRule name params region) s' := by
  change addPlainAtRule c name params s = .ok () s' ↔ _
  rw [addPlainAtRule]
  cases hcharset : AtRule.isCharset name with
  | true =>
    rw [if_neg (by simp), pure_eq_ok]
    constructor
    · rintro rfl
      exact .charset hcharset
    · intro h
      cases h with
      | atRule h => simp [hcharset] at h
      | charset => rfl
  | false =>
    rw [if_pos (by simp)]
    constructor
    · rintro ⟨⟩
      exact .atRule hcharset
    · intro h
      cases h with
      | atRule => rfl
      | charset h => simp [hcharset] at h

theorem addStmt_extend {dialect : Dialect} {targets : Text} {region : Region} :
    addStmt o (.extend dialect targets region) c s = .ok () s' ↔
      Adds o c s (.extend dialect targets region) s' := by
  change addExtend o c dialect targets region s = .ok () s' ↔ _
  unfold addExtend
  rw [← Context.ruleInEffect]
  cases hrule : c.ruleInEffect with
  | some rule =>
    constructor
    · rintro ⟨⟩
      exact .extend hrule
    · intro h
      cases h with
      | extend h =>
        rw [hrule] at h
        cases h
        rfl
      | ignored h => simp [hrule] at h
  | none =>
    cases dialect with
    | scss =>
      constructor
      · rintro ⟨⟩
      · intro h
        cases h with
        | extend h => simp [hrule] at h
    | less =>
      constructor
      · rintro ⟨⟩
        exact .ignored hrule
      · intro h
        cases h with
        | extend h => simp [hrule] at h
        | ignored => rfl

theorem addStmt_message {severity : Severity} {text : Text} {region : Region} :
    addStmt o (.message severity text region) c s = .ok () s' ↔
      Adds o c s (.message severity text region) s' := by
  change addMessage o severity text region s = .ok () s' ↔ _
  cases severity with
  | error =>
    constructor
    · intro h
      cases h
    · intro h
      cases h with
      | message h => exact absurd rfl h
  | debug | warning =>
    constructor
    · intro h
      cases h
      exact .message (by simp)
    · rintro ⟨⟩
      rfl

theorem addStmt_eq_ok : addStmt o stmt c s = .ok () s' ↔ Step o c stmt s s' := by
  cases stmt with
  | rule => exact addStmt_rule
  | media => exact addStmt_media
  | blockAtRule => exact addStmt_blockAtRule
  | atRoot region body =>
    rw [addStmt]
    have hleave (s₂ : State) : leave c (.atRoot region body) s₂ = s₂ := by simp [leave]
    constructor
    · exact fun h => hleave s' ▸ .block .atRoot h
    · rintro (⟨⟨⟩⟩ | ⟨⟨⟩, hbody⟩)
      rw [hleave]
      exact hbody
  | declaration => exact addStmt_declaration.trans (step_iff_adds (by rintro _ ⟨⟩)).symm
  | plainAtRule => exact addStmt_plainAtRule.trans (step_iff_adds (by rintro _ ⟨⟩)).symm
  | extend => exact addStmt_extend.trans (step_iff_adds (by rintro _ ⟨⟩)).symm
  | message => exact addStmt_message.trans (step_iff_adds (by rintro _ ⟨⟩)).symm
  | comment text region =>
    rw [addStmt, step_iff_adds (by rintro _ ⟨⟩)]
    constructor
    · rintro ⟨⟩
      exact .comment
    · rintro ⟨⟩
      rfl

theorem sizeOf_body_le (stmt : Stmt) : sizeOf stmt.body ≤ sizeOf stmt := by
  cases stmt <;> simp [Stmt.body] <;> omega

theorem run_of_addStmts : ∀ {stmts : List Stmt} {c : Context} {s s' : State},
    addStmts o stmts c s = .ok () s' → Run o c stmts s s'
  | [], c, s, s', h => by
    rw [addStmts, pure_eq_ok] at h
    exact h ▸ .nil
  | stmt :: rest, c, s, s', h => by
    rw [addStmts, bind_eq_ok] at h
    obtain ⟨s₁, hstmt, hrest⟩ := h
    cases addStmt_eq_ok.mp hstmt with
    | plain hadds => exact .plain hadds (run_of_addStmts hrest)
    | block henters hbody => exact .block henters (run_of_addStmts hbody) (run_of_addStmts hrest)
termination_by stmts => sizeOf stmts
decreasing_by
  all_goals
    have := sizeOf_body_le stmt
    simp only [List.cons.sizeOf_spec]
    omega

/-- **The runs are what `addStmts` does** with a stylesheet that it accepts. -/
theorem addStmts_eq_ok : addStmts o stmts c s = .ok () s' ↔ Run o c stmts s s' := by
  refine ⟨run_of_addStmts, fun h => ?_⟩
  induction h with
  | nil => rfl
  | plain hadds _ ih =>
    rw [addStmts, bind_eq_ok]
    exact ⟨_, addStmt_eq_ok.mpr (.plain hadds), ih⟩
  | block henters _ _ ihbody ih =>
    rw [addStmts, bind_eq_ok]
    exact ⟨_, addStmt_eq_ok.mpr (.block henters ihbody), ih⟩

/-! ## An example -/

/-- Where statements without a text come from. -/
def blank (dialect : Dialect) : Origin := ⟨dialect, [], Source.ofText []⟩

/-- `.a { b: c; @media x { @media y { d: e; } .f { g: h; } } i: j; }`. -/
def mixedSheet : List Stmt :=
  let r : Region := ⟨0, 0⟩
  [.rule ".a".toList r r [.declaration ['b'] ['c'] r,
    .media ['x'] r [.media ['y'] r [.declaration ['d'] ['e'] r],
      .rule ".f".toList r r [.declaration ['g'] ['h'] r]],
    .declaration ['i'] ['j'] r]]

/-- What can be decided of the state that a run ends in. -/
theorem exists_ok_of_run {p : State → Prop} [DecidablePred p] (h : (match addStmts o stmts c s with
    | .ok _ s' => decide (p s')
    | .error .. => false) = true) : ∃ s', addStmts o stmts c s = .ok () s' ∧ p s' := by
  cases hrun : addStmts o stmts c s with
  | ok _ s' =>
    rw [hrun] at h
    exact ⟨s', rfl, of_decide_eq_true h⟩
  | error => simp [hrun] at h

theorem exists_ok_mixedSheet :
    ∃ s, addStmts (blank .scss) mixedSheet {} (.initial .scss) = .ok () s := by
  have hrun : ∃ s, addStmts (blank .scss) mixedSheet {} (.initial .scss) = .ok () s ∧ True :=
    exists_ok_of_run (by decide +kernel)
  exact hrun.imp fun _ => And.left

end Flatten

end NestedCss
