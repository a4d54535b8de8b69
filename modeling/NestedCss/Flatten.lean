import NestedCss.AtRule
import NestedCss.Css.Tree
import NestedCss.Extend.Store
import NestedCss.MediaQuery
import NestedCss.Selector.Nesting
import NestedCss.Stylesheet.Stmt

/-!
# Flattening

Takes the nesting out of a stylesheet. Selectors are resolved against the rules around them, at-rules
move out of style rules, a `@media` in another takes over its query, and every style rule is registered
in the store of extends.

* `Flatten.Context`: what the statements around a statement mean for it;
* `Flatten.State`: the tree, the store and the messages so far;
* `Flatten.addRule`, `Flatten.addMedia`, `Flatten.addAtRule`: statements with a block, whose children
  are added by a given function;
* **`Flatten.addStmt`**: one statement with all that it holds.
-/

namespace NestedCss.Flatten

open Css (Head NodeId)
open Extend (ContainerId RuleId Store)

/-! ## Context and state -/

/-- The source that statements were read from. -/
structure Origin where
  dialect : Dialect
  text : Text
  source : Source

namespace Origin

/-- The bytes of a region. -/
def spanOf (o : Origin) (r : Region) : Span := o.source.spanOf r

/-- The column in which a region starts. -/
def columnOf (o : Origin) (r : Region) : Nat := (Position.ofOffset o.text (o.spanOf r).start).column

end Origin

/-- The innermost style rule around a statement. -/
structure RuleContext where
  /-- The selectors that child rules nest under, without markers of extends. -/
  selectors : List Selector
  /-- The rule to which extends written in its body belong. -/
  id : RuleId

/-- What the statements around a statement mean for it. -/
structure Context where
  /-- The statement of the output that declarations are added to. -/
  parent : Option NodeId := none
  rule : Option RuleContext := none
  /-- Whether an `@at-root` stands between the statement and the innermost style rule. -/
  atRoot : Bool := false
  /-- The queries of the `@media` rules around the statement, merged. -/
  query : Option Text := none
  /-- The at-rules with a block around the statement, outermost first. -/
  containers : List ContainerId := []
  inKeyframes : Bool := false
  inAtRule : Bool := false

/-- Whether a style rule is in effect. -/
def Context.hasRule (c : Context) : Bool := !c.atRoot && c.rule.isSome

/-- A message for the author. -/
structure LogEntry where
  severity : Severity
  message : Text
  span : Span
  deriving DecidableEq, Repr

/-- What was built so far. -/
structure State where
  tree : Css.Tree RuleId
  store : Store
  log : List LogEntry

/-- Builds the output, or reports what is wrong with the stylesheet. -/
abbrev Builder := EStateM Diagnosis State

namespace Builder

/-- Adds a statement without a block. -/
def addLeaf (head : Head RuleId) (parent : Option NodeId) : Builder Unit :=
  modify fun s => { s with tree := (s.tree.add head parent).2 }

/-- Adds a statement with a block. -/
def addBlock (head : Head RuleId) (parent : Option NodeId) (through : Head RuleId → Bool) :
    Builder NodeId :=
  modifyGet fun s =>
    let (i, tree) := s.tree.addBlock head parent through
    (i, { s with tree })

/-- Registers a rule. -/
def addRule (selectors : List Selector) (containers : List ContainerId) : Builder RuleId :=
  modifyGet fun s =>
    let (id, store) := s.store.addRule selectors containers
    (id, { s with store })

/-- Registers an at-rule with a block. -/
def addContainer : Builder ContainerId :=
  modifyGet fun s =>
    let (id, store) := s.store.addContainer
    (id, { s with store })

/-- Registers an extend that is written in a rule. -/
def addMarker (id : RuleId) (marker : Extend.Marker) : Builder Unit :=
  modify fun s => { s with store := s.store.addMarker id marker }

/-- Sends a message. -/
def log (entry : LogEntry) : Builder Unit := modify fun s => { s with log := s.log ++ [entry] }

/-- Marks the last statement as the end of a group, unless a style rule is in effect. -/
def endGroup (c : Context) : Builder Unit :=
  if c.hasRule then pure () else modify fun s => { s with tree := s.tree.endGroup c.parent }

end Builder

open Builder

/-! ## Statements without a block -/

/-- A declaration needs something to stand in. LESS ignores one that has nothing. -/
def addDeclaration (o : Origin) (c : Context) (property value : Text) (region : Region) :
    Builder Unit := do
  if c.hasRule || c.inAtRule || c.inKeyframes then
    addLeaf (.declaration property value) c.parent
  else match o.dialect with
    | .scss => throw ⟨.declarationOutsideRule, o.spanOf region⟩
    | .less => return ()

/-- An at-rule without a block. Whether a `@charset` is needed is decided anew for the output. -/
def addPlainAtRule (c : Context) (name params : Text) : Builder Unit := do
  if !AtRule.isCharset name then addLeaf (.plainAtRule name params) c.parent

/-- An extend belongs to the style rule in effect. -/
def addExtend (o : Origin) (c : Context) (dialect : Dialect) (targets : Text) (region : Region) :
    Builder Unit := do
  match if c.hasRule then c.rule else none with
  | some rule => addMarker rule.id ⟨dialect, targets⟩
  | none =>
    match dialect with
    | .scss => throw ⟨.extendOutsideRule, o.spanOf region⟩
    | .less =>
      log ⟨.warning, "&:extend() is only allowed inside a rule and has been ignored.".toList,
        o.spanOf region⟩

/-- A message, which goes without its quotes. -/
def addMessage (o : Origin) (severity : Severity) (text : Text) (region : Region) :
    Builder Unit := do
  match severity with
  | .error => throw ⟨.custom (Text.unquote text), o.spanOf region⟩
  | _ => log ⟨severity, Text.unquote text, o.spanOf region⟩

/-! ## Statements with a block -/

/-- A frame of `@keyframes`. -/
def addKeyframe (c : Context) (selector : Text) (body : Context → Builder Unit) : Builder Unit := do
  let i ← addBlock (.keyframe (Text.collapse selector)) c.parent Head.isRule
  body { c with parent := some i }

/-- A style rule. Its children nest under the selectors as they will be written. -/
def addRule (o : Origin) (c : Context) (selector : Text) (prelude : Region)
    (body : Context → Builder Unit) : Builder Unit := do
  if c.inKeyframes then return ← addKeyframe c selector body
  let snippet := Source.ofSnippet selector (o.spanOf prelude)
  let list ← match Selector.readList ⟨true, o.dialect = .scss⟩ snippet with
    | .ok list => pure list
    | .error diagnosis => throw diagnosis
  let parents := (c.rule.map RuleContext.selectors).getD []
  let selectors := Selector.combine parents list (!c.atRoot)
  let id ← Builder.addRule selectors c.containers
  let selectors := match o.dialect with
    | .scss => selectors
    | .less => Selector.stripExtends selectors
  let i ← addBlock (.rule id) c.parent Head.isRule
  body { c with parent := some i, rule := some ⟨selectors, id⟩, atRoot := false }
  endGroup c

/-- Adds a block within an at-rule that was just added. If a style rule is in effect, its declarations
need a copy of that rule to stand in, which is a rule of its own as far as extends are concerned. -/
def addCopied (c : Context) (body : Context → Builder Unit) : Builder Unit := do
  match if c.hasRule then c.rule else none with
  | none => body c
  | some rule =>
    let id ← Builder.addRule rule.selectors c.containers
    let i ← addBlock (.rule id) c.parent fun _ => false
    body { c with parent := some i, rule := some ⟨rule.selectors, id⟩ }

/-- A `@media`. One within another leaves it and takes over its query. -/
def addMedia (c : Context) (query : Text) (body : Context → Builder Unit) : Builder Unit := do
  let merged := match c.query with
    | some outer => MediaQuery.merge outer query
    | none => query
  let container ← addContainer
  let i ← addBlock (.media merged) c.parent fun head =>
    head.isRule || (c.query.isSome && head.isMedia)
  addCopied { c with
    parent := some i, query := some merged, containers := c.containers ++ [container] } body
  endGroup c

/-- Any other at-rule with a block. -/
def addAtRule (c : Context) (name params : Text) (body : Context → Builder Unit) :
    Builder Unit := do
  if AtRule.isCharset name then return ()
  let container ← addContainer
  let i ← addBlock (.blockAtRule name params) c.parent Head.isRule
  let isKeyframes := AtRule.isKeyframes name
  let inner := { c with
    parent := some i, containers := c.containers ++ [container],
    inKeyframes := c.inKeyframes || isKeyframes, inAtRule := c.inAtRule || !isKeyframes }
  if inner.inKeyframes then body inner else addCopied inner body
  endGroup c

/-- What stands in an `@at-root` leaves the style rules around it, but not the at-rules. -/
def addAtRoot (c : Context) (body : Context → Builder Unit) : Builder Unit := do
  let tree := (← get).tree
  body { c with parent := c.parent.bind (tree.climb Head.isRule), atRoot := true }

/-! ## Stylesheets -/

mutual

/-- **Adds a statement** and all that it holds to the output. -/
def addStmt (o : Origin) : Stmt → Context → Builder Unit
  | .rule selector prelude _ body, c => addRule o c selector prelude (addStmts o body)
  | .declaration property value region, c => addDeclaration o c property value region
  | .media query _ body, c => addMedia c query (addStmts o body)
  | .blockAtRule name params _ body, c => addAtRule c name params (addStmts o body)
  | .plainAtRule name params _, c => addPlainAtRule c name params
  | .extend dialect targets region, c => addExtend o c dialect targets region
  | .atRoot _ body, c => addAtRoot c (addStmts o body)
  | .comment text region, c => addLeaf (.comment text (o.columnOf region)) c.parent
  | .message severity text region, _ => addMessage o severity text region

/-- Adds statements in order. -/
def addStmts (o : Origin) : List Stmt → Context → Builder Unit
  | [], _ => return ()
  | stmt :: rest, c => do
    addStmt o stmt c
    addStmts o rest c

end

/-- What is there before the first statement. -/
def State.initial (dialect : Dialect) : State := ⟨.empty, .empty dialect, []⟩

/-- The output, once all extends are applied. -/
def State.finish (s : State) : List (Css (List Selector)) :=
  (s.tree.map s.store.resolve.selectors).finish

end NestedCss.Flatten
