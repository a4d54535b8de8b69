import NestedCss.AtRule
import NestedCss.Stylesheet.StatementText
import NestedCss.Stylesheet.Stmt
import NestedCss.Text.Quoting

/-!
# Reading stylesheets

What is not an at-rule, a variable or an extend is a declaration or a style rule, and which of the two
shows only behind its text. Blocks nest, so what reads a statement is given what reads a block.

* `Stylesheet.scanStatement`: one statement of a dialect;
* `Stylesheet.scanBlock`: a block, to a given depth;
* **`Stylesheet.read`**: the statements of a source.
-/

namespace NestedCss.Stylesheet

open Scanner

/-- The word that some at-rule of SCSS goes by and the message that it sends. -/
def severity? (name : Text) : Option Severity :=
  if name = "debug".toList then some .debug
  else if name = "warn".toList then some .warning
  else if name = "error".toList then some .error
  else none

/-! ## Statements of both dialects -/

/-- A comment in `/*` and `*/`. -/
def scanComment : Scanner Stmt := do
  let start ← mark
  let text ← rawText loudComment
  return .comment text (← regionFrom start)

/-- A style rule, behind the text of its selector list. -/
def scanRule (block : Scanner (List Stmt)) (selector : Text) (start : Nat) : Scanner Stmt := do
  let prelude ← regionFrom start
  let selector := Text.trimEnd selector
  if selector.isEmpty then failHere .expectedSelector
  let body ← block
  return .rule selector prelude (← regionFrom start) body

/-- A declaration with the given text, which is split at its first colon. -/
def scanDeclaration (text : Text) (region : Region) : Scanner Stmt := do
  match Text.splitAtFirst ':' text with
  | none => failAt (.expected '{') region
  | some (property, value) =>
    let property := Text.trim property
    let value := Text.collapse value
    if property.isEmpty then failAt .expectedIdentifier region
    if value.isEmpty then failAt .expectedExpression region
    separator
    return .declaration property value region

/-- Whether text that no block follows is a mixin call of LESS. -/
def isMixinCall (dialect : Dialect) (text : Text) : Bool :=
  dialect = .less && (text.head? == some '.' || text.head? == some '#')
    && !("#\x7b".toList.isPrefixOf text)

/-- A declaration or, if a block follows its text, a style rule. -/
def scanDeclarationOrRule (dialect : Dialect) (block : Scanner (List Stmt)) : Scanner Stmt := do
  let start ← mark
  let text ← statementText
  if ← nextIs '{' then return ← scanRule block text start
  let region ← regionFrom start
  if isMixinCall dialect (Text.trim text) then failAt .mixinCall region
  scanDeclaration text region

/-- The name of an at-rule and the white space behind it. -/
def scanAtRuleName : Scanner Text := do
  expectChar '@'
  let name ← identifier
  trivia
  return name

/-- A `@media`, behind its name. -/
def scanMedia (block : Scanner (List Stmt)) (start : Nat) : Scanner Stmt := do
  let query := Text.collapse (← statementText)
  if query.isEmpty then failHere .expectedIdentifier
  let body ← block
  return .media query (← regionFrom start) body

/-- An at-rule without a meaning of its own, behind its name. -/
def scanOtherAtRule (block : Scanner (List Stmt)) (name : Text) (start : Nat) : Scanner Stmt := do
  let params := Text.collapse (← statementText)
  if ← nextIs '{' then
    let body ← block
    return .blockAtRule name params (← regionFrom start) body
  separator
  return .plainAtRule name params (← regionFrom start)

/-- The rest of a statement as a message, and where it stands. -/
def scanMessage : Scanner (Text × Region) := do
  let start ← mark
  let text := Text.collapse (← statementText)
  let region ← regionFrom start
  separator
  return (text, region)

/-- The value of a variable up to its end. Variables are evaluated elsewhere and stand for no
CSS. -/
def skipValue : Scanner Unit := do
  discard statementText
  if ← nextIs '{' then failHere (.expected ';')
  separator

/-! ## SCSS -/

/-- An `@at-root`, behind its name. -/
def scanAtRoot (block : Scanner (List Stmt)) (start : Nat) : Scanner Stmt := do
  if ← nextIs '(' then failHere .atRootQuery
  if ← nextIs '{' then
    let body ← block
    return .atRoot (← regionFrom start) body
  let ruleStart ← mark
  let selector ← statementText
  if !(← nextIs '{') then failHere (.expected '{')
  let rule ← scanRule block selector ruleStart
  return .atRoot (← regionFrom start) [rule]

/-- The targets of an `@extend` without the flag `!optional`. -/
def withoutOptional (targets : Text) : Text :=
  match Text.splitAtLast '!' targets with
  | some (before, flag) =>
    if Text.sameIgnoringCase (Text.trim flag) "optional".toList then Text.trimEnd before else targets
  | none => targets

/-- An `@extend`, behind its name. -/
def scanExtend (start : Nat) : Scanner Stmt := do
  let targets := withoutOptional (Text.trim (← statementText))
  if targets.isEmpty then failHere .expectedTarget
  let region ← regionFrom start
  separator
  return .extend .scss targets region

/-- An at-rule of SCSS. -/
def scanScssAtRule (block : Scanner (List Stmt)) : Scanner (List Stmt) := do
  let start ← mark
  let name ← scanAtRuleName
  if AtRule.needsEvaluation name then
    failAt (.unsupportedRule name) (← regionFrom start)
  if name = "at-root".toList then return [← scanAtRoot block start]
  if name = "extend".toList then return [← scanExtend start]
  if name = "media".toList then return [← scanMedia block start]
  match severity? name with
  | some severity =>
    let (text, region) ← scanMessage
    return [.message severity text region]
  | none => return [← scanOtherAtRule block name start]

/-- A variable of SCSS. -/
def skipScssVariable : Scanner Unit := do
  expectChar '$'
  discard identifier
  trivia
  expectChar ':'
  skipValue

/-- A statement of SCSS. -/
def scanScssStatement (block : Scanner (List Stmt)) : Scanner (List Stmt) := do
  if (← nextIs '@') && !(← atInterpolation) then return ← scanScssAtRule block
  if ← nextIs '$' then
    skipScssVariable
    return []
  return [← scanDeclarationOrRule .scss block]

/-! ## LESS -/

/-- A variable of LESS, behind its name. Its value may be a block. -/
def skipLessVariable (block : Scanner (List Stmt)) : Scanner Unit := do
  expectChar ':'
  trivia
  if ← nextIs '{' then discard block else skipValue

/-- An at-rule or a variable of LESS. -/
def scanLessAtRule (block : Scanner (List Stmt)) : Scanner (List Stmt) := do
  let start ← mark
  let name ← scanAtRuleName
  if (← nextIs ':') && !AtRule.isPlainCss name then
    skipLessVariable block
    return []
  if name = "media".toList then return [← scanMedia block start]
  return [← scanOtherAtRule block name start]

/-- An extend written as a statement. Gives none and consumes nothing if it turns out to be part of
a selector. -/
def scanExtendDeclaration : Scanner (Option Stmt) := do
  let text ← get
  let start ← mark
  if !(← scan "&:extend(".toList) then return none
  let targets ← balanced '(' ')'
  let region ← regionFrom start
  blanks
  match ← peek with
  | some c =>
    if c == ';' || c == '}' then
      separator
      return some (.extend .less targets region)
    set text
    return none
  | none => return some (.extend .less targets region)

/-- A statement of LESS. -/
def scanLessStatement (block : Scanner (List Stmt)) : Scanner (List Stmt) := do
  if (← nextIs '@') && !(← atInterpolation) then return ← scanLessAtRule block
  match ← scanExtendDeclaration with
  | some extend => return [extend]
  | none => return [← scanDeclarationOrRule .less block]

/-! ## Blocks -/

/-- A statement that is neither a comment nor empty. Variables give no statement. -/
def scanStatement (dialect : Dialect) (block : Scanner (List Stmt)) : Scanner (List Stmt) :=
  match dialect with
  | .scss => scanScssStatement block
  | .less => scanLessStatement block

/-- The next item of a stylesheet or, if `inBlock`, of a block up to the brace that closes it. Gives
none at the end. -/
def scanItem (dialect : Dialect) (block : Scanner (List Stmt)) (inBlock : Bool) :
    Scanner (Option (List Stmt)) := do
  blanks
  match ← peek with
  | none => if inBlock then failHere (.expected '}') else return none
  | some '}' =>
    if !inBlock then failHere .unmatchedBrace
    skip
    return none
  | some ';' =>
    skip
    return some []
  | some _ =>
    if ← atSilentComment then
      silentComment
      return some []
    if ← atLoudComment then return some [← scanComment]
    return some (← scanStatement dialect block)

/-- A block in braces with at most `depth` blocks within each other. No text of that length has
more. -/
def scanBlockTo (dialect : Dialect) : Nat → Scanner (List Stmt)
  | 0 => do
    expectChar '{'
    return []
  | depth + 1 => do
    expectChar '{'
    gatherAll (scanItem dialect (scanBlockTo dialect depth) true)

/-- A block in braces. -/
def scanBlock (dialect : Dialect) : Scanner (List Stmt) := fun s => scanBlockTo dialect s.length s

/-- Statements up to the end of the text. -/
def scanStatements (dialect : Dialect) : Scanner (List Stmt) :=
  gatherAll (scanItem dialect (scanBlock dialect) false)

/-- A stylesheet, which may start with a byte-order mark. -/
def scan (dialect : Dialect) : Scanner (List Stmt) := do
  discard (scanChar '\ufeff')
  scanStatements dialect

/-- **The statements of a stylesheet**, or what is wrong with it and where. -/
def read (dialect : Dialect) (source : Source) : Except Diagnosis (List Stmt) :=
  match scan dialect source.chars with
  | .ok body _ => .ok body
  | .error problem _ => .error (source.diagnose problem)

end NestedCss.Stylesheet
