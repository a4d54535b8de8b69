import NestedCss.Source.Basic
import NestedCss.Dialect

/-!
# Statements

A stylesheet as its author nested it. Selectors, values and parameters are text; nothing in them is
evaluated.

* `Stmt`: the statements of both dialects;
* `Stmt.region`: the stretch of the source that a statement takes.
-/

namespace NestedCss

/-- How urgent a message from the stylesheet is. -/
inductive Severity where
  | debug
  | warning
  | error
  deriving DecidableEq, Repr

/-- A statement of a stylesheet. -/
inductive Stmt where
  /-- A style rule. Its selector list, which takes `prelude`, is read once the rules around it are
  known. -/
  | rule (selector : Text) (prelude region : Region) (body : List Stmt)
  | declaration (property value : Text) (region : Region)
  | media (query : Text) (region : Region) (body : List Stmt)
  /-- Any other at-rule with a block. -/
  | blockAtRule (name params : Text) (region : Region) (body : List Stmt)
  /-- An at-rule without a block. -/
  | plainAtRule (name params : Text) (region : Region)
  /-- `@extend targets;` in SCSS and `&:extend(targets);` in LESS. -/
  | extend (dialect : Dialect) (targets : Text) (region : Region)
  /-- `@at-root`. The short form with a selector holds a single rule. -/
  | atRoot (region : Region) (body : List Stmt)
  /-- A comment in `/*` and `*/`. -/
  | comment (text : Text) (region : Region)
  /-- `@debug`, `@warn` and `@error`. -/
  | message (severity : Severity) (text : Text) (region : Region)
  deriving Repr

/-- The stretch of the source that a statement takes. -/
def Stmt.region : Stmt → Region
  | .rule _ _ r _ => r
  | .declaration _ _ r => r
  | .media _ r _ => r
  | .blockAtRule _ _ r _ => r
  | .plainAtRule _ _ r => r
  | .extend _ _ r => r
  | .atRoot r _ => r
  | .comment _ r => r
  | .message _ _ r => r

end NestedCss
