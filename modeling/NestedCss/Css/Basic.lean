import NestedCss.Text.Basic

/-!
# Flat CSS

The statements of the output: style rules are no longer nested, and what stands in front of a block is
final.

* `Css.Head`: what stands in front of a block, or a statement without one;
* `Css`: a statement with the statements in its block.

Both have the type of selector lists as a parameter, since the selectors of a rule are known only once
all extends are.
-/

namespace NestedCss

namespace Css

/-- A statement without its block. -/
inductive Head (σ : Type) where
  | rule (selectors : σ)
  | media (query : Text)
  | blockAtRule (name params : Text)
  | plainAtRule (name params : Text)
  /-- A frame of `@keyframes`, whose selector is neither nested nor extended. -/
  | keyframe (selector : Text)
  | declaration (property value : Text)
  /-- A comment and the column of the source that it started in. -/
  | comment (text : Text) (column : Nat)
  deriving DecidableEq, Repr

namespace Head

variable {σ τ : Type}

/-- Whether the statement is a style rule. -/
def isRule : Head σ → Bool
  | .rule _ => true
  | _ => false

/-- Whether the statement is a `@media`. -/
def isMedia : Head σ → Bool
  | .media _ => true
  | _ => false

/-- Whether the statement can end a group of statements. -/
def endsGroups : Head σ → Bool
  | .rule _ | .media _ | .blockAtRule .. | .plainAtRule .. => true
  | .keyframe _ | .declaration .. | .comment .. => false

/-- The statement with other selector lists. -/
def map (f : σ → τ) : Head σ → Head τ
  | .rule selectors => .rule (f selectors)
  | .media query => .media query
  | .blockAtRule name params => .blockAtRule name params
  | .plainAtRule name params => .plainAtRule name params
  | .keyframe selector => .keyframe selector
  | .declaration property value => .declaration property value
  | .comment text column => .comment text column

end Head

end Css

/-- A statement of the output with its block. A statement without a block has an empty one. An empty
line follows a statement that ends a group. -/
inductive Css (σ : Type) where
  | node (head : Css.Head σ) (groupEnd : Bool) (body : List (Css σ))
  deriving Repr

namespace Css

variable {σ : Type}

/-- A statement without its block. -/
def head : Css σ → Head σ
  | .node head _ _ => head

/-- Whether a statement ends a group. -/
def groupEnd : Css σ → Bool
  | .node _ groupEnd _ => groupEnd

/-- The statements in the block. -/
def body : Css σ → List (Css σ)
  | .node _ _ body => body

end Css

end NestedCss
