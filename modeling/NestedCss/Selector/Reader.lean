import NestedCss.Scanner.Lexeme
import NestedCss.Text.Quoting
import NestedCss.Selector.Basic

/-!
# Reading selectors

Only the shape of each fragment is recognized. Nothing checks that the fragments make sense together.

* `Selector.scanFragment`: one fragment, by the character that it starts with;
* `Selector.scanList`: a comma-separated list;
* **`Selector.readList`**: the selectors of a snippet of a file.
-/

namespace NestedCss.Selector

open Scanner

/-- Which fragments may appear in a selector, besides those that may appear anywhere. -/
structure Allowance where
  parent : Bool
  placeholder : Bool
  deriving DecidableEq, Repr

/-! ## Names -/

/-- Whether a name could go on with the next character. -/
def atNameChar : Scanner Bool := do
  match ← peek with
  | none => return false
  | some c => if isNameChar c || c == '\\' then return true else atInterpolation

/-- A name, which may hold escapes and interpolation. -/
def scanName : Scanner Text := do
  let name ← gatherAll do
    match ← peek with
    | none => return none
    | some c =>
      if ← atInterpolation then
        return some (← rawInterpolation)
      else if c == '\\' then
        return some (← rawEscape)
      else if isNameChar c then
        skip
        return some [c]
      else
        return none
  if name.isEmpty then failHere .expectedIdentifier
  return name

/-- Whether the `|` that separates a namespace comes next, and not the operator `|=`. -/
def atNamespaceBar : Scanner Bool := fun s =>
  match s with
  | '|' :: '=' :: _ => .ok false s
  | '|' :: _ => .ok true s
  | _ => .ok false s

/-- The rest of a type selector that begins with `name`, which may be that of a namespace. -/
def scanTypeRest (name : Text) : Scanner Fragment := do
  if !(← atNamespaceBar) then return .type name
  skip
  if ← scanChar '*' then return .type (name ++ "|*".toList)
  return .type (name ++ '|' :: (← scanName))

/-- An interpolation, which starts a name if more of one follows. -/
def scanInterpolated : Scanner Fragment := do
  let raw ← rawInterpolation
  if ← atNameChar then return .type (raw ++ (← scanName))
  return .interpolation raw

/-! ## Attributes -/

/-- The operator of an attribute selector. -/
def scanOperator : Scanner AttributeOperator := do
  let first ← peek
  skip
  let finish (operator : AttributeOperator) : Scanner AttributeOperator := do
    expectChar '='
    return operator
  match first with
  | some '=' => return .equals
  | some '~' => finish .includes
  | some '|' => finish .dash
  | some '^' => finish .startsWith
  | some '$' => finish .endsWith
  | some '*' => finish .contains
  | _ => fun s => failAt .expectedOperator (.last s.length) s

/-- An attribute value without quotes. -/
def scanBareValue : Scanner Text := do
  let value ← gatherAll do
    match ← peek with
    | none => return none
    | some c =>
      if c == ']' || isAsciiSpace c then
        return none
      else if c == '\\' then
        return some (← rawEscape)
      else
        skip
        return some [c]
  if value.isEmpty then failHere .expectedIdentifier
  return value

/-- The name of an attribute, with its namespace if it has one. -/
def scanAttributeName : Scanner Text := do
  let anyNamespace ← scanChar '*'
  if anyNamespace then expectChar '|'
  let name ← scanName
  let name := if anyNamespace then "*|".toList ++ name else name
  if ← atNamespaceBar then
    skip
    return name ++ '|' :: (← scanName)
  return name

/-- The letter behind the value of an attribute. -/
def scanModifier : Scanner (Option Char) := do
  match ← peek with
  | none => return none
  | some c =>
    if c.isAlpha then
      skip
      trivia
      return some c
    else
      return none

/-- The rest of an attribute selector, behind its `[`. -/
def scanAttribute : Scanner Attribute := do
  trivia
  let name ← scanAttributeName
  trivia
  if ← scanChar ']' then return ⟨name, none⟩
  let operator ← scanOperator
  trivia
  let quote := (← peek).elim Quote.bare Quote.ofChar
  let value ← if quote = .bare then scanBareValue else stringContents
  trivia
  let modifier ← scanModifier
  expectChar ']'
  return ⟨name, some ⟨operator, value, quote, modifier⟩⟩

/-! ## Other fragments -/

/-- A pseudo-class or pseudo-element. -/
def scanPseudo : Scanner Pseudo := do
  expectChar ':'
  let isElement ← scanChar ':'
  let name ← scanName
  if ← scanChar '(' then
    return ⟨name, isElement, some (Text.collapse (← balanced '(' ')'))⟩
  return ⟨name, isElement, none⟩

/-- A parent reference. -/
def scanNesting (allowed : Allowance) : Scanner Fragment := do
  if !allowed.parent then failHere .parentNotAllowed
  expectChar '&'
  if ← atNameChar then return .nesting (some (← scanName))
  return .nesting none

/-- A placeholder. -/
def scanPlaceholder (allowed : Allowance) : Scanner Fragment := do
  if !allowed.placeholder then failHere .placeholderNotAllowed
  skip
  return .placeholder (← scanName)

/-- The fragment that starts with `c`, which comes next and is neither a comma nor the end. -/
def scanFragmentAt (allowed : Allowance) (c : Char) : Scanner Fragment := do
  if isBlank c then
    blanks
    return .space
  if ← atLoudComment then
    loudComment
    return .space
  if ← atInterpolation then
    return ← scanInterpolated
  if isQuote c then
    return .quoted (← stringContents) (.ofChar c)
  match c with
  | '&' => scanNesting allowed
  | '%' => scanPlaceholder allowed
  | ':' => return .pseudo (← scanPseudo)
  | '>' => skip; return .combinator .child
  | '+' => skip; return .combinator .nextSibling
  | '~' => skip; return .combinator .followingSibling
  | '.' => skip; return .className (← scanName)
  | '#' => skip; return .id (← scanName)
  | '[' => skip; return .attribute (← scanAttribute)
  | '|' => skip; return .type ('|' :: (← scanName))
  | '*' => skip; scanTypeRest ['*']
  | _ =>
    if isNameStart c || c == '-' || c == '\\' then scanTypeRest (← scanName)
    else failHere .expectedSelector

/-- The next fragment of a selector, if it goes on. -/
def scanFragment (allowed : Allowance) : Scanner (Option (List Fragment)) := do
  match ← peek with
  | none => return none
  | some c => if c == ',' then return none else return some [← scanFragmentAt allowed c]

/-! ## Lists -/

/-- One selector of a list. It cannot be empty; a list with an empty member is refused as a
whole. -/
def scanMember (allowed : Allowance) : Scanner Selector := do
  let s := ofFragments (← gatherAll (scanFragment allowed))
  if s.isEmpty then throw ⟨.expectedSelector, .whole⟩
  return s

/-- A comma-separated list that goes on to the end. -/
def scanList (allowed : Allowance) : Scanner (List Selector) := do
  let member : Bool → Scanner (Option (List Selector × Bool))
    | false => return none
    | true => do
      let s ← scanMember allowed
      return some ([s], ← scanChar ',')
  let (list, _) ← gather member true
  if (← peek).isSome then failHere .expectedSelector
  return list

/-- **The selectors of a snippet**, or what is wrong with it and where. -/
def readList (allowed : Allowance) (source : Source) : Except Diagnosis (List Selector) :=
  match scanList allowed source.chars with
  | .ok list _ => .ok list
  | .error problem _ => .error (source.diagnose problem)

end NestedCss.Selector
