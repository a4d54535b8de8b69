import NestedCss.Text.Basic

/-!
# Text outside and inside of quotes

A quote opens a string wherever it stands outside of one, and a backslash inside protects the next
character. `Quoting` is what a reader has to remember to tell the two apart.

* `Text.collapse`: runs of white space outside of strings become single spaces;
* `Text.unquote`: one layer of matching quotes is removed;
* `Text.splitTopLevel`: the parts between separators that stand outside of strings and brackets.
-/

namespace NestedCss

/-- Where a reader of text stands with respect to strings. -/
inductive Quoting where
  /-- Outside of strings. -/
  | plain
  /-- Inside a string that ends at the next `quote`. -/
  | within (quote : Char)
  /-- Inside a string and behind a backslash. -/
  | escaped (quote : Char)
  deriving DecidableEq, Repr

/-- Where the reader stands after one more character. -/
def Quoting.after (state : Quoting) (c : Char) : Quoting :=
  match state with
  | .plain => if isQuote c then .within c else .plain
  | .within q => if c = '\\' then .escaped q else if c = q then .plain else .within q
  | .escaped q => .within q

namespace Text

/-- Collapses the rest of a text of which something was written already iff `started`, and from
which white space is still to be written iff `gap`. -/
def collapseFrom (state : Quoting) (started gap : Bool) : Text → Text
  | [] => []
  | c :: rest =>
    if state = .plain ∧ isAsciiSpace c then collapseFrom .plain started started rest
    else (if gap then [' ', c] else [c]) ++ collapseFrom (state.after c) true false rest

/-- Every run of white space outside of quoted strings becomes a single space, and none is left at
either end. -/
def collapse (t : Text) : Text := collapseFrom .plain false false t

/-- Trims the text and removes one layer of matching quotes, if there is one. -/
def unquote (t : Text) : Text :=
  match trim t with
  | [] => []
  | q :: rest => if isQuote q && rest.getLast? == some q then rest.dropLast else q :: rest

/-- The depth of brackets after one more character outside of strings. Closing brackets without an
opening one do not count. -/
def depthAfter (depth : Nat) (c : Char) : Nat :=
  if isOpening c then depth + 1 else if isClosing c then depth - 1 else depth

/-- Splits the rest of a text at its top-level separators: the part that comes first, which may
have begun earlier, and the parts after it. Quotes and brackets never separate. -/
def splitFrom (separator : Char) (state : Quoting) (depth : Nat) : Text → Text × List Text
  | [] => ([], [])
  | c :: rest =>
    if state = .plain ∧ depth = 0 ∧ c = separator ∧ ¬ (isQuote c || isOpening c || isClosing c) then
      let (part, parts) := splitFrom separator .plain 0 rest
      ([], part :: parts)
    else
      let depth := if state = .plain then depthAfter depth c else depth
      let (part, parts) := splitFrom separator (state.after c) depth rest
      (c :: part, parts)

/-- The parts between the separators that stand outside of quotes and brackets, each trimmed.
Empty parts are dropped. -/
def splitTopLevel (t : Text) (separator : Char) : List Text :=
  let (part, parts) := splitFrom separator .plain 0 t
  ((part :: parts).map trim).filter fun part => !part.isEmpty

end Text

end NestedCss
