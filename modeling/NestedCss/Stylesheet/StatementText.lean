import NestedCss.Scanner.Lexeme

/-!
# The text of a statement

A statement goes up to the first `{`, `;` or `}` outside of brackets and strings. Its text is the
source with every comment replaced by a space; interpolation is left in place.

* `Scanner.statementPiece`: one piece of the text, with the brackets that are open behind it;
* **`Scanner.statementText`**: all of the text;
* `Scanner.separator`: what ends a statement without a block.
-/

namespace NestedCss.Scanner

/-- Whether a character ends the text of a statement when no bracket is open. -/
def endsStatement (c : Char) : Bool := c == '{' || c == ';' || c == '}'

/-- One piece of a statement's text: a string, an interpolation, an escaped character, a comment or
a single character. `closers` are the brackets that have to come, the innermost first; a closing
bracket that is not due is like any other character. -/
def statementPiece (closers : List Char) : Scanner (Option (Text × List Char)) := do
  match ← peek with
  | none => return none
  | some c =>
    if closers.isEmpty && endsStatement c then return none
    if isQuote c then return some (← quotedText, closers)
    if ← atLoudComment then
      loudComment
      return some ([' '], closers)
    if closers.isEmpty && (← atSilentComment) then
      silentComment
      return some ([' '], closers)
    if ← atInterpolation then return some (← rawInterpolation, closers)
    skip
    if c == '\\' then
      let escaped ← peek
      skip
      return some (c :: escaped.toList, closers)
    if isOpening c then return some ([c], opposite c :: closers)
    if closers.head? == some c then return some ([c], closers.tail)
    return some ([c], closers)

/-- **The text of a statement**, up to its end or to its block. -/
def statementText : Scanner Text := do
  let (text, closers) ← gather statementPiece []
  match closers with
  | [] => return text
  | closer :: _ => failHere (.expected closer)

/-- Consumes the `;` of a statement. The last one in a block may go without. -/
def separator : Scanner Unit := do
  blanks
  match ← peek with
  | none => return ()
  | some '}' => return ()
  | some _ => expectChar ';'

end NestedCss.Scanner
