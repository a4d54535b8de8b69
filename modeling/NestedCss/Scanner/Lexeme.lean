import NestedCss.Scanner.Basic

/-!
# What all parts of a stylesheet are made of

White space, comments, names, escapes, strings and interpolation. Nothing is decoded: escapes and
strings are kept as they are written, since the output has to repeat them unchanged.

* `Scanner.trivia`: white space and comments;
* `Scanner.identifier`, `Scanner.rawEscape`, `Scanner.stringContents`;
* `Scanner.balanced`: up to the bracket that closes an open one, `Scanner.rawInterpolation`.
-/

namespace NestedCss.Scanner

/-! ## White space and comments -/

/-- Consumes blanks. -/
def blanks : Scanner Unit := skipWhile isBlank

/-- Whether a comment that ends with its line comes next. -/
def atSilentComment : Scanner Bool := lookingAt "//".toList

/-- Whether a comment in `/*` and `*/` comes next. -/
def atLoudComment : Scanner Bool := lookingAt "/*".toList

/-- Consumes a comment up to the end of its line. -/
def silentComment : Scanner Unit := skipWhile (· != '\n')

/-- Consumes the rest of a comment up to its `*/`, where `star` says that a `*` came last. -/
def loudCommentRest (star : Bool) : Scanner Unit
  | [] => .error ⟨.unclosedComment, .region (.next 0)⟩ []
  | c :: rest => if star && c == '/' then .ok () rest else loudCommentRest (c == '*') rest

/-- Consumes a comment in `/*` and `*/`. -/
def loudComment : Scanner Unit := do
  skip
  skip
  loudCommentRest false

/-- Consumes white space and comments of both kinds. -/
def trivia : Scanner Unit := do
  let (_ : List Unit) ← gatherAll do
    blanks
    if ← atSilentComment then
      silentComment
      return some []
    else if ← atLoudComment then
      loudComment
      return some []
    else
      return none

/-! ## Names -/

/-- Consumes at most `n` hexadecimal digits. -/
def skipHexDigits : Nat → Scanner Unit
  | 0, s => .ok () s
  | _, [] => .ok () []
  | n + 1, c :: rest => if isHexDigit c then skipHexDigits n rest else .ok () (c :: rest)

/-- A backslash with up to six hexadecimal digits and an optional blank behind them, or with any
other single character. -/
def rawEscape : Scanner Text := rawText do
  expectChar '\\'
  match ← peek with
  | none => failHere .expectedExpression
  | some '\n' => failHere .expectedEscape
  | some c =>
    if isHexDigit c then
      skipHexDigits 6
      if ((← peek).map isBlank).getD false then skip
    else
      skip

/-- A name without interpolation, such as that of an at-rule. -/
def identifier : Scanner Text := do
  let hyphens ← rawText (skipWhile (· == '-'))
  match ← peek with
  | some c =>
    if !(isNameStart c || c == '\\') then
      if hyphens == "--".toList then return hyphens else failHere .expectedIdentifier
  | none => if hyphens == "--".toList then return hyphens else failHere .expectedIdentifier
  let name ← gatherAll do
    match ← peek with
    | none => return none
    | some c =>
      if c == '\\' then
        return some (← rawEscape)
      else if isNameChar c then
        skip
        return some [c]
      else
        return none
  return hyphens ++ name

/-! ## Strings -/

/-- The contents of a string up to `quote`, which is consumed. A backslash protects the character
behind it; a line end without one is an error. -/
def stringRest (quote : Char) : Scanner Text
  | [] => .error ⟨.unclosedString quote, .region (.next 0)⟩ []
  | '\\' :: [] => .error ⟨.unclosedString quote, .region (.next 0)⟩ []
  | '\\' :: c :: rest =>
    match stringRest quote rest with
    | .ok contents rest' => .ok ('\\' :: c :: contents) rest'
    | .error problem rest' => .error problem rest'
  | c :: rest =>
    if c = quote then .ok [] rest
    else if c = '\n' then
      .error ⟨.unclosedString quote, .region (.next (rest.length + 1))⟩ (c :: rest)
    else match stringRest quote rest with
      | .ok contents rest' => .ok (c :: contents) rest'
      | .error problem rest' => .error problem rest'

/-- The contents of a quoted string. -/
def stringContents : Scanner Text := do
  let quote ← peek
  skip
  match quote with
  | none => failHere .expectedString
  | some c => if isQuote c then stringRest c else failHere .expectedString

/-- A quoted string as it is written. -/
def quotedText : Scanner Text := rawText stringContents

/-! ## Brackets and interpolation -/

/-- The text up to the `closing` that balances an `opening` which was consumed already. The
`closing` is consumed and not part of the text. Brackets in strings do not count. -/
def balanced (opening closing : Char) : Scanner Text := do
  let (contents, _) ← gather (step opening closing) 1
  return contents
where
  /-- One piece of the text, and how many brackets are open behind it. -/
  step (opening closing : Char) : Nat → Scanner (Option (Text × Nat))
    | 0 => return none
    | depth + 1 => do
      match ← peek with
      | none => failHere (.expected closing)
      | some c =>
        if isQuote c then
          return some (← quotedText, depth + 1)
        skip
        if c == opening then
          return some ([c], depth + 2)
        else if c == closing then
          return some (if depth = 0 then [] else [c], depth)
        else
          return some ([c], depth + 1)

/-- Whether `#` or `@` with an opening brace comes next. -/
def atInterpolation : Scanner Bool := fun s =>
  match s with
  | c :: '{' :: _ => .ok (c == '#' || c == '@') s
  | _ => .ok false s

/-- An interpolation as it is written. Nothing is evaluated. -/
def rawInterpolation : Scanner Text := rawText do
  skip
  expectChar '{'
  discard (balanced '{' '}')

end NestedCss.Scanner
