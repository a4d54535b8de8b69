/-!
# Text and its characters

Stylesheets, selectors and the finished CSS are read and written from the front, so they are lists
of characters.

* `isNameStart`, `isNameChar`: what a CSS name is made of;
* `isBlank`: what separates tokens, `isAsciiSpace` and `isSpace`: what is collapsed and trimmed;
* `opposite`: the bracket that closes or opens a given one;
* `Text.byteLength`, `Text.isBoundary`: the bytes that a text takes in UTF-8;
* `Text.trim`, `Text.sameIgnoringCase`, `Text.splitAtFirst`, `Text.splitAtLast`.
-/

namespace NestedCss

/-- A text, as the list of its characters. -/
abbrev Text := List Char

/-! ## Characters -/

/-- A name starts with a letter, an underscore or any character beyond ASCII. -/
def isNameStart (c : Char) : Bool := c == '_' || c.isAlpha || 0x80 ≤ c.toNat

/-- A name goes on with digits and hyphens too. -/
def isNameChar (c : Char) : Bool := isNameStart c || c.isDigit || c == '-'

/-- Blanks separate tokens. Every other line end is read as `\n`, so three characters are enough. -/
def isBlank (c : Char) : Bool := c == ' ' || c == '\t' || c == '\n'

/-- The white space of ASCII without the vertical tab. -/
def isAsciiSpace (c : Char) : Bool := isBlank c || c == '\x0c' || c == '\r'

/-- The ranges of code points with the Unicode property `White_Space`. -/
def spaceRanges : List (Nat × Nat) :=
  [(0x09, 0x0d), (0x20, 0x20), (0x85, 0x85), (0xa0, 0xa0), (0x1680, 0x1680), (0x2000, 0x200a),
   (0x2028, 0x2029), (0x202f, 0x202f), (0x205f, 0x205f), (0x3000, 0x3000)]

/-- White space of any kind, which trimming removes. -/
def isSpace (c : Char) : Bool :=
  spaceRanges.any fun (low, high) => low ≤ c.toNat && c.toNat ≤ high

/-- A single or a double quote. -/
def isQuote (c : Char) : Bool := c == '"' || c == '\''

/-- A hexadecimal digit, as an escape may hold up to six of. -/
def isHexDigit (c : Char) : Bool :=
  c.isDigit || ('a' ≤ c && c ≤ 'f') || ('A' ≤ c && c ≤ 'F')

/-- An opening bracket. -/
def isOpening (c : Char) : Bool := c == '(' || c == '[' || c == '{'

/-- A closing bracket. -/
def isClosing (c : Char) : Bool := c == ')' || c == ']' || c == '}'

/-- The bracket that pairs with a given one. Any other character is its own opposite. -/
def opposite (c : Char) : Char :=
  match c with
  | '(' => ')'
  | ')' => '('
  | '[' => ']'
  | ']' => '['
  | '{' => '}'
  | '}' => '{'
  | c => c

/-! ## Whole texts -/

namespace Text

/-- The number of bytes that the text takes in UTF-8. -/
def byteLength : Text → Nat
  | [] => 0
  | c :: rest => c.utf8Size + byteLength rest

/-- Whether a byte offset lies between characters or at either end. -/
def isBoundary : Text → Nat → Bool
  | _, 0 => true
  | [], _ + 1 => false
  | c :: rest, offset + 1 =>
    c.utf8Size ≤ offset + 1 && isBoundary rest (offset + 1 - c.utf8Size)

/-- The text without the white space that it starts with. -/
def trimStart (t : Text) : Text := t.dropWhile isSpace

/-- The text without the white space that it ends with. -/
def trimEnd (t : Text) : Text := (t.reverse.dropWhile isSpace).reverse

/-- The text without white space at either end. -/
def trim (t : Text) : Text := trimEnd (trimStart t)

/-- The text with its ASCII capitals made small. -/
def toLower (t : Text) : Text := t.map Char.toLower

/-- Whether the texts differ at most in the case of ASCII letters. -/
def sameIgnoringCase (a b : Text) : Bool := toLower a == toLower b

/-- The text before and after the first `c`. -/
def splitAtFirst (c : Char) (t : Text) : Option (Text × Text) :=
  match t.dropWhile (· != c) with
  | [] => none
  | _ :: after => some (t.takeWhile (· != c), after)

/-- The text before and after the last `c`. -/
def splitAtLast (c : Char) (t : Text) : Option (Text × Text) :=
  (splitAtFirst c t.reverse).map fun (after, before) => (before.reverse, after.reverse)

/-- The lines of the text. A line end at the very end starts no further line. -/
def lines : Text → List Text
  | [] => []
  | c :: rest =>
    if c = '\n' then [] :: lines rest
    else match lines rest with
      | [] => [[c]]
      | line :: more => (c :: line) :: more

end Text

end NestedCss
