import NestedCss.Source.Basic

/-!
# Cursors

A `Cursor` walks over the tokens of a source one by one and can be put anywhere, also past the end.

* `Cursor.next?`, `Cursor.peekAt?`: reading with and without moving;
* `Cursor.currentSpan`, `Cursor.previousSpan`, `Cursor.spanFrom`: the bytes around the cursor.
-/

namespace NestedCss

/-- An index into the tokens of a source. -/
structure Cursor where
  source : Source
  index : Nat := 0

namespace Cursor

/-- The character `n` tokens further on. -/
def peekAt? (c : Cursor) (n : Nat) : Option Char :=
  (c.source.tokens[c.index + n]?).map Token.char

/-- The character at the cursor. -/
def peek? (c : Cursor) : Option Char := c.peekAt? 0

/-- The character at the cursor and the cursor behind it. At the end the cursor stays. -/
def next? (c : Cursor) : Option Char × Cursor :=
  match c.peek? with
  | none => (none, c)
  | some char => (some char, ⟨c.source, c.index + 1⟩)

/-- The characters from the cursor on. -/
def rest (c : Cursor) : Text := c.source.chars.drop c.index

/-- The cursor behind everything. One that was past the end stays there. -/
def toEnd (c : Cursor) : Cursor := ⟨c.source, max c.index c.source.size⟩

/-- The characters between a token and the cursor. -/
def textFrom (c : Cursor) (start : Nat) : Text := (c.source.chars.take c.index).drop start

/-- The bytes of the token at the cursor. -/
def currentSpan (c : Cursor) : Span := c.source.spanAt c.index

/-- The bytes of the token before the cursor. -/
def previousSpan (c : Cursor) : Span := c.source.spanAt (c.index - 1)

/-- The bytes from the token at `start` up to the one before the cursor. -/
def spanFrom (c : Cursor) (start : Nat) : Span := c.source.spanFrom start c.index

end Cursor

end NestedCss
