import NestedCss.Text.Basic

/-!
# Source texts and places in them

A `Source` is a file, or a snippet cut out of one, as a sequence of tokens: its characters, with
every kind of line end read as `\n`, and the byte offset of each in the text as it was given.
Offsets are natural numbers. In a file of less than 4 GiB all of them fit in 32 bits (`Source.offsets_lt`);
larger files, in which offsets of that width would wrap around, are not modelled.

* `Source.ofText`, `Source.ofSnippet`; `Source.chars`: what a scanner reads;
* `Region`: a stretch of a source by what is still to be read at its two ends, as scanners see it;
* `Source.spanOf`: the bytes that a region covers;
* `Position.ofOffset`, `Position.sourceLine`: lines and columns of the text as it was given.
-/

namespace NestedCss

/-! ## Spans of bytes -/

/-- A range of bytes of a file, which has less than 4 GiB. -/
structure Span where
  start : Nat
  stop : Nat
  deriving DecidableEq, Repr

namespace Span

/-- The number of bytes covered. -/
def length (s : Span) : Nat := s.stop - s.start

/-- The smallest span that covers both. -/
def union (a b : Span) : Span := ⟨min a.start b.start, max a.stop b.stop⟩

end Span

/-! ## Regions -/

/-- A stretch of a source. Either end is given by the number of characters still to be read there,
so a region means the same in every text that ends with the same characters. -/
structure Region where
  start : Nat
  stop : Nat
  deriving DecidableEq, Repr

namespace Region

/-- The character that comes next when `left` are still to be read. -/
def next (left : Nat) : Region := ⟨left, left - 1⟩

/-- The character read last when `left` are still to be read. -/
def last (left : Nat) : Region := ⟨left + 1, left⟩

end Region

/-! ## Tokens -/

/-- A character and the byte offset at which it was found, a number of 32 bits in a file of less than
4 GiB. -/
structure Token where
  char : Char
  offset : Nat
  deriving DecidableEq, Repr

/-- The tokens of a text whose first character has the given offset. A carriage return, alone or
with a line feed, and a form feed are read as line feeds. -/
def Token.list (offset : Nat) : Text → List Token
  | [] => []
  | '\r' :: '\n' :: rest => ⟨'\n', offset⟩ :: Token.list (offset + 2) rest
  | c :: rest =>
    ⟨if c = '\r' ∨ c = '\x0c' then '\n' else c, offset⟩ :: Token.list (offset + c.utf8Size) rest

/-! ## Sources -/

/-- A file or a snippet of one: its tokens, with offsets relative to the start of `span`, and the
bytes of the file that it stands for. -/
structure Source where
  tokens : List Token
  span : Span
  deriving DecidableEq, Repr

namespace Source

/-- The text of a snippet that covers the bytes `span` of a file. The text may be shorter than the
span, where comments were left out of it. -/
def ofSnippet (t : Text) (span : Span) : Source := ⟨Token.list 0 t, span⟩

/-- A text that is a file of its own. -/
def ofText (t : Text) : Source := ofSnippet t ⟨0, Text.byteLength t⟩

/-- The characters, with normalized line ends. -/
def chars (s : Source) : Text := s.tokens.map Token.char

/-- The number of tokens. -/
def size (s : Source) : Nat := s.tokens.length

/-- The bytes of the token at an index, or of the last token if there is none. A source without
tokens gives the empty span at its start. -/
def spanAt (s : Source) (index : Nat) : Span :=
  match s.tokens[index]? <|> s.tokens.getLast? with
  | none => ⟨s.span.start, s.span.start⟩
  | some token =>
    let stop := min (token.offset + token.char.utf8Size) s.span.length
    ⟨s.span.start + min token.offset stop, s.span.start + stop⟩

/-- The bytes from the token at `start` up to the last one before `stop`. -/
def spanFrom (s : Source) (start stop : Nat) : Span := (s.spanAt start).union (s.spanAt (stop - 1))

/-- The bytes that a region covers. -/
def spanOf (s : Source) (r : Region) : Span := s.spanFrom (s.size - r.start) (s.size - r.stop)

end Source

/-! ## Lines and columns -/

/-- A place in a text: line and column, both counted from 0, columns in characters. -/
structure Position where
  line : Nat
  column : Nat
  deriving DecidableEq, Repr

namespace Position

/-- The place behind one more character. Only a line feed ends a line. -/
def advance (p : Position) (c : Char) : Position :=
  if c = '\n' then ⟨p.line + 1, 0⟩ else ⟨p.line, p.column + 1⟩

/-- The place `offset` bytes after `p`, where `p` is the place at which the text starts. -/
def after (p : Position) (offset : Nat) : Text → Position
  | [] => p
  | c :: rest => if offset = 0 then p else after (p.advance c) (offset - c.utf8Size) rest

/-- The place of a byte offset. The end of a line feed belongs to the line that it starts. -/
def ofOffset (t : Text) (offset : Nat) : Position := after ⟨0, 0⟩ offset t

/-- The line of the given number, without carriage returns at its end. -/
def sourceLine (t : Text) (line : Nat) : Text :=
  match t, line with
  | t, 0 => ((t.takeWhile (· != '\n')).reverse.dropWhile (· == '\r')).reverse
  | [], _ => []
  | c :: rest, line + 1 => if c = '\n' then sourceLine rest line else sourceLine rest (line + 1)

end Position

end NestedCss
