import NestedCss.Fault

/-!
# Scanners

A `Scanner` takes characters from the front of a text. All that it knows is the text still to be
read, so what it does never depends on what came before; places are given by the number of
characters left. A scanner that fails leaves the text where it stopped.

* `Scanner.peek`, `Scanner.skip`, `Scanner.scanChar`, `Scanner.expectChar`: single characters;
* `Scanner.rawText`: a scanner's text instead of its value;
* `Scanner.gather`: runs a step as long as it goes on and joins what it collects.
-/

namespace NestedCss

/-- A scanner reads from the front of a text and either gives a value or reports a problem. -/
abbrev Scanner := EStateM Problem Text

namespace Scanner

variable {α γ σ : Type}

/-- The next character, which is not consumed. -/
def peek : Scanner (Option Char) := fun s => .ok s.head? s

/-- Consumes a character, if there is one. -/
def skip : Scanner Unit := fun s => .ok () s.tail

/-- Consumes the characters that satisfy `p`. -/
def skipWhile (p : Char → Bool) : Scanner Unit := fun s => .ok () (s.dropWhile p)

/-- The number of characters left. -/
def mark : Scanner Nat := fun s => .ok s.length s

/-- The region between an earlier mark and the next character. -/
def regionFrom (start : Nat) : Scanner Region := fun s => .ok ⟨start, s.length⟩ s

/-- Reports a fault in the next character. -/
def failHere (fault : Fault) : Scanner α := fun s => .error ⟨fault, .region (.next s.length)⟩ s

/-- Reports a fault in a region. -/
def failAt (fault : Fault) (r : Region) : Scanner α := fun s => .error ⟨fault, .region r⟩ s

/-- Whether the text goes on with `t`. -/
def lookingAt (t : Text) : Scanner Bool := fun s => .ok (t.isPrefixOf s) s

/-- Whether `c` comes next. -/
def nextIs (c : Char) : Scanner Bool := fun s => .ok (s.head? == some c) s

/-- Consumes `t` if the text goes on with it. -/
def scan (t : Text) : Scanner Bool := fun s =>
  if t.isPrefixOf s then .ok true (s.drop t.length) else .ok false s

/-- Consumes `c` if it comes next. -/
def scanChar (c : Char) : Scanner Bool := fun s =>
  if s.head? = some c then .ok true s.tail else .ok false s

/-- Consumes `c`, which has to come next. -/
def expectChar (c : Char) : Scanner Unit := fun s =>
  if s.head? = some c then .ok () s.tail else .error ⟨.expected c, .region (.next s.length)⟩ s

/-- Runs a scanner and gives the text that it consumed. -/
def rawText (scanner : Scanner α) : Scanner Text := fun s =>
  match scanner s with
  | .ok _ rest => .ok (s.take (s.length - rest.length)) rest
  | .error problem rest => .error problem rest

/-- Runs `step` until it gives `none`, hands each run what the last one left in `σ`, and joins what
they collect. A step that consumes nothing is the last one. -/
def gather (step : σ → Scanner (Option (List γ × σ))) (state : σ) : Scanner (List γ × σ) := fun s =>
  match step state s with
  | .error problem rest => .error problem rest
  | .ok none rest => .ok ([], state) rest
  | .ok (some (piece, state')) rest =>
    if rest.length < s.length then
      match gather step state' rest with
      | .error problem rest' => .error problem rest'
      | .ok (more, last) rest' => .ok (piece ++ more, last) rest'
    else .ok (piece, state') rest
termination_by s => s.length

/-- `gather` for a step that needs to remember nothing. -/
def gatherAll (step : Scanner (Option (List γ))) : Scanner (List γ) := do
  let (pieces, _) ← gather (fun _ => do return (← step).map (·, ())) ()
  return pieces

end Scanner

end NestedCss
