import NestedCss.Compile

/-!
# Reports

How faults and messages are shown to the author.

* `Report.parseError`: a fault with the line of the source that it is in;
* `Report.logEntry`: a message from the stylesheet.
-/

namespace NestedCss.Report

/-- The digits of a number. -/
def decimal (n : Nat) : Text := Nat.toDigits 10 n

/-- The characters that a report frames the source with. -/
structure Frame where
  top : Char
  side : Char
  bottom : Char

/-- The frame of a report, in plain ASCII or not. -/
def Frame.of (unicode : Bool) : Frame := if unicode then ⟨'╷', '│', '╵'⟩ else ⟨',', '|', '\''⟩

/-- The number of characters to underline. A span over several lines has only its start marked. -/
def underlined (start stop : Position) : Nat :=
  if start.line = stop.line then max (stop.column - start.column) 1 else 1

/-- Lines, each with its end. -/
def unlines (lines : List Text) : Text := lines.flatMap (· ++ ['\n'])

/-- A report that has nothing to show. -/
def plain (message : Text) : Text := unlines ["Error: ".toList ++ message]

/-- **The report of a fault** in a file. -/
def parseError (unicode : Bool) (fileName text : Text) (d : Diagnosis) : Text :=
  let start := Position.ofOffset text d.span.start
  let stop := Position.ofOffset text d.span.stop
  let frame := Frame.of unicode
  let line := decimal (start.line + 1)
  let padding := List.replicate (line.length + 1) ' '
  unlines [
    "Error: ".toList ++ d.fault.message,
    padding ++ [frame.top],
    line ++ [' ', frame.side, ' '] ++ Position.sourceLine text start.line,
    padding ++ [frame.side, ' '] ++ List.replicate start.column ' ' ++
      List.replicate (underlined start stop) '^',
    padding ++ [frame.bottom],
    "  ".toList ++ fileName ++ ' ' :: line ++ ':' :: decimal (start.column + 1) ++
      "  root stylesheet".toList]

/-- The line for a message of a stylesheet, or the two lines for a warning. -/
def logEntry (fileName text : Text) (entry : Flatten.LogEntry) : Text :=
  let start := Position.ofOffset text entry.span.start
  let line := decimal (start.line + 1)
  match entry.severity with
  | .debug => unlines [fileName ++ ':' :: line ++ " DEBUG: ".toList ++ entry.message]
  | .warning | .error =>
    unlines ["WARNING: ".toList ++ entry.message,
      "    ".toList ++ fileName ++ ':' :: line ++ ':' :: decimal (start.column + 1)]

/-- What is wrong with a file whose bytes are not UTF-8. -/
def notUtf8 (byte : UInt8) : Text :=
  "Invalid UTF-8 character \"\\x".toList ++ (Nat.toDigits 16 byte.toNat).map Char.toUpper ++ ['"']

end NestedCss.Report
