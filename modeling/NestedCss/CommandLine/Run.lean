import NestedCss.CommandLine.Arguments
import NestedCss.CommandLine.System
import NestedCss.FileSystem

/-!
# The command

What the command does on the system that it runs on.

* `Outcome`: what it leaves behind;
* **`run`**: the whole command.
-/

namespace NestedCss.CommandLine

/-- What the command leaves behind, files aside. -/
structure Outcome where
  code : Nat
  stdout : Text
  stderr : Text
  deriving DecidableEq, Repr

namespace Outcome

/-- Nothing went wrong. -/
def success (stdout : Text) : Outcome := ⟨0, stdout, []⟩

/-- Something went wrong. -/
def failure (stderr : Text) : Outcome := ⟨1, [], stderr⟩

/-- The program broke down. What the system says about that is not the command's. -/
def breakdown : Outcome := ⟨101, [], []⟩

/-- The arguments made no sense. -/
def usage : Outcome := ⟨2, [], "error: invalid arguments\n".toList⟩

/-- More was shown before the rest. -/
def after (o : Outcome) (stderr : Text) : Outcome := { o with stderr := stderr ++ o.stderr }

end Outcome

/-! ## The command -/

variable {m : Type → Type} [Monad m] {Handle : Type}

/-- What a question for the version is answered with. -/
def versionText : Text := "grout 0.4.1\n".toList

/-- The messages and the CSS of the stylesheet that the settings name, or an error without a
stylesheet. -/
def compileInput (system : System m Handle) (s : Settings) :
    m (Except Text (List FileMessage × Except CompileError Text)) := do
  match s.input with
  | some path =>
    match ← system.read path with
    | .error e => return .ok ([], .error (.unreadable e.sentence))
    | .ok bytes => return .ok (compileFile (fun _ => .ok bytes) s.options path)
  | none =>
    match Utf8.decode (← system.readInput) with
    | .error _ =>
      return .error ("Error \x7b kind: InvalidData, ".toList ++
        "message: \"stream did not contain valid UTF-8\" \x7d".toList)
    | .ok text => return .ok (compileText s.options "stdin".toList text)

/-- Compiles what the settings name, to the standard output if no file is open for it. -/
def compileTo (system : System m Handle) (s : Settings) (output : Option Handle) : m Outcome := do
  match ← compileInput system s with
  | .error details => return .failure (Report.plain details)
  | .ok (messages, result) =>
    let shown := messages.flatMap fun m => Report.logEntry m.fileName m.text m.entry
    match result, output with
    | .error e, _ =>
      if e.isPlaced then
        return (Outcome.failure (e.display (!s.noUnicode) ++ ['\n'])).after shown
      else return Outcome.breakdown.after shown
    | .ok css, none => return (Outcome.success css).after shown
    | .ok css, some handle =>
      match ← system.write handle css with
      | .error e => return (Outcome.failure (Report.plain e.details)).after shown
      | .ok _ => return (Outcome.success []).after shown

/-- **The command.** The output is made empty before the input is read. -/
def run (system : System m Handle) (arguments : List Text) : m Outcome := do
  match Arguments.read arguments with
  | .error _ => return .usage
  | .ok .version => return .success versionText
  | .ok (.compile s) =>
    match s.output with
    | none => compileTo system s none
    | some path =>
      match ← system.create path with
      | .error e => return .failure (Report.plain e.details)
      | .ok handle => compileTo system s (some handle)

end NestedCss.CommandLine
