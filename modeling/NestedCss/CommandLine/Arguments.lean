import NestedCss.Compile

/-!
# Arguments of the command line

Arguments are taken one by one from the left. The first that is wrong, or that asks for the version,
decides.

* `Settings`: what the arguments say, `Settings.isComplete`;
* **`Arguments.read`**: what a list of arguments asks for.
-/

namespace NestedCss.CommandLine

/-- What arguments say. Without an input the stylesheet comes from the standard input, if that was
asked for. -/
structure Settings where
  stdin : Bool := false
  style : Option Style := none
  dialect : Option Dialect := none
  noCharset : Bool := false
  noUnicode : Bool := false
  quiet : Bool := false
  input : Option Text := none
  output : Option Text := none
  deriving DecidableEq, Repr

/-- What the user asks for. -/
inductive Request where
  | version
  | compile (settings : Settings)
  deriving DecidableEq, Repr

/-- Arguments that make no sense. -/
structure UsageError where
  deriving DecidableEq, Repr

/-- An option that stands for itself. -/
inductive Flag where
  | version
  | stdin
  | noCharset
  | noUnicode
  | quiet
  deriving DecidableEq, Repr

/-- An option with a value. -/
inductive Setting where
  | style
  | dialect
  deriving DecidableEq, Repr

/-- The options by their long names. -/
def longOption? (name : Text) : Option (Flag ⊕ Setting) :=
  if name = "version".toList then some (.inl .version)
  else if name = "stdin".toList then some (.inl .stdin)
  else if name = "no-charset".toList then some (.inl .noCharset)
  else if name = "no-unicode".toList then some (.inl .noUnicode)
  else if name = "quiet".toList then some (.inl .quiet)
  else if name = "style".toList then some (.inr .style)
  else if name = "syntax".toList then some (.inr .dialect)
  else none

/-- The options by their letters. -/
def shortOption? (letter : Char) : Option (Flag ⊕ Setting) :=
  match letter with
  | 'v' => some (.inl .version)
  | 'q' => some (.inl .quiet)
  | 's' => some (.inr .style)
  | _ => none

/-- The style of a name, in any case of letters. -/
def styleOf? (value : Text) : Option Style :=
  if Text.sameIgnoringCase value "expanded".toList then some .expanded
  else if Text.sameIgnoringCase value "compressed".toList then some .compressed
  else none

/-- The dialect of a name, in any case of letters. -/
def dialectOf? (value : Text) : Option Dialect :=
  if Text.sameIgnoringCase value "scss".toList then some .scss
  else if Text.sameIgnoringCase value "less".toList then some .less
  else none

namespace Settings

/-- Reads arguments until one asks for the version or is wrong. -/
abbrev Step := Except (Except UsageError Request) Settings

/-- Arguments that make no sense. -/
def refuse : Step := .error (.error ⟨⟩)

/-- Sets a flag, which may be given once. -/
def setFlag (s : Settings) : Flag → Step
  | .version => .error (.ok .version)
  | .stdin => if s.stdin then refuse else .ok { s with stdin := true }
  | .noCharset => if s.noCharset then refuse else .ok { s with noCharset := true }
  | .noUnicode => if s.noUnicode then refuse else .ok { s with noUnicode := true }
  | .quiet => if s.quiet then refuse else .ok { s with quiet := true }

/-- Gives a setting its value, which may be done once. -/
def setValue (s : Settings) (setting : Setting) (value : Text) : Step :=
  match setting with
  | .style =>
    match s.style, styleOf? value with
    | none, some style => .ok { s with style := some style }
    | _, _ => refuse
  | .dialect =>
    match s.dialect, dialectOf? value with
    | none, some dialect => .ok { s with dialect := some dialect }
    | _, _ => refuse

/-- Takes an argument that is no option: the input, then the output. -/
def addOperand (s : Settings) (value : Text) : Step :=
  match s.input, s.output with
  | none, _ => .ok { s with input := some value }
  | some _, none => .ok { s with output := some value }
  | some _, some _ => refuse

/-- Whether there is something to compile. -/
def isComplete (s : Settings) : Bool := s.stdin || s.input.isSome

/-- The choices for the compiler. -/
def options (s : Settings) : Options :=
  { dialect := s.dialect, style := s.style.getD .expanded, charset := !s.noCharset, quiet := s.quiet }

end Settings

namespace Arguments

open Settings

/-- Takes the letters of a cluster such as `-qs`. The rest of the cluster behind an option with a
value is that value; without a rest, the option that waits for the next argument is given back. -/
def readCluster (s : Settings) : Text → Except (Except UsageError Request) (Settings × Option Setting)
  | [] => .ok (s, none)
  | letter :: rest =>
    match shortOption? letter with
    | none => .error (.error ⟨⟩)
    | some (.inl flag) => do readCluster (← s.setFlag flag) rest
    | some (.inr setting) =>
      match rest with
      | [] => .ok (s, some setting)
      | '=' :: value => (s.setValue setting value).map (·, none)
      | value => (s.setValue setting value).map (·, none)

/-- Takes a long option, with its value if one is attached. -/
def readLong (s : Settings) (argument : Text) :
    Except (Except UsageError Request) (Settings × Option Setting) :=
  match Text.splitAtFirst '=' argument with
  | some (name, value) =>
    match longOption? name with
    | some (.inr setting) => (s.setValue setting value).map (·, none)
    | _ => .error (.error ⟨⟩)
  | none =>
    match longOption? argument with
    | some (.inl flag) => (s.setFlag flag).map (·, none)
    | some (.inr setting) => .ok (s, some setting)
    | none => .error (.error ⟨⟩)

/-- Takes the arguments in order. `waiting` is the option that the last one gave no value. Behind
`--` no argument is an option. -/
def readFrom (s : Settings) (waiting : Option Setting) : List Text → Step
  | [] => if waiting.isSome then refuse else .ok s
  | argument :: rest =>
    match waiting, argument with
    | some setting, value => do readFrom (← s.setValue setting value) none rest
    | none, ['-', '-'] => rest.foldlM addOperand s
    | none, '-' :: '-' :: long => do
      let (s, waiting) ← readLong s long
      readFrom s waiting rest
    | none, '-' :: letter :: letters => do
      let (s, waiting) ← readCluster s (letter :: letters)
      readFrom s waiting rest
    | none, operand => do readFrom (← s.addOperand operand) none rest

/-- **What arguments ask for.** -/
def read (arguments : List Text) : Except UsageError Request :=
  match readFrom {} none arguments with
  | .error outcome => outcome
  | .ok settings => if settings.isComplete then .ok (.compile settings) else .error ⟨⟩

end Arguments

end NestedCss.CommandLine
