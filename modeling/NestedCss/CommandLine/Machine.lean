import NestedCss.CommandLine.Run

/-!
# A machine in memory

Directories with files and devices in them, the standard streams, and the directory in which the
command is started.

* `Machine`: what is where, `Machine.ofFiles`: files in the working directory;
* `Machine.walk`, `Machine.find`: the place that a path leads to;
* `Machine.create`, `Machine.write`, `Machine.read`: files and devices in use;
* **`Machine.system`**: the system that the command sees.
-/

namespace NestedCss.CommandLine

/-! ## What is where -/

/-- The names on the way from the root. -/
abbrev Place := List Text

/-- What can be written to and read from without being stored. -/
inductive Device where
  /-- Takes everything and holds nothing. -/
  | null
  /-- Takes nothing. -/
  | full
  /-- The standard input. -/
  | input
  /-- The standard output. -/
  | output
  /-- The standard error output. -/
  | errors
  deriving DecidableEq, Repr

/-- What is at a place. -/
inductive Entry where
  | directory
  | file (bytes : List UInt8)
  | device (device : Device)
  deriving DecidableEq, Repr

/-- A machine: what is where on it, the working directory, and the standard streams. -/
structure Machine where
  entries : List (Place × Entry)
  workplace : Place
  input : List UInt8
  output : Text
  errors : Text

/-- The directories that a machine has at its root. -/
def Place.topLevel : List Place :=
  ["bin", "boot", "dev", "etc", "home", "lib", "media", "mnt", "opt", "proc", "root", "run", "sbin",
    "srv", "sys", "tmp", "usr", "var"].map fun name => [name.toList]

/-- The devices and where they are. -/
def Device.places : List (Place × Device) :=
  [(["dev", "null"], .null), (["dev", "full"], .full),
    (["dev", "stdin"], .input), (["dev", "fd", "0"], .input),
    (["dev", "stdout"], .output), (["dev", "fd", "1"], .output),
    (["dev", "stderr"], .errors), (["dev", "fd", "2"], .errors)].map
    fun (names, device) => (names.map String.toList, device)

namespace Machine

/-- The names on the way of a path. A name is empty where a `/` follows another or ends the path. -/
def names (path : Text) : List Text := path.splitOn '/'

/-- The place of the working directory. Its own name is empty, which no path can spell: it can be
reached only by starting in it. -/
def workingDirectory : Place := ["tmp".toList, []]

/-- A machine with files in its working directory, by their paths, and no other files. -/
def ofFiles (files : List (Text × List UInt8)) (input : List UInt8) : Machine where
  entries :=
    (workingDirectory :: Place.topLevel).map (·, .directory) ++
    Device.places.map (fun (place, device) => (place, .device device)) ++
    files.map fun (path, bytes) => (workingDirectory ++ names path, .file bytes)
  workplace := workingDirectory
  input := input
  output := []
  errors := []

/-- The files in the working directory, by their paths. -/
def files (m : Machine) : List (Text × List UInt8) := m.entries.filterMap fun (place, entry) =>
  match entry with
  | .file bytes =>
    if m.workplace.isPrefixOf place then
      some (['/'].intercalate (place.drop m.workplace.length), bytes)
    else none
  | _ => none

/-- What is at a place. Whatever has something below it is a directory. -/
def lookup? (m : Machine) (place : Place) : Option Entry :=
  (m.entries.lookup place).or
    (if m.entries.any fun (below, _) => place.isPrefixOf below then some .directory else none)

/-- Whether a directory is at a place. -/
def isDirectory (m : Machine) (place : Place) : Bool := m.lookup? place = some .directory

/-- The machine with a file at a place. -/
def put (m : Machine) (place : Place) (bytes : List UInt8) : Machine :=
  { m with entries := (place, .file bytes) :: m.entries.filter (·.1 ≠ place) }

/-! ## Paths -/

/-- The most bytes that a name may have. -/
def nameLimit : Nat := 255

/-- The most bytes that a path may have. -/
def pathLimit : Nat := 4095

/-- The place that a path starts from. -/
def start (m : Machine) (path : Text) : Except SystemError Place :=
  if path.isEmpty then .error .notFound
  else if pathLimit < Text.byteLength path then .error .nameTooLong
  else .ok (if path.head? = some '/' then [] else m.workplace)

/-- The place that a name means in a directory. Nothing has to be there. -/
def step (m : Machine) (place : Place) (name : Text) : Except SystemError Place :=
  if !m.isDirectory place then .error .notADirectory
  else if name.isEmpty || name = ['.'] then .ok place
  else if name = ['.', '.'] then .ok place.dropLast
  else if nameLimit < Text.byteLength name then .error .nameTooLong
  else .ok (place ++ [name])

/-- Follows names from a place to where something is. -/
def walk (m : Machine) (place : Place) : List Text → Except SystemError Place
  | [] => .ok place
  | name :: rest => do
    let next ← m.step place name
    if (m.lookup? next).isNone then throw .notFound
    m.walk next rest

/-- The place of what a path leads to. -/
def find (m : Machine) (path : Text) : Except SystemError Place := do
  m.walk (← m.start path) (names path)

/-! ## Files and devices -/

/-- What can be read from a device. -/
def readDevice (m : Machine) : Device → List UInt8
  | .input => m.input
  | _ => []

/-- What can be read at a path. -/
def read (m : Machine) (path : Text) : Except SystemError (List UInt8) := do
  match m.lookup? (← m.find path) with
  | some (.file bytes) => return bytes
  | some (.device device) => return m.readDevice device
  | some .directory => throw .isADirectory
  | none => throw .notFound

/-- Opens what a path leads to, to be written. A file is made where nothing is yet, but a path that
ends in `/` asks for a directory. -/
def create (m : Machine) (path : Text) : Except SystemError (Place × Machine) := do
  let body := (path.reverse.dropWhile (· = '/')).reverse
  let parent ← m.walk (← m.start path) (names body).dropLast
  if !m.isDirectory parent then throw .notADirectory
  if body.length < path.length then throw .isADirectory
  let place ← m.step parent ((names body).getLastD [])
  match m.lookup? place with
  | some .directory => throw .isADirectory
  | some (.device _) => return (place, m)
  | _ => return (place, m.put place [])

/-- The machine after a text was written to what is at a place. -/
def write (m : Machine) (place : Place) (text : Text) : Except SystemError Machine :=
  match m.lookup? place with
  | some (.device .full) => if text.isEmpty then .ok m else .error .noSpace
  | some (.device .output) => .ok { m with output := m.output ++ text }
  | some (.device .errors) => .ok { m with errors := m.errors ++ text }
  | some (.device _) => .ok m
  | _ => .ok (m.put place (Utf8.encode text))

/-! ## The system -/

/-- Does something to the machine, which stays as it is if that is refused. -/
def attempt {α : Type} (action : Machine → Except SystemError (α × Machine)) :
    StateM Machine (Except SystemError α) :=
  modifyGet fun m =>
    match action m with
    | .ok (a, m) => (.ok a, m)
    | .error e => (.error e, m)

/-- **The system of the machine that is the state.** Open files are known by their places. -/
def system : System (StateM Machine) Place where
  create path := attempt (·.create path)
  write place text := attempt fun m => return ((), ← m.write place text)
  read path := return (← get).read path
  readInput := return (← get).input

end Machine

end NestedCss.CommandLine
