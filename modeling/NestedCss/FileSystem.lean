import NestedCss.Report
import NestedCss.Text.Utf8

/-!
# Stylesheets in files

* `FileSystem`: where a file is read from, which may go wrong;
* `CompileError`: what can be wrong with a file, `CompileError.message` and `CompileError.display`,
  which only exists where `CompileError.isPlaced`;
* **`compileFile`**: the file at a path as CSS.
-/

namespace NestedCss

/-- Gives the bytes of the file at a path, or says why there are none. -/
abbrev FileSystem := Text → Except Text (List UInt8)

namespace FileSystem

/-- The file system that has no files at all. -/
def empty : FileSystem := fun path => .error (path ++ ": no file system is available".toList)

/-- Files in memory, by exactly the paths that they were put under. -/
def ofFiles (files : List (Text × List UInt8)) : FileSystem := fun path =>
  match files.lookup path with
  | some bytes => .ok bytes
  | none => .error (path ++ " not found".toList)

end FileSystem

/-- Why there is no CSS for a file. -/
inductive CompileError where
  /-- Something is wrong with the stylesheet. -/
  | invalid (fileName text : Text) (diagnosis : Diagnosis)
  /-- The file is not UTF-8 from this byte on. -/
  | notUtf8 (byte : UInt8)
  /-- The file cannot be read. -/
  | unreadable (message : Text)

namespace CompileError

/-- The wording of an error without its place. -/
def message : CompileError → Text
  | .invalid _ _ d => d.fault.message
  | .notUtf8 byte => Report.notUtf8 byte
  | .unreadable message => message

/-- Whether the place of an error can be found. The program breaks down over one that has none. -/
def isPlaced : CompileError → Bool
  | .invalid _ text d => d.isPlaced text
  | .notUtf8 _ | .unreadable _ => true

/-- An error as it is shown. -/
def display (unicode : Bool) : CompileError → Text
  | .invalid fileName text d => Report.parseError unicode fileName text d
  | e => Report.plain e.message

end CompileError

/-- A message together with the file that it comes from. -/
structure FileMessage where
  fileName : Text
  text : Text
  entry : Flatten.LogEntry

/-- The messages of a text that goes by a name and its CSS, or what is wrong with it. -/
def compileText (options : Options) (fileName text : Text) :
    List FileMessage × Except CompileError Text :=
  let (log, result) := compile options fileName text
  (log.map (⟨fileName, text, ·⟩), result.mapError (.invalid fileName text))

/-- **The messages of the file at a path and its CSS**, or what is wrong with it. -/
def compileFile (files : FileSystem) (options : Options) (path : Text) :
    List FileMessage × Except CompileError Text :=
  match files path with
  | .error message => ([], .error (.unreadable message))
  | .ok bytes =>
    match Utf8.decode bytes with
    | .error byte => ([], .error (.notUtf8 byte))
    | .ok text => compileText options path text

end NestedCss
