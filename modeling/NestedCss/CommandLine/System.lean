import NestedCss.Report

/-!
# The system around the command

* `SystemError`: why the system refuses something, `SystemError.code`, `SystemError.kind` and
  `SystemError.message`;
* `SystemError.sentence`, `SystemError.details`: the error as it is shown;
* **`System`**: opening, reading and writing files.
-/

namespace NestedCss.CommandLine

/-! ## What is refused -/

/-- Why the system refuses something. -/
inductive SystemError where
  /-- Nothing is there. -/
  | notFound
  /-- The user may not do it. -/
  | permissionDenied
  /-- The path goes on from something that is no directory. -/
  | notADirectory
  /-- A file is asked for where a directory is, or can only be. -/
  | isADirectory
  /-- Nothing more can be stored. -/
  | noSpace
  /-- The path or a name in it has too many bytes. -/
  | nameTooLong
  /-- Any other cause, by its number. -/
  | other (code : Nat) (message : Text)
  deriving DecidableEq, Repr

namespace SystemError

/-- The number of a cause. -/
def code : SystemError → Nat
  | notFound => 2
  | permissionDenied => 13
  | notADirectory => 20
  | isADirectory => 21
  | noSpace => 28
  | nameTooLong => 36
  | other code _ => code

/-- The name of the group that a cause belongs to. -/
def kind : SystemError → Text
  | notFound => "NotFound".toList
  | permissionDenied => "PermissionDenied".toList
  | notADirectory => "NotADirectory".toList
  | isADirectory => "IsADirectory".toList
  | noSpace => "StorageFull".toList
  | nameTooLong => "InvalidFilename".toList
  | other .. => "Uncategorized".toList

/-- The wording of a cause. -/
def message : SystemError → Text
  | notFound => "No such file or directory".toList
  | permissionDenied => "Permission denied".toList
  | notADirectory => "Not a directory".toList
  | isADirectory => "Is a directory".toList
  | noSpace => "No space left on device".toList
  | nameTooLong => "File name too long".toList
  | other _ message => message

/-- The cause with a number. The message is for a number without a cause of its own. -/
def ofCode (code : Nat) (message : Text) : SystemError :=
  ([notFound, permissionDenied, notADirectory, isADirectory, noSpace, nameTooLong].find?
    (·.code = code)).getD (other code message)

/-- The error in a sentence. -/
def sentence (e : SystemError) : Text :=
  e.message ++ " (os error ".toList ++ Report.decimal e.code ++ [')']

/-- The error with all its parts. -/
def details (e : SystemError) : Text :=
  "Os \x7b code: ".toList ++ Report.decimal e.code ++ ", kind: ".toList ++ e.kind ++
    ", message: \"".toList ++ e.message ++ "\" \x7d".toList

end SystemError

/-! ## What can be asked for -/

/-- What the command may ask of the system, which hands out handles for the files to be written. -/
structure System (m : Type → Type) (Handle : Type) where
  /-- Opens a file to be written. It is made if it is not there, and empty from then on. -/
  create : Text → m (Except SystemError Handle)
  /-- Writes to an open file. -/
  write : Handle → Text → m (Except SystemError Unit)
  /-- The contents of a file. -/
  read : Text → m (Except SystemError (List UInt8))
  /-- The contents of the standard input. -/
  readInput : m (List UInt8)

end NestedCss.CommandLine
