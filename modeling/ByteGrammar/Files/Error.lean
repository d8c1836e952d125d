/-!
# Faults of a file system

Why a path cannot be opened, read or written, with the wording of the operating system.
-/

namespace ByteGrammar

/-- A fault of a file operation. -/
inductive FileError where
  | notFound
  | notDirectory
  | isDirectory
  | noSpace
  | nameTooLong
  /-- The content is no UTF-8. -/
  | invalidUtf8
  /-- The path holds a zero character. -/
  | zeroInPath
  /-- The content has no end. The system words no such fault: a program that reads such a file does not come
  back. -/
  | endless
  /-- Any other fault, as the system words it. -/
  | other (message : String)
  deriving DecidableEq, Repr, Inhabited

/-- The wording of a `FileError`. -/
def FileError.message : FileError → String
  | notFound => "No such file or directory (os error 2)"
  | notDirectory => "Not a directory (os error 20)"
  | isDirectory => "Is a directory (os error 21)"
  | noSpace => "No space left on device (os error 28)"
  | nameTooLong => "File name too long (os error 36)"
  | invalidUtf8 => "stream did not contain valid UTF-8"
  | zeroInPath => "file name contained an unexpected NUL byte"
  | endless => "the content has no end"
  | other message => message

/-- A fault of saving a file: it cannot be opened, or not be filled. -/
inductive SaveError where
  | opening (cause : FileError)
  | writing (cause : FileError)
  deriving DecidableEq, Repr, Inhabited

end ByteGrammar
