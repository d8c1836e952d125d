import ByteGrammar.Files.Access
import ByteGrammar.Naming.Reader

/-!
# Naming files

Loading a naming from a file.
-/

namespace ByteGrammar

/-- Why there is no naming. -/
inductive Naming.FileError where
  | unreadable (path : String) (cause : ByteGrammar.FileError)
  | refused (error : Naming.TextError)
  deriving DecidableEq, Repr, Inhabited

/-- The wording of a `Naming.FileError`. -/
def Naming.FileError.message : Naming.FileError → String
  | unreadable path cause => "cannot read config file '" ++ path ++ "': " ++ cause.message
  | refused error => error.message

/-- The naming in a file. -/
def Naming.load {m : Type → Type} [Monad m] [MonadFiles m] (path : String) :
    m (Except Naming.FileError Naming) := do
  match ← readText path with
  | .error cause => return .error (.unreadable path cause)
  | .ok source =>
      match Naming.ofJson? source with
      | .error error => return .error (.refused error)
      | .ok naming => return .ok naming

end ByteGrammar
