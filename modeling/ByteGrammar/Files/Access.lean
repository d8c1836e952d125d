import ByteGrammar.Files.Basic

/-!
# Access to files

The two operations that a program needs of its files, for programs that run on a `FileSystem` as well as
on a real one.
-/

namespace ByteGrammar

/-- A monad in which files can be read and saved. -/
class MonadFiles (m : Type → Type) where
  readFile : String → m (Except FileError ByteArray)
  saveFile : String → ByteArray → m (Except SaveError Unit)

/-- Access to a file system that is a value. A failure changes nothing. -/
instance : MonadFiles (StateM FileSystem) where
  readFile path := do return (← get).read path
  saveFile path content := do
    match (← get).save path content with
    | .error cause => return .error cause
    | .ok files =>
        set files
        return .ok ()

/-- The content of a text file. -/
def readText {m : Type → Type} [Monad m] [MonadFiles m] (path : String) :
    m (Except FileError String) := do
  match ← MonadFiles.readFile path with
  | .error cause => return .error cause
  | .ok content =>
      match String.fromUTF8? content with
      | some text => return .ok text
      | none => return .error .invalidUtf8

end ByteGrammar
