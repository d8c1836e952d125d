import ByteGrammar.Document.Basic
import ByteGrammar.Files.Access

/-!
# Saving documents

A document goes to a file, or nowhere when the destination is a dash. All productions are lowered before
the destination is touched.
-/

namespace ByteGrammar

/-- Where a document goes. -/
inductive Destination where
  | nowhere
  | file (path : String)
  deriving DecidableEq, Repr, Inhabited

namespace Destination

/-- The text that stands for no destination. -/
def dash : String := "-"

/-- The destination that a text names. -/
def ofText (text : String) : Destination :=
  if text = dash then nowhere else file text

/-- The text of a destination. -/
def toText : Destination → String
  | nowhere => dash
  | file path => path

/-- A text names a destination with that text. -/
theorem to_text_of_text (text : String) : (ofText text).toText = text := by
  by_cases h : text = dash <;> simp [ofText, h, toText]

end Destination

/-- What became of a document. -/
inductive WriteOutcome where
  | notPersisted
  | written (path : String) (bytes : Nat)
  deriving DecidableEq, Repr, Inhabited

/-- Why a document was not saved. -/
structure WriteError where
  path : String
  cause : SaveError
  deriving DecidableEq, Repr, Inhabited

/-- The wording of a `WriteError`. -/
def WriteError.message (error : WriteError) : String :=
  match error.cause with
  | .opening _ => "Cannot open the file <" ++ error.path ++ "> for writing"
  | .writing _ => "Failed writing to <" ++ error.path ++ ">"

/-- Why there is no saved document. -/
inductive DumpError where
  | lowering (cause : LoweringError)
  | writing (cause : WriteError)
  deriving DecidableEq, Repr, Inhabited

/-- The wording of a `DumpError`. -/
def DumpError.message : DumpError → String
  | lowering cause => cause.message
  | writing cause => cause.message

variable {m : Type → Type} [Monad m] [MonadFiles m]

/-- Saves a text, and reports the events on the way. -/
def writeDocument (text : String) (destination : Destination) :
    m (Except WriteError WriteOutcome × List Event) := do
  match destination with
  | .nowhere => return (.ok .notPersisted, [.notPersisted])
  | .file path =>
      match ← MonadFiles.saveFile path text.toUTF8 with
      | .error cause => return (.error ⟨path, cause⟩, [])
      | .ok () => return (.ok (.written path text.utf8ByteSize), [.saved path])

/-- Lowers a grammar and saves the document. -/
def dump (naming : Naming) (grammar : Grammar) (destination : Destination) :
    m (Except DumpError WriteOutcome × List Event) := do
  match renderDocument naming grammar.productions with
  | (.error cause, events) => return (.error (.lowering cause), events)
  | (.ok text, events) =>
      match ← writeDocument text destination with
      | (.error cause, more) => return (.error (.writing cause), events ++ more)
      | (.ok outcome, more) => return (.ok outcome, events ++ more)

end ByteGrammar
