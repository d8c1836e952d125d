import ByteGrammar.Files.Access
import ByteGrammar.Grammar.Reader

/-!
# Grammar files

Loading a grammar from a file, and the reports for files that hold none.
-/

namespace ByteGrammar

/-- Why there is no grammar. -/
inductive GrammarError where
  | unreadable (path : String) (cause : FileError)
  /-- The text of a file is no grammar. -/
  | malformed (file source : String) (error : Json.ReadError)
  deriving DecidableEq, Repr, Inhabited

namespace GrammarError

/-- The wording of a `GrammarError`. -/
def message : GrammarError → String
  | unreadable path _ => "Cannot read grammar file '" ++ path ++ "'"
  | malformed _ _ error => "Malformed grammar: " ++ error.message

/-- What a grammar file should look like. -/
def help : String :=
  "productions carry `id`, `alternatives` and `assertions`; right-hand-side items are `production` " ++
  "or `interval`; bounds are `constant` or `symbolic`"

/-- The byte of the source that a fault is shown at. -/
def offset? : GrammarError → Option Nat
  | unreadable _ _ => none
  | malformed _ source error =>
      match Json.byteOffset .wraps source.toList (.ofNat error.position.line)
        (.ofNat error.position.column) with
      | .ok offset => offset.map UInt64.toNat
      | .error _ => none

end GrammarError

/-- The grammar in a text. Reports name the given file. -/
def Grammar.parse (source file : String) : Except GrammarError Grammar :=
  match Grammar.ofJson? source with
  | .ok grammar => .ok grammar
  | .error error => .error (.malformed file source error)

/-- The grammar in a file. -/
def Grammar.load {m : Type → Type} [Monad m] [MonadFiles m] (path : String) :
    m (Except GrammarError Grammar) := do
  match ← readText path with
  | .error cause => return .error (.unreadable path cause)
  | .ok source => return Grammar.parse source path

end ByteGrammar
