import ByteGrammar.Lowering

/-!
# Documents

A document starts with the three stream accessors that every definition relies on, and goes on with one
definition per production, in order.
-/

namespace ByteGrammar

/-- The definition of `Select`, which reads the byte at an index. -/
def selectAccessor : String :=
  "def Select (N : uint 64) =\n" ++
  "  block\n" ++
  "    let cur = GetStream\n" ++
  "    let a = bytesOfStream cur\n" ++
  "    (Index a N) as uint 64\n\n"

/-- The definition of `Len`, the number of bytes. -/
def lenAccessor : String :=
  "def Len =\n" ++
  "  block\n" ++
  "    let cur = GetStream\n" ++
  "    let a = bytesOfStream cur\n" ++
  "    length a\n\n"

/-- The definition of `Extract`, which cuts a range of bits out of a number. -/
def extractAccessor : String :=
  "def Extract (High : uint 64) (Low : uint 64) (N : uint 64) =\n" ++
  "  block\n" ++
  "    let mask = (1 << (High - Low + 1)) - 1\n" ++
  "    (N >> Low) .&. mask\n\n"

/-- The stream accessors at the head of every document. -/
def accessors : String :=
  selectAccessor ++ lenAccessor ++ extractAccessor

/-- The text of a document with the given definitions. Every block is followed by an empty line. -/
def documentText (definitions : List Definition) : String :=
  accessors ++ "\n" ++ String.join (definitions.map fun definition => definition.render ++ "\n")

/-- Lowers all productions with one supply of variables. -/
def lowerDocument (naming : Naming) (productions : List Production) : Lowering String := do
  let definitions ← lowerAll naming productions
  Lowering.report [.documented productions.length (← get).vars.allocated]
  return documentText definitions

/-- The document of a list of productions together with the events on the way. -/
def renderDocument (naming : Naming) (productions : List Production) :
    Except LoweringError String × List Event :=
  let (result, scope) :=
    (lowerDocument naming productions).run { vars := { stem := naming.indexStem } }
  (result, scope.log.toList)

end ByteGrammar
