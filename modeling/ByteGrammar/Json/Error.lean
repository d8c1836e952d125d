import ByteGrammar.Decimal.Shortest
import ByteGrammar.Json.Position
import ByteGrammar.Text.Quoted

/-!
# What can be wrong with a JSON text

`Cause` lists the faults that a typed reader reports: those of the text as JSON, and those of a value
that is not what its place asks for. `Cause.message` words them, and a `ReadError` adds the position.
-/

namespace ByteGrammar.Json

/-- The start of a value that was found where another one was expected. -/
inductive Found where
  | null
  | bool (value : Bool)
  | integer (value : Int)
  /-- A number with a fraction or an exponent, or out of the integer range, as a bit pattern. -/
  | float (pattern : UInt64)
  | string (text : String)
  | sequence
  | map
  deriving DecidableEq, Repr, Inhabited

/-- How a found value is called. -/
def Found.describe : Found → String
  | null => "null"
  | bool value => "boolean `" ++ (if value then "true" else "false") ++ "`"
  | integer value => "integer `" ++ toString value ++ "`"
  | float pattern => "floating point `" ++ Decimal.floatText pattern ++ "`"
  | string text => "string " ++ Text.quoted text
  | sequence => "sequence"
  | map => "map"

/-- A fault of a JSON text. -/
inductive Cause where
  | endInValue
  | endInList
  | endInObject
  | endInString
  | expectedColon
  | expectedListCommaOrEnd
  | expectedObjectCommaOrEnd
  | expectedIdent
  | expectedValue
  | invalidEscape
  | invalidNumber
  | numberOutOfRange
  | loneSurrogate
  | unfinishedSurrogate
  | controlCharacter
  | keyMustBeString
  | trailingComma
  | trailingCharacters
  | recursionLimit
  | invalidType (found : Found) (expected : String)
  | invalidValue (value : Int) (expected : String)
  | invalidLength (length : Nat) (expected : String)
  | unitVariant (expected : String)
  | unknownVariant (name : String) (choices : List String)
  | unknownField (name : String) (choices : List String)
  | missingField (name : String)
  | duplicateField (name : String)
  deriving DecidableEq, Repr, Inhabited

/-- Whether a fault is an early end, a fault of the notation, or a fault of the data. -/
inductive Category where
  | early
  | form
  | data
  deriving DecidableEq, Repr, Inhabited

/-- The name of a category in reports. -/
def Category.name : Category → String
  | early => "Eof"
  | form => "Syntax"
  | data => "Data"

/-- A list of names to choose from. -/
def choiceText (choices : List String) : String :=
  match choices.map fun choice => "`" ++ choice ++ "`" with
  | [first, second] => first ++ " or " ++ second
  | names => "one of " ++ ", ".intercalate names

namespace Cause

/-- The wording of a fault. -/
def message : Cause → String
  | endInValue => "EOF while parsing a value"
  | endInList => "EOF while parsing a list"
  | endInObject => "EOF while parsing an object"
  | endInString => "EOF while parsing a string"
  | expectedColon => "expected `:`"
  | expectedListCommaOrEnd => "expected `,` or `]`"
  | expectedObjectCommaOrEnd => "expected `,` or `\x7d`"
  | expectedIdent => "expected ident"
  | expectedValue => "expected value"
  | invalidEscape => "invalid escape"
  | invalidNumber => "invalid number"
  | numberOutOfRange => "number out of range"
  | loneSurrogate => "lone leading surrogate in hex escape"
  | unfinishedSurrogate => "unexpected end of hex escape"
  | controlCharacter => "control character (\\u0000-\\u001F) found while parsing a string"
  | keyMustBeString => "key must be a string"
  | trailingComma => "trailing comma"
  | trailingCharacters => "trailing characters"
  | recursionLimit => "recursion limit exceeded"
  | invalidType found expected => "invalid type: " ++ found.describe ++ ", expected " ++ expected
  | invalidValue value expected =>
      "invalid value: integer `" ++ toString value ++ "`, expected " ++ expected
  | invalidLength length expected =>
      "invalid length " ++ toString length ++ ", expected " ++ expected
  | unitVariant expected => "invalid type: unit variant, expected " ++ expected
  | unknownVariant name choices =>
      "unknown variant `" ++ name ++ "`, expected " ++ choiceText choices
  | unknownField name choices => "unknown field `" ++ name ++ "`, expected " ++ choiceText choices
  | missingField name => "missing field `" ++ name ++ "`"
  | duplicateField name => "duplicate field `" ++ name ++ "`"

/-- The category of a fault. -/
def category : Cause → Category
  | endInValue | endInList | endInObject | endInString => .early
  | invalidType _ _ | invalidValue _ _ | invalidLength _ _ | unitVariant _ | unknownVariant _ _
  | unknownField _ _ | missingField _ | duplicateField _ => .data
  | _ => .form

end Cause

/-- A fault and where it was noticed. -/
structure ReadError where
  cause : Cause
  position : Position
  deriving DecidableEq, Repr, Inhabited

/-- The wording of a fault with its position. -/
def ReadError.message (error : ReadError) : String :=
  error.cause.message ++ " at line " ++ toString error.position.line ++ " column " ++
  toString error.position.column

end ByteGrammar.Json
