import ByteGrammar.Json.Reader

/-!
# Numbers

A number is an integer when it has neither fraction nor exponent and fits 64 bits; a negative zero is
none. Any other number becomes a binary64 value: as many leading digits as fit 64 bits, scaled by a power
of ten. Integers of a fixed width, truth values and strings are read by `unsigned`, `signed`, `boolean`
and `string`, and `mismatch` reports a value of another type.
-/

namespace ByteGrammar.Json

/-- A number as it was read. -/
inductive Number where
  | integer (value : Int)
  | float (pattern : UInt64)
  deriving DecidableEq, Repr, Inhabited

/-- How a number is called in a message. -/
def Number.found : Number → Found
  | integer value => .integer value
  | float pattern => .float pattern

/-- Appends decimal digits to a value as long as it stays at or below a limit, and counts the digits
that are left over. -/
def appendDigits (limit : Nat) : (value : Nat) → List Char → Nat × Nat
  | value, [] => (value, 0)
  | value, digit :: digits =>
      let next := value * 10 + (digit.toNat - 48)
      if next ≤ limit then appendDigits limit next digits else (value, digits.length + 1)

/-- `value · 10^exponent`, scaled in steps of at most 308 places. There is none beyond the range. -/
def scale? (value : Float) : (fuel : Nat) → (exponent : Int) → Option Float
  | 0, _ => some value
  | fuel + 1, exponent =>
      if exponent.natAbs ≤ 308 then
        let power := Float.ofScientific 1 false exponent.natAbs
        let scaled := if 0 ≤ exponent then value * power else value / power
        if scaled.isInf then none else some scaled
      else if value == 0 then some value
      else if 0 ≤ exponent then none
      else scale? (value / Float.ofScientific 1 false 308) fuel (exponent + 308)

namespace Reader

variable {α : Type}

/-- The digits at the front of the text. -/
def digits : Reader (List Char) :=
  fun rest => .ok (rest.takeWhile Char.isDigit, rest.dropWhile Char.isDigit)

/-- The number with the given sign and magnitude bits. -/
def float (negative : Bool) (magnitude : Float) : Number :=
  .float (if negative then -magnitude else magnitude).toBits

/-- The number `± significand · 10^exponent`. -/
def scaled (negative : Bool) (significand : Nat) (exponent : Int) : Reader Number :=
  match scale? significand.toUInt64.toFloat (exponent.natAbs / 308 + 1) exponent with
  | some magnitude => return float negative magnitude
  | none => failHere .numberOutOfRange

/-- The sign and the digits of an exponent, after its letter. -/
def exponentPart (negative : Bool) (significand : Nat) (exponent : Int) : Reader Number := do
  let sign ← peek
  if sign = some '+' ∨ sign = some '-' then advance
  let down := sign = some '-'
  match ← peek with
  | none => failHere .endInValue
  | some c =>
      if !c.isDigit then failNext .invalidNumber
      else
        let text ← digits
        let (magnitude, excess) := appendDigits (Nat.pow 2 31 - 1) 0 text
        if excess = 0 then
          scaled negative significand (if down then exponent - magnitude else exponent + magnitude)
        else if significand ≠ 0 ∧ ¬ down then
          -- noticed at the first digit too many
          fun rest => .error (.placed .numberOutOfRange (byteCount rest + (excess - 1)))
        else return float negative 0

/-- What follows the integer digits of a number that is no integer. -/
def fractionPart (negative : Bool) (significand : Nat) (exponent : Int) : Reader Number := do
  match ← peek with
  | some '.' =>
      advance
      let text ← digits
      if text.isEmpty then
        match ← peek with
        | none => failNext .endInValue
        | some _ => failNext .invalidNumber
      else
        let (significand, excess) := appendDigits (UInt64.size - 1) significand text
        let exponent := exponent - (text.length - excess : Nat)
        match ← peek with
        | some 'e' | some 'E' =>
            advance
            exponentPart negative significand exponent
        | _ => scaled negative significand exponent
  | some 'e' | some 'E' =>
      advance
      exponentPart negative significand exponent
  | _ => scaled negative significand exponent

/-- A number whose integer digits have been read. -/
def numberTail (negative : Bool) (text : List Char) : Reader Number := do
  let (significand, excess) := appendDigits (UInt64.size - 1) 0 text
  let next ← peek
  let integral := excess = 0 ∧ next ≠ some '.' ∧ next ≠ some 'e' ∧ next ≠ some 'E'
  if integral ∧ negative = false then return .integer significand
  else if integral ∧ 0 < significand ∧ significand ≤ Nat.pow 2 63 then
    return .integer (-(significand : Int))
  else fractionPart negative significand excess

/-- A number after its sign. -/
def unsignedNumber (negative : Bool) : Reader Number := do
  match ← peek with
  | none => failHere .endInValue
  | some '0' =>
      advance
      match ← peek with
      | some c => if c.isDigit then failNext .invalidNumber else numberTail negative ['0']
      | none => numberTail negative ['0']
  | some c =>
      if c.isDigit then
        let text ← digits
        numberTail negative text
      else failNext .invalidNumber

/-- A number, in front of its sign or its first digit. -/
def number : Reader Number := do
  match ← peek with
  | some '-' =>
      advance
      unsignedNumber true
  | _ => unsignedNumber false

/-- Reports a value of another type than `expected`. The start of that value is read first, and a fault in
it is reported instead. -/
def mismatch (expected : String) : Reader α := do
  match ← peekToken with
  | some 'n' =>
      advance
      letters ['u', 'l', 'l']
      failHere (.invalidType .null expected)
  | some 't' =>
      advance
      letters ['r', 'u', 'e']
      failHere (.invalidType (.bool true) expected)
  | some 'f' =>
      advance
      letters ['a', 'l', 's', 'e']
      failHere (.invalidType (.bool false) expected)
  | some '"' =>
      advance
      let text ← stringRest
      failHere (.invalidType (.string text) expected)
  | some '[' => failHere (.invalidType .sequence expected)
  | some '\x7b' => failHere (.invalidType .map expected)
  | some c =>
      if c = '-' ∨ c.isDigit then
        let value ← number
        failHere (.invalidType value.found expected)
      else failNext .expectedValue
  | none => failNext .endInValue

/-- An integer that `accept` takes. -/
def integerOf (accept : Int → Option α) (expected : String) : Reader α := do
  match ← peekToken with
  | none => failNext .endInValue
  | some c =>
      if c = '-' ∨ c.isDigit then
        match ← number with
        | .integer value =>
            match accept value with
            | some result => return result
            | none => failHere (.invalidValue value expected)
        | .float pattern => failHere (.invalidType (.float pattern) expected)
      else mismatch expected

/-- An integer from zero up to, not including, `2^32`. -/
def unsigned32 : Reader UInt32 :=
  integerOf (fun value =>
    if 0 ≤ value ∧ value < UInt32.size then some (UInt32.ofNat value.toNat) else none) "u32"

/-- An integer from zero up to, not including, `2^64`. -/
def unsigned64 : Reader UInt64 :=
  integerOf (fun value =>
    if 0 ≤ value ∧ value < UInt64.size then some (UInt64.ofNat value.toNat) else none) "u64"

/-- An integer from `-2^63` up to, not including, `2^63`. -/
def signed64 : Reader Int64 :=
  integerOf (fun value =>
    if Int64.minValue.toInt ≤ value ∧ value ≤ Int64.maxValue.toInt then some (Int64.ofInt value)
    else none) "i64"

/-- A truth value. -/
def boolean : Reader Bool := do
  match ← peekToken with
  | none => failNext .endInValue
  | some 't' =>
      advance
      letters ['r', 'u', 'e']
      return true
  | some 'f' =>
      advance
      letters ['a', 'l', 's', 'e']
      return false
  | some _ => mismatch "a boolean"

/-- A string. -/
def string : Reader String := do
  match ← peekToken with
  | none => failNext .endInValue
  | some '"' =>
      advance
      stringRest
  | some _ => mismatch "a string"

end Reader

end ByteGrammar.Json
