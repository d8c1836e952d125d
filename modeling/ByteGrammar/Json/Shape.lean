import ByteGrammar.Json.Number
import ByteGrammar.Json.Skip
import ByteGrammar.Json.Tag

/-!
# Lists, tuples, records and tagged values

Readers of composed values from readers of their parts. Each of them opens at most one bracket. What
stands inside that bracket is given as an option, which is `none` when no bracket may be opened any more.

A record is an object with known keys in any order, or an array of its fields in their order. A tagged
value is an object with the tag as its only key.
-/

namespace ByteGrammar.Json.Reader

variable {α β σ : Type}

/-- Opens a bracket and goes on inside, unless the nesting is used up. -/
def enter (inside : Option (Reader α)) : Reader α :=
  match inside with
  | none => failNext .recursionLimit
  | some inside => do
      advance
      inside

/-- Whether another item of an array follows; the comma before it is dropped. -/
def hasItem (first : Bool) : Reader Bool := do
  match ← peekToken with
  | none => failNext .endInList
  | some ']' => return false
  | some c =>
      if first then return true
      else if c ≠ ',' then failNext .expectedListCommaOrEnd
      else
        advance
        match ← peekToken with
        | none => failNext .endInValue
        | some ']' => failNext .trailingComma
        | some _ => return true

/-- The items of an array. An array has fewer items than characters, so a text longer than the rest bounds
their number. -/
def items (item : Reader α) : (bound : List Char) → (first : Bool) → Reader (List α)
  | [], _ => return []
  | _ :: bound, first => do
      if ← hasItem first then
        let head ← item
        let tail ← items item bound false
        return head :: tail
      else return []

/-- The end of an array whose items have all been read. -/
def endOfArray : Reader Unit := do
  match ← peekToken with
  | none => failNext .endInList
  | some ']' => advance
  | some ',' =>
      advance
      match ← peekToken with
      | some ']' => failNext .trailingComma
      | _ => failNext .trailingCharacters
  | some _ => failNext .trailingCharacters

/-- A list of any length. -/
def list (item : Option (Reader α)) : Reader (List α) := do
  match ← peekToken with
  | none => failNext .endInValue
  | some '[' =>
      let text ← remaining
      enter (item.map fun item => leave closeArray do
        let result ← items item text true
        endOfArray
        return result)
  | some _ => mismatch "a sequence"

/-- The item of a fixed-length array at an index. `expected` says what a shorter array lacks. -/
def itemAt (index : Nat) (expected : String) (item : Reader α) : Reader α := do
  if ← hasItem (index == 0) then item
  else failPending (.invalidLength index expected)

/-- The item of a fixed-length array at an index, or what stands for a missing one. -/
def itemAtOr (index : Nat) (missing : α) (item : Reader α) : Reader α := do
  if ← hasItem (index == 0) then item
  else return missing

/-- A pair as an array. -/
def pair (expected : String) (parts : Option (Reader α × Reader β)) : Reader (α × β) := do
  match ← peekToken with
  | none => failNext .endInValue
  | some '[' =>
      enter (parts.map fun (left, right) => leave closeArray do
        let first ← itemAt 0 (expected ++ " with 2 elements") left
        let second ← itemAt 1 (expected ++ " with 2 elements") right
        endOfArray
        return (first, second))
  | some _ => mismatch expected

/-- A triple as an array. -/
def triple {γ : Type} (expected : String) (parts : Option (Reader α × Reader β × Reader γ)) :
    Reader (α × β × γ) := do
  match ← peekToken with
  | none => failNext .endInValue
  | some '[' =>
      enter (parts.map fun (left, middle, right) => leave closeArray do
        let first ← itemAt 0 (expected ++ " with 3 elements") left
        let second ← itemAt 1 (expected ++ " with 3 elements") middle
        let third ← itemAt 2 (expected ++ " with 3 elements") right
        endOfArray
        return (first, second, third))
  | some _ => mismatch expected

/-- Whether another member of an object follows; its key is left with the quote next. -/
def hasMember (first : Bool) : Reader Bool := do
  match ← peekToken with
  | none => failNext .endInObject
  | some '\x7d' => return false
  | some c =>
      if first then
        if c = '"' then return true else failNext .keyMustBeString
      else if c ≠ ',' then failNext .expectedObjectCommaOrEnd
      else
        advance
        match ← peekToken with
        | none => failNext .endInValue
        | some '"' => return true
        | some '\x7d' => failNext .trailingComma
        | some _ => failNext .keyMustBeString

/-- The members of an object, each of which changes a state. `step` reads what follows a key. A text longer
than the rest bounds the number of members. -/
def members (step : String → σ → Reader σ) : (bound : List Char) → (first : Bool) → σ → Reader σ
  | [], _, state => return state
  | _ :: bound, first, state => do
      if ← hasMember first then
        advance
        let key ← stringRest
        let state ← step key state
        members step bound false state
      else return state

/-- A field that has been read at most once. -/
def once (key : String) (known : Option α) (value : Reader α) : Reader (Option α) :=
  match known with
  | some _ => failPending (.duplicateField key)
  | none => do
      colon
      let value ← value
      return some value

/-- Passes over the value of a key that is no field. -/
def unknown (state : σ) : Reader σ := do
  colon
  skipValue
  return state

/-- A field that must be there. -/
def required (key : String) : Option α → Reader α
  | some value => return value
  | none => failPending (.missingField key)

/-- How the fields of a record are read in its two notations. -/
structure Fields (σ α : Type) where
  /-- No field read yet. -/
  start : σ
  /-- Reads what follows a key. -/
  step : String → σ → Reader σ
  /-- The record, once no member follows. -/
  finish : σ → Reader α
  /-- The fields as the items of an array. -/
  positional : Reader α

/-- A record. -/
def record (expected : String) (fields : Option (Fields σ α)) : Reader α := do
  match ← peekToken with
  | none => failNext .endInValue
  | some '\x7b' =>
      let text ← remaining
      enter (fields.map fun fields => leave closeObject do
        let state ← members fields.step text true fields.start
        let result ← fields.finish state
        advance
        return result)
  | some '[' =>
      enter (fields.map fun fields => leave closeArray do
        let result ← fields.positional
        endOfArray
        return result)
  | some _ => mismatch expected

/-- The tag with the name that stands after an opening quote. -/
def tag [Tag α] : Reader α := do
  advance
  let name ← stringRest
  match Tag.ofName? name with
  | some tag => return tag
  | none => failHere (.unknownVariant name (Tag.names α))

/-- A tagged value: an object with one member, whose key is the tag and whose value is read as the tag
says, or a bare tag in quotes. -/
def tagged [Tag α] (bare : α → Reader β) (payload : Option (α → Reader β)) : Reader β := do
  match ← peekToken with
  | none => failNext .endInValue
  | some '\x7b' =>
      enter (payload.map fun payload => do
        match ← peekToken with
        | none => failNext .endInObject
        | some '"' =>
            let tag ← tag
            colon
            let value ← payload tag
            match ← peekToken with
            | none => failHere .endInObject
            | some '\x7d' =>
                advance
                return value
            | some _ => failHere .expectedValue
        | some '\x7d' => failNext .expectedValue
        | some _ => failNext .keyMustBeString)
  | some '"' =>
      let tag ← tag
      bare tag
  | some _ => failNext .expectedValue

/-- The value `null`. -/
def unit : Reader Unit := do
  match ← peekToken with
  | none => failNext .endInValue
  | some 'n' =>
      advance
      letters ['u', 'l', 'l']
  | some _ => mismatch "unit"

/-- A tag that stands for itself. As an object it has the value `null`. -/
def bareTag [Tag α] (nesting : Nat) : Reader α :=
  tagged (fun tag => return tag) <|
    match nesting with
    | 0 => none
    | _ + 1 => some fun tag => do
        unit
        return tag

/-- A value that may be `null`. -/
def optional (value : Reader α) : Reader (Option α) := do
  match ← peekToken with
  | some 'n' =>
      advance
      letters ['u', 'l', 'l']
      return none
  | _ =>
      let value ← value
      return some value

end ByteGrammar.Json.Reader
