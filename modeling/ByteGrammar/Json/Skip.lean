import ByteGrammar.Json.Reader

/-!
# Skipping a value

A member that nobody asked for is passed over. Only its notation is checked, so neither numbers nor
surrogates have a range, and values nest without limit: the open brackets are kept in a list.
-/

namespace ByteGrammar.Json

/-- A bracket that is open. -/
inductive Bracket where
  | square
  | curly
  deriving DecidableEq, Repr, Inhabited

namespace Bracket

/-- The fault of a text that ends inside a bracket. -/
def unfinished : Bracket → Cause
  | square => .endInList
  | curly => .endInObject

/-- The fault of a missing comma or end. -/
def unseparated : Bracket → Cause
  | square => .expectedListCommaOrEnd
  | curly => .expectedObjectCommaOrEnd

/-- The character that closes a bracket. -/
def close : Bracket → Char
  | square => ']'
  | curly => '\x7d'

end Bracket

namespace Reader

/-- Passes over a string after its opening quote. -/
def skipStringBody : List Char → Except Failure (Unit × List Char)
  | [] => .error (.placed .endInString 0)
  | '"' :: rest => .ok ((), rest)
  | '\\' :: [] => .error (.placed .endInString 0)
  | '\\' :: 'u' :: digits =>
      match digits with
      | a :: b :: c :: d :: rest =>
          match hexCode? a b c d with
          | none => .error (hexFailure digits)
          | some _ => skipStringBody rest
      | digits => .error (hexFailure digits)
  | '\\' :: c :: rest =>
      match simpleEscape? c with
      | some _ => skipStringBody rest
      | none => .error (.placed .invalidEscape (byteCount (c :: rest) - 1))
  | c :: rest =>
      if c.toNat < 0x20 then .error (.placed .controlCharacter (byteCount (c :: rest)))
      else skipStringBody rest

/-- Drops the digits at the front of the text. -/
def skipDigits : Reader Unit :=
  fun rest => .ok ((), rest.dropWhile Char.isDigit)

/-- Passes over an exponent after its letter. -/
def skipExponent : Reader Unit := do
  let sign ← peek
  if sign = some '+' ∨ sign = some '-' then advance
  match ← peek with
  | none => failHere .invalidNumber
  | some c => if c.isDigit then skipDigits else failNext .invalidNumber

/-- Passes over what follows the integer digits of a number. -/
def skipNumberTail : Reader Unit := do
  match ← peek with
  | some '.' =>
      advance
      match ← peek with
      | none => failNext .invalidNumber
      | some c =>
          if !c.isDigit then failNext .invalidNumber
          else
            skipDigits
            match ← peek with
            | some 'e' | some 'E' =>
                advance
                skipExponent
            | _ => return ()
  | some 'e' | some 'E' =>
      advance
      skipExponent
  | _ => return ()

/-- Passes over a number after its sign. -/
def skipNumber : Reader Unit := do
  match ← peek with
  | none => failHere .invalidNumber
  | some '0' =>
      advance
      match ← peek with
      | some c => if c.isDigit then failNext .invalidNumber else skipNumberTail
      | none => skipNumberTail
  | some c =>
      if c.isDigit then
        skipDigits
        skipNumberTail
      else failNext .invalidNumber

/-- Passes over a key and its colon, in front of its quote. -/
def skipKey : Reader Unit := do
  match ← peekToken with
  | none => failNext .endInObject
  | some '"' =>
      advance
      skipStringBody
      colon
  | some _ => failNext .keyMustBeString

/-- Passes over the start of a value: the whole of a simple one, the bracket of another one. -/
def skipStart : Reader (Option Bracket) := do
  match ← peekToken with
  | none => failNext .endInValue
  | some 'n' =>
      advance
      letters ['u', 'l', 'l']
      return none
  | some 't' =>
      advance
      letters ['r', 'u', 'e']
      return none
  | some 'f' =>
      advance
      letters ['a', 'l', 's', 'e']
      return none
  | some '-' =>
      advance
      skipNumber
      return none
  | some '"' =>
      advance
      skipStringBody
      return none
  | some '[' =>
      advance
      return some .square
  | some '\x7b' =>
      advance
      return some .curly
  | some c =>
      if c.isDigit then
        skipNumber
        return none
      else failNext .expectedValue

/-- Goes on inside the innermost open bracket, at its start or behind one of its values, until all
brackets are closed. Every step consumes a character, so a text longer than the rest bounds them. -/
def skipInside : (bound : List Char) → (behind : Bool) → List Bracket → Reader Unit
  | [], _, _ => return ()
  | _, _, [] => return ()
  | _ :: bound, behind, bracket :: enclosing => do
      match ← peekToken with
      | none => failNext bracket.unfinished
      | some c =>
          if c = bracket.close then
            advance
            skipInside bound true enclosing
          else if behind ∧ c ≠ ',' then failNext bracket.unseparated
          else
            if behind then advance
            if bracket = .curly then skipKey
            match ← skipStart with
            | some inner => skipInside bound false (inner :: bracket :: enclosing)
            | none => skipInside bound true (bracket :: enclosing)

/-- Passes over one value. -/
def skipValue : Reader Unit := do
  let text ← remaining
  match ← skipStart with
  | none => return ()
  | some bracket => skipInside text false [bracket]

end Reader

end ByteGrammar.Json
