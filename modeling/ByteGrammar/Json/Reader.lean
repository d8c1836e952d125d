import ByteGrammar.Json.Error

/-!
# Readers

A `Reader` consumes characters from the front of a text. A failure names its place by the number of bytes
that are left, which the whole text turns into a line and a column. Some faults have no place yet when
they are noticed: they keep the rest of the text, and `leave` places them when the record, tuple or list
around them is left.

This module also reads the tokens: blanks, fixed words, and strings.
-/

namespace ByteGrammar.Json

/-- Why a reader stopped. -/
inductive Failure where
  /-- A fault with so many bytes left. -/
  | placed (cause : Cause) (remaining : Nat)
  /-- A fault noticed in front of `rest`, to be placed by what is around. -/
  | pending (cause : Cause) (rest : List Char)
  deriving DecidableEq, Repr, Inhabited

/-- A reader of a value from the front of a text. -/
abbrev Reader := StateT (List Char) (Except Failure)

namespace Reader

variable {α : Type}

/-- A fault at the place reached. -/
def failHere (cause : Cause) : Reader α :=
  fun rest => .error (.placed cause (byteCount rest))

/-- A fault one byte further, or at the end if nothing is left. -/
def failNext (cause : Cause) : Reader α :=
  fun rest => .error (.placed cause (byteCount rest - 1))

/-- A fault without a place. -/
def failPending (cause : Cause) : Reader α :=
  fun rest => .error (.pending cause rest)

/-- The next character. -/
def peek : Reader (Option Char) :=
  fun rest => .ok (rest.head?, rest)

/-- Drops the next character. -/
def advance : Reader Unit :=
  fun rest => .ok ((), rest.tail)

/-- The text that is left. -/
def remaining : Reader (List Char) :=
  fun rest => .ok (rest, rest)

/-- Whether a character may stand between tokens. -/
def isBlank (c : Char) : Bool :=
  c == ' ' || c == '\n' || c == '\t' || c == '\r'

/-- The next character that is no blank; the blanks before it are dropped. -/
def peekToken : Reader (Option Char) := fun rest =>
  let rest := rest.dropWhile isBlank
  .ok (rest.head?, rest)

/-- The remaining letters of a fixed word. -/
def letters : List Char → Reader Unit
  | [] => return ()
  | c :: word => do
      match ← peek with
      | none => failHere .endInValue
      | some d =>
          if d = c then
            advance
            letters word
          else failNext .expectedIdent

/-- Runs a reader of the inside of a list, a record or a tuple. A fault that has no place yet gets the
place that `close` reaches. -/
def leave (close : List Char → List Char) (inside : Reader α) : Reader α := fun rest =>
  match inside rest with
  | .error (.pending cause rest) => .error (.placed cause (byteCount (close rest)))
  | result => result

/-- What is left after an attempt to close an object: blanks and a brace are dropped. -/
def closeObject (rest : List Char) : List Char :=
  match rest.dropWhile isBlank with
  | '\x7d' :: rest => rest
  | rest => rest

/-- What is left after an attempt to close an array: blanks and a bracket are dropped, or a comma and
the blanks after it. -/
def closeArray (rest : List Char) : List Char :=
  match rest.dropWhile isBlank with
  | ']' :: rest => rest
  | ',' :: rest => rest.dropWhile isBlank
  | rest => rest

/-- The value of four hexadecimal digits. -/
def hexCode? (a b c d : Char) : Option Nat := do
  let a ← Text.digitValue? a
  let b ← Text.digitValue? b
  let c ← Text.digitValue? c
  let d ← Text.digitValue? d
  return ((a * 16 + b) * 16 + c) * 16 + d

/-- The fault of a place where four hexadecimal digits do not follow: too short, or wrong. -/
def hexFailure (rest : List Char) : Failure :=
  if byteCount rest < 4 then .placed .endInString 0
  else .placed .invalidEscape (byteCount rest - 4)

/-- The character for a letter after a backslash, other than `u`. -/
def simpleEscape? (c : Char) : Option Char :=
  if c = '"' ∨ c = '\\' ∨ c = '/' then some c
  else if c = 'b' then some '\x08'
  else if c = 'f' then some '\x0c'
  else if c = 'n' then some '\n'
  else if c = 'r' then some '\r'
  else if c = 't' then some '\t'
  else none

/-- Whether a code is the first half of a pair. -/
def isHighSurrogate (code : Nat) : Bool :=
  0xd800 ≤ code && code ≤ 0xdbff

/-- Whether a code is the second half of a pair. -/
def isLowSurrogate (code : Nat) : Bool :=
  0xdc00 ≤ code && code ≤ 0xdfff

/-- Prepends a character to what the rest of a string gives. -/
def consChar (c : Char) (result : Except Failure (List Char × List Char)) :
    Except Failure (List Char × List Char) :=
  result.map fun (text, rest) => (c :: text, rest)

/-- Decodes a string after its opening quote, and gives its characters and what follows the closing
quote. -/
def stringBody : List Char → Except Failure (List Char × List Char)
  | [] => .error (.placed .endInString 0)
  | '"' :: rest => .ok ([], rest)
  | '\\' :: [] => .error (.placed .endInString 0)
  | '\\' :: 'u' :: digits =>
      match digits with
      | a :: b :: c :: d :: rest =>
          match hexCode? a b c d with
          | none => .error (hexFailure digits)
          | some high =>
              if isLowSurrogate high then .error (.placed .loneSurrogate (byteCount rest))
              else if isHighSurrogate high then
                match rest with
                | [] => .error (.placed .endInString 0)
                | '\\' :: [] => .error (.placed .endInString 0)
                | '\\' :: 'u' :: digits =>
                    match digits with
                    | a :: b :: c :: d :: rest =>
                        match hexCode? a b c d with
                        | none => .error (hexFailure digits)
                        | some low =>
                            if isLowSurrogate low then
                              consChar
                                (Char.ofNat (0x10000 + (high - 0xd800) * 0x400 + (low - 0xdc00)))
                                (stringBody rest)
                            else .error (.placed .loneSurrogate (byteCount rest))
                    | digits => .error (hexFailure digits)
                | '\\' :: rest => .error (.placed .unfinishedSurrogate (byteCount rest - 1))
                | rest => .error (.placed .unfinishedSurrogate (byteCount rest - 1))
              else consChar (Char.ofNat high) (stringBody rest)
      | digits => .error (hexFailure digits)
  | '\\' :: c :: rest =>
      match simpleEscape? c with
      | some escaped => consChar escaped (stringBody rest)
      | none => .error (.placed .invalidEscape (byteCount (c :: rest) - 1))
  | c :: rest =>
      if c.toNat < 0x20 then .error (.placed .controlCharacter (byteCount (c :: rest) - 1))
      else consChar c (stringBody rest)

/-- A string after its opening quote. -/
def stringRest : Reader String := fun rest =>
  (stringBody rest).map fun (text, rest) => (String.ofList text, rest)

/-- A colon between a key and its value. -/
def colon : Reader Unit := do
  match ← peekToken with
  | some ':' => advance
  | some _ => failNext .expectedColon
  | none => failNext .endInObject

/-- Reads a whole text: one value with nothing but blanks behind it. -/
def run (reader : Reader α) (source : String) : Except ReadError α :=
  let text := source.toList
  let whole : Reader α := do
    let value ← reader
    match ← peekToken with
    | none => return value
    | some _ => failNext .trailingCharacters
  match whole text with
  | .ok (value, _) => .ok value
  | .error failure =>
      let (cause, remaining) := match failure with
        | .placed cause remaining => (cause, remaining)
        | .pending cause rest => (cause, byteCount rest)
      .error ⟨cause, .ofOffset text (byteCount text - remaining)⟩

end Reader

end ByteGrammar.Json
