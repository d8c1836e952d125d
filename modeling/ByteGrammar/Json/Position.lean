/-!
# Positions in a text

A position is a line, counted from one, and the number of bytes that precede it on that line. Both are
computed from a number of leading bytes, which may end inside a character. The way back, `byteOffset`, takes
any two machine words for a line and a column, and its only sum that can be too large for one is the sum of
both.
-/

namespace ByteGrammar.Json

/-- The number of bytes of a list of characters in UTF-8. -/
def byteCount (text : List Char) : Nat :=
  text.foldl (fun count c => count + c.utf8Size) 0

/-- A line and a column. -/
structure Position where
  line : Nat
  column : Nat
  deriving DecidableEq, Repr, Inhabited

namespace Position

/-- The position `offset` bytes further than a position. -/
def advance : (text : List Char) → (offset : Nat) → Position → Position
  | [], _, position => position
  | c :: text, offset, position =>
      if offset < c.utf8Size then { position with column := position.column + offset }
      else if c = '\n' then advance text (offset - 1) ⟨position.line + 1, 0⟩
      else advance text (offset - c.utf8Size)
        { position with column := position.column + c.utf8Size }

/-- The position after a number of bytes of a text. -/
def ofOffset (text : List Char) (offset : Nat) : Position :=
  advance text offset ⟨1, 0⟩

end Position

/-- The number of bytes of the first `count` lines of a text with their line breaks, added to
`passed`. -/
def bytesOfLines : (count : Nat) → (text : List Char) → (passed : Nat) → Nat
  | 0, _, passed => passed
  | _, [], passed => passed
  | count + 1, c :: text, passed =>
      bytesOfLines (if c = '\n' then count else count + 1) text (passed + c.utf8Size)

/-- What becomes of a sum of machine words that does not fit into one. -/
inductive Overflow where
  /-- Its low bits are kept, as in a build without checks. -/
  | wraps
  /-- The run is stopped, as in a build with checks. -/
  | stops
  deriving DecidableEq, Repr, Inhabited

/-- Why there is no answer at all. -/
inductive Stop where
  | overflow
  deriving DecidableEq, Repr, Inhabited

/-- The sum of two machine words. -/
def Overflow.add (overflow : Overflow) (first second : UInt64) : Except Stop UInt64 :=
  match overflow with
  | wraps => .ok (first + second)
  | stops =>
      if first.toNat + second.toNat < UInt64.size then .ok (first + second) else .error .overflow

/-- The machine word before one. Zero is kept. -/
def wordBefore (word : UInt64) : UInt64 :=
  if word = 0 then 0 else word - 1

/-- The byte that a line and a column, both counted from one, point at, but at most the end of the text.
There is no line zero. -/
def byteOffset (overflow : Overflow) (source : List Char) (line column : UInt64) :
    Except Stop (Option UInt64) :=
  if line = 0 then .ok none
  else do
    let start := UInt64.ofNat (bytesOfLines (line - 1).toNat source 0)
    let offset ← overflow.add start (wordBefore column)
    return some (min offset (.ofNat (byteCount source)))

end ByteGrammar.Json
