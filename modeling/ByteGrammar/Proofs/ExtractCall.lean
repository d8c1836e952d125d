import ByteGrammar.Document.Basic
import ByteGrammar.Proofs.WrittenForm
import Mathlib

/-!
# Calls of the bit-range accessor

The accessor `Extract` of a document and the calls that a printed `extract` makes are written apart. The
definition is read as a function on words here: parameters are bound to operands by position, intermediate
names one after the other. Cutting out bits `high` down to `low` is what the body does when the operands
come as high, low and word. A printed call names the word first. Its first operand then only makes the
mask, and what is shifted and masked is the low position, of which nothing is left.
-/

namespace ByteGrammar

/-- The operators on words that a definition may use. -/
inductive WordOp where
  | shiftLeft
  | shiftRight
  | and
  | plus
  | minus
  deriving DecidableEq, Repr

/-- The sign of an operator on words. -/
def WordOp.symbol : WordOp → String
  | shiftLeft => "<<"
  | shiftRight => ">>"
  | and => ".&."
  | plus => "+"
  | minus => "-"

/-- What an operator does to two words. A shift by the width or more leaves nothing. -/
def WordOp.apply : WordOp → BitVec 64 → BitVec 64 → BitVec 64
  | shiftLeft, lhs, rhs => lhs <<< rhs
  | shiftRight, lhs, rhs => lhs >>> rhs
  | and, lhs, rhs => lhs &&& rhs
  | plus, lhs, rhs => lhs + rhs
  | minus, lhs, rhs => lhs - rhs

mutual
/-- An operand on its own: a literal, a name, or anything in parentheses. -/
inductive WordAtom where
  | literal (value : Nat)
  | name (name : String)
  | group (expr : WordExpr)

/-- An expression on words. Operators without parentheses are taken from left to right, so only the left
operand can be composite. -/
inductive WordExpr where
  | atom (atom : WordAtom)
  | binary (lhs : WordExpr) (op : WordOp) (rhs : WordAtom)
end

mutual
/-- The text of an operand. -/
def WordAtom.render : WordAtom → String
  | .literal value => toString value
  | .name name => name
  | .group expr => "(" ++ expr.render ++ ")"

/-- The text of an expression on words. -/
def WordExpr.render : WordExpr → String
  | .atom atom => atom.render
  | .binary lhs op rhs => lhs.render ++ " " ++ op.symbol ++ " " ++ rhs.render
end

mutual
/-- The word that an operand stands for, if every name in it is bound. -/
def WordAtom.eval (bound : List (String × BitVec 64)) : WordAtom → Option (BitVec 64)
  | .literal value => some (BitVec.ofNat 64 value)
  | .name name => bound.lookup name
  | .group expr => expr.eval bound

/-- The word that an expression stands for, if every name in it is bound. -/
def WordExpr.eval (bound : List (String × BitVec 64)) : WordExpr → Option (BitVec 64)
  | .atom atom => atom.eval bound
  | .binary lhs op rhs => do
      let left ← lhs.eval bound
      let right ← rhs.eval bound
      return op.apply left right
end

/-- A definition on words: its parameters, the names it introduces and the expression it gives. -/
structure Accessor where
  name : String
  formals : List String
  lets : List (String × WordExpr)
  result : WordExpr

namespace Accessor

/-- The text of a definition, with the empty line after it. -/
def render (accessor : Accessor) : String :=
  "def " ++ accessor.name ++
    String.join (accessor.formals.map fun formal => " (" ++ formal ++ " : uint 64)") ++
    " =\n  block\n" ++
    String.join (accessor.lets.map fun line =>
      "    let " ++ line.1 ++ " = " ++ line.2.render ++ "\n") ++
    "    " ++ accessor.result.render ++ "\n\n"

/-- Binds the names that a definition introduces, in order. -/
def bindLets (bound : List (String × BitVec 64)) :
    List (String × WordExpr) → Option (List (String × BitVec 64))
  | [] => some bound
  | (name, expr) :: lines => do
      let word ← expr.eval bound
      bindLets ((name, word) :: bound) lines

/-- The word that a definition gives for operands bound to its parameters by position. -/
def apply (accessor : Accessor) (operands : List (BitVec 64)) : Option (BitVec 64) := do
  guard (operands.length = accessor.formals.length)
  let bound ← bindLets (accessor.formals.zip operands) accessor.lets
  accessor.result.eval bound

/-- The text of a call with operands of the given texts. -/
def call (accessor : Accessor) (operands : List String) : String :=
  "(" ++ accessor.name ++ " " ++ " ".intercalate operands ++ ")"

end Accessor

/-- The definition that cuts a range of bits out of a word. -/
def extractDefinition : Accessor where
  name := "Extract"
  formals := ["High", "Low", "N"]
  lets := [("mask",
    .binary (.atom (.group (.binary (.atom (.literal 1)) .shiftLeft
      (.group (.binary (.binary (.atom (.name "High")) .minus (.name "Low")) .plus
        (.literal 1)))))) .minus (.literal 1))]
  result := .binary (.atom (.group (.binary (.atom (.name "N")) .shiftRight (.name "Low")))) .and
    (.name "mask")

/-- Every document starts with this definition of `Extract`. -/
theorem render_extract_definition : extractDefinition.render = extractAccessor := by
  decide +kernel

/-- The body of the definition as a function of its three parameters. -/
theorem extract_definition_apply (high low word : BitVec 64) :
    extractDefinition.apply [high, low, word] =
      some ((word >>> low) &&& ((1#64 <<< (high - low + 1#64)) - 1#64)) := by
  simp [Accessor.apply, Accessor.bindLets, extractDefinition, WordExpr.eval, WordAtom.eval,
    WordOp.apply, List.lookup]

/-- Bits `high` down to `low` of a word. -/
def bitField (high low : Nat) (word : BitVec 64) : BitVec 64 :=
  (word.extractLsb' low (high - low + 1)).setWidth 64

/-- One below a power of two is the mask of the bits below it, also when that is the whole word. -/
theorem to_nat_mask {width : Nat} (hwidth : width ≤ 64) :
    ((1#64 <<< BitVec.ofNat 64 width) - 1#64).toNat = 2 ^ width - 1 := by
  have hshift : (1#64 <<< BitVec.ofNat 64 width).toNat = 2 ^ width % 2 ^ 64 := by
    have hsmall : width % 2 ^ 64 = width := by omega
    have hone : 1 % 2 ^ 64 = 1 := rfl
    rw [BitVec.shiftLeft_eq', BitVec.toNat_shiftLeft, BitVec.toNat_ofNat, BitVec.toNat_ofNat,
      hsmall, hone, Nat.shiftLeft_eq, Nat.one_mul]
  rw [BitVec.toNat_sub, hshift, BitVec.toNat_ofNat]
  -- At the full width the shift leaves zero, and subtracting one wraps around to all ones.
  rcases Nat.lt_or_eq_of_le hwidth with hlt | rfl
  · have hpow : 2 ^ width < 2 ^ 64 := Nat.pow_lt_pow_right (by decide) hlt
    have hpos : 0 < 2 ^ width := Nat.two_pow_pos width
    rw [Nat.mod_eq_of_lt hpow]
    omega
  · decide

/-- Operands given as high, low and word make the body cut out those bits. -/
theorem extract_definition_correct {high low : Nat} (horder : low ≤ high) (hwidth : high < 64)
    (word : BitVec 64) :
    extractDefinition.apply [BitVec.ofNat 64 high, BitVec.ofNat 64 low, word] =
      some (bitField high low word) := by
  -- Neither the subtraction nor the addition wraps around.
  have hcount : BitVec.ofNat 64 high - BitVec.ofNat 64 low + 1#64 =
      BitVec.ofNat 64 (high - low + 1) := by
    apply BitVec.eq_of_toNat_eq
    simp only [BitVec.toNat_add, BitVec.toNat_sub, BitVec.toNat_ofNat]
    omega
  rw [extract_definition_apply, hcount]
  congr 1
  apply BitVec.eq_of_toNat_eq
  have hlow : low % 2 ^ 64 = low := by omega
  have hfits : (word.toNat >>> low) % 2 ^ (high - low + 1) < 2 ^ 64 :=
    lt_of_le_of_lt (Nat.mod_le _ _) (lt_of_le_of_lt (Nat.shiftRight_le _ _) word.isLt)
  rw [BitVec.toNat_and, to_nat_mask (by omega), Nat.and_two_pow_sub_one_eq_mod,
    BitVec.ushiftRight_eq', BitVec.toNat_ushiftRight, BitVec.toNat_ofNat, hlow, bitField,
    BitVec.toNat_setWidth, BitVec.extractLsb'_toNat, Nat.mod_eq_of_lt hfits]

/-- A position below the width is shifted out of the word by any position that is not below it. -/
theorem shift_right_position {high low : Nat} (horder : low ≤ high) (hwidth : high < 64) :
    BitVec.ofNat 64 low >>> BitVec.ofNat 64 high = 0#64 := by
  apply BitVec.eq_of_toNat_eq
  have hlow : low % 2 ^ 64 = low := by omega
  have hhigh : high % 2 ^ 64 = high := by omega
  have hsmall : low < 2 ^ high := lt_of_le_of_lt horder Nat.lt_two_pow_self
  rw [BitVec.ushiftRight_eq', BitVec.toNat_ushiftRight, BitVec.toNat_ofNat, BitVec.toNat_ofNat,
    hlow, hhigh, Nat.shiftRight_eq_div_pow, Nat.div_eq_of_lt hsmall, BitVec.toNat_ofNat,
    Nat.zero_mod]

/-- Operands given as word, high and low make the body give zero, whatever the word is. -/
theorem extract_definition_word_first {high low : Nat} (horder : low ≤ high) (hwidth : high < 64)
    (word : BitVec 64) :
    extractDefinition.apply [word, BitVec.ofNat 64 high, BitVec.ofNat 64 low] = some 0#64 := by
  rw [extract_definition_apply, shift_right_position horder hwidth, BitVec.zero_and]

/-- An operand of a call: what is written and the word that it stands for. -/
structure Operand where
  text : String
  word : BitVec 64

/-- A bit position as an operand. -/
def Operand.position (position : UInt32) : Operand where
  text := toString position.toNat
  word := BitVec.ofNat 64 position.toNat

/-- The operands of a bit range of the given value, in the order in which they are written. -/
def bitRangeOperands (high low : UInt32) (value : Operand) : List Operand :=
  [value, .position high, .position low]

/-- A bit position that is attached to a term is written in decimal. -/
theorem render_position (position : UInt32) :
    (Param.int (Int64.ofNat position.toNat)).render = (Operand.position position).text := by
  have hfits : position.toNat < 2 ^ 63 := lt_trans position.toNat_lt (by decide)
  simp only [Param.render, Operand.position]
  rw [Int64.toInt_ofNat_of_lt hfits]
  rfl

/-- A bit range is written as a call of `Extract` with the value first and the positions after it. -/
theorem render_bit_range {high low : UInt32} {value : Term} {operand : Operand}
    (hvalue : value.render = .ok operand.text) :
    (Term.bitRange high low value).render =
      .ok (extractDefinition.call ((bitRangeOperands high low operand).map Operand.text)) := by
  have hargs : renderAll [value] = .ok [operand.text] := by
    rw [render_all_eq_ok_iff, List.map_singleton, List.map_singleton, hvalue]
  have hwritten := Term.Written.extract [value] [.int (.ofNat high.toNat), .int (.ofNat low.toNat)]
    [operand.text] rfl hargs
  rw [Term.bitRange, Term.render_of_written hwritten]
  simp only [bitRangeOperands, extractDefinition, Accessor.call, List.map_cons, List.map_nil,
    render_position, List.cons_append, List.nil_append]
  rfl

/-- A printed bit range, taken as a call of the `Extract` that its document defines, gives those bits of
the value exactly when they are all zero. The definition itself is right: with its operands in the order
of its parameters it would always give them. -/
theorem extract_call_agrees_iff_zero {high low : UInt32} {value : Term} {operand : Operand}
    (hvalue : value.render = .ok operand.text) (horder : low ≤ high) (hwidth : high < 64) :
    extractDefinition.render = extractAccessor ∧
    (Term.bitRange high low value).render =
      .ok (extractDefinition.call ((bitRangeOperands high low operand).map Operand.text)) ∧
    (extractDefinition.apply ((bitRangeOperands high low operand).map Operand.word) =
        some (bitField high.toNat low.toNat operand.word) ↔
      bitField high.toNat low.toNat operand.word = 0) ∧
    extractDefinition.apply
        [(Operand.position high).word, (Operand.position low).word, operand.word] =
      some (bitField high.toNat low.toNat operand.word) := by
  have horder' : low.toNat ≤ high.toNat := UInt32.le_iff_toNat_le.mp horder
  have hwidth' : high.toNat < 64 := UInt32.lt_iff_toNat_lt.mp hwidth
  refine ⟨render_extract_definition, render_bit_range hvalue, ?_,
    extract_definition_correct horder' hwidth' operand.word⟩
  have hcall := extract_definition_word_first horder' hwidth' operand.word
  simp only [bitRangeOperands, Operand.position, List.map_cons, List.map_nil]
  rw [hcall, Option.some_inj]
  exact eq_comm

/-- The byte at index 5, when it holds the given word. -/
def sixthByte (word : BitVec 64) : Operand where
  text := "(Select 5)"
  word := word

/-- The high half of a byte is lost unless it is zero. -/
theorem extract_call_of_high_half :
    (extractDefinition.apply ((bitRangeOperands 7 4 (sixthByte 0x0C)).map Operand.word) =
        some (bitField 7 4 0x0C)) ∧
    (extractDefinition.apply ((bitRangeOperands 7 4 (sixthByte 0xA5)).map Operand.word) ≠
        some (bitField 7 4 0xA5)) := by
  have horder : (4 : UInt32) ≤ 7 := by decide
  have hvalue (word : BitVec 64) : (Term.select (.constant "B") (.ofUnsigned 5)).render =
      .ok (sixthByte word).text := rfl
  obtain ⟨-, -, hzero, -⟩ := extract_call_agrees_iff_zero (hvalue 0x0C) horder (by decide)
  obtain ⟨-, -, hlost, -⟩ := extract_call_agrees_iff_zero (hvalue 0xA5) horder (by decide)
  exact ⟨hzero.mpr (by decide), fun h => absurd (hlost.mp h) (by decide)⟩

/-- The high half of the byte `0xA5` is `0xA`, and the printed call for it gives zero. -/
theorem extract_call_loses_high_half :
    (Term.bitRange 7 4 (.select (.constant "B") (.ofUnsigned 5))).render =
      .ok "(Extract (Select 5) 7 4)" ∧
    extractDefinition.render = extractAccessor ∧
    extractDefinition.apply ((bitRangeOperands 7 4 (sixthByte 0xA5)).map Operand.word) = some 0 ∧
    bitField 7 4 0xA5 = 0xA := by
  decide +kernel

end ByteGrammar
