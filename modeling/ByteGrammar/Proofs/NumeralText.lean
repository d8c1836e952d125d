import ByteGrammar.Proofs.BytePolynomial

/-!
# The texts of numerals

A numeral is written as sixteen digits that are the base 16 notation of its integer modulo `2^64`, so that
numerals which are congruent share a text. `numeral_text_is_notation` says this, and which numerals do not
show in front of bytes: those that are written with zeros only.
-/

namespace ByteGrammar

/-- The upper-case digits of base 16 in the order of their values. -/
def hexAlphabet : List Char :=
  ['0', '1', '2', '3', '4', '5', '6', '7', '8', '9', 'A', 'B', 'C', 'D', 'E', 'F']

/-- The number that digits of base 16 stand for, most significant first. -/
def hexNotation (digits : List Char) : Nat :=
  Nat.ofDigits 16 (digits.map hexAlphabet.idxOf).reverse

/-- A digit stands in the alphabet at its value. -/
theorem upper_digit_mem_alphabet {value : Nat} (h : value < 16) :
    Text.upperDigit value ∈ hexAlphabet ∧ hexAlphabet.idxOf (Text.upperDigit value) = value :=
  (by decide : ∀ value < 16, Text.upperDigit value ∈ hexAlphabet ∧
    hexAlphabet.idxOf (Text.upperDigit value) = value) value h

/-- All digits that are written are upper-case digits. -/
theorem upper_digits_subset_alphabet (count value : Nat) :
    ∀ c ∈ Text.upperDigits count value, c ∈ hexAlphabet := by
  induction count generalizing value with
  | zero => simp [Text.upperDigits]
  | succ count ih =>
      rw [Text.upperDigits, List.forall_mem_append, List.forall_mem_singleton]
      exact ⟨ih (value / 16), (upper_digit_mem_alphabet (Nat.mod_lt value (by decide))).1⟩

/-- The last digits of a number are the notation of its remainder. -/
theorem hex_notation_upper_digits (count value : Nat) :
    hexNotation (Text.upperDigits count value) = value % 16 ^ count := by
  induction count generalizing value with
  | zero => simp [hexNotation, Text.upperDigits, Nat.mod_one]
  | succ count ih =>
      have hlast := (upper_digit_mem_alphabet (Nat.mod_lt value (by decide : 0 < 16))).2
      have hfront := ih (value / 16)
      rw [hexNotation] at hfront ⊢
      rw [Text.upperDigits, List.map_append, List.reverse_append, List.map_singleton,
        List.reverse_singleton, List.singleton_append, Nat.ofDigits_cons, hlast, hfront,
        Nat.pow_succ', Nat.mod_mul]

/-- The pattern of a numeral is its integer modulo `2^64`. -/
theorem Numeral.bits_eq_emod (numeral : Numeral) :
    (numeral.bits.toNat : Int) = numeral.toInt % 2 ^ 64 := by
  cases numeral with
  | unsigned value =>
      have hvalue := value.toNat_lt
      exact (Int.emod_eq_of_lt (Int.natCast_nonneg _) (by exact_mod_cast hvalue)).symm
  | signed value =>
      have hvalue := value.toUInt64.toNat_lt
      show (value.toUInt64.toNat : Int) = value.toBitVec.toInt % 2 ^ 64
      rw [BitVec.toInt_eq_toNat_bmod, Int64.toNat_toBitVec]
      exact (Int.bmod_emod.trans
        (Int.emod_eq_of_lt (Int.natCast_nonneg _) (by exact_mod_cast hvalue))).symm

/-- The digits of a numeral are the notation of its pattern. -/
theorem hex_notation_bits (numeral : Numeral) :
    hexNotation (Text.upperDigits 16 numeral.bits.toNat) = numeral.bits.toNat := by
  have hfits : numeral.bits.toNat < 16 ^ 16 := numeral.bits.toNat_lt
  rw [hex_notation_upper_digits, Nat.mod_eq_of_lt hfits]

/-- Numerals are written alike exactly when they have the same pattern. -/
theorem Numeral.hex_eq_iff_bits {left right : Numeral} :
    left.hex = right.hex ↔ left.bits = right.bits := by
  constructor
  · intro h
    have hdigits : Text.upperDigits 16 left.bits.toNat = Text.upperDigits 16 right.bits.toNat := by
      rwa [hex, hex, String.append_right_inj, String.ofList_inj] at h
    rw [← UInt64.toNat_inj, ← hex_notation_bits left, ← hex_notation_bits right, hdigits]
  · intro h
    rw [hex, hex, h]

/-- Numerals have the same pattern exactly when they are congruent. -/
theorem Numeral.bits_eq_iff_mod {left right : Numeral} :
    left.bits = right.bits ↔ left.toInt ≡ right.toInt [ZMOD 2 ^ 64] := by
  rw [Int.ModEq, ← left.bits_eq_emod, ← right.bits_eq_emod, Int.natCast_inj, UInt64.toNat_inj]

/-- A numeral is written with zeros only exactly when it is zero. -/
theorem Numeral.hex_eq_zeros_iff {numeral : Numeral} :
    numeral.hex = "0x0000000000000000" ↔ numeral.isZero = true := by
  have hzero : (Numeral.unsigned 0).hex = "0x0000000000000000" := by decide
  rw [← hzero, Numeral.hex_eq_iff_bits, Numeral.isZero, beq_iff_eq]
  rfl

/-- A numeral in front of bytes is not significant exactly when it is zero. -/
theorem significant_num_cons_iff {numeral : Numeral} (bytes : List Term) :
    significant (.num numeral :: bytes) = significant bytes ↔ numeral.isZero = true := by
  cases hzero : numeral.isZero with
  | true => exact iff_of_true (List.dropWhile_cons_of_pos hzero) rfl
  | false =>
      have hkept : significant (.num numeral :: bytes) = .num numeral :: bytes :=
        List.dropWhile_cons_of_neg (by simpa [Term.isZeroNumeral, Term.numeral?] using hzero)
      refine iff_of_false (fun heq => ?_) Bool.false_ne_true
      -- What is significant of the bytes is shorter than the bytes with the numeral in front.
      have hlength := (List.dropWhile_sublist (l := bytes) Term.isZeroNumeral).length_le
      rw [hkept] at heq
      rw [← significant, ← heq, List.length_cons] at hlength
      omega

/-- A numeral alone is written as bytes by its own text, unless it is zero. -/
theorem render_concat_numeral {numeral : Numeral} (h : numeral.isZero = false) :
    (Term.concat [.num numeral]).render = .ok numeral.hex := by
  have hkept : significant [.num numeral] = [.num numeral] :=
    List.dropWhile_cons_of_neg (by simpa [Term.isZeroNumeral, Term.numeral?] using h)
  rw [render_concat, hkept]
  simp [renderAll, Term.render, polynomial, weighted, Except.map, Bind.bind, Except.bind, Pure.pure,
    Except.pure]

/-- Bytes are written as if a numeral in front of them were not there exactly when it is zero. -/
theorem render_num_cons_iff {numeral : Numeral} :
    (∀ bytes, (Term.concat (.num numeral :: bytes)).render = (Term.concat bytes).render) ↔
      numeral.isZero = true := by
  constructor
  · intro hsame
    by_contra hzero
    have halone := render_concat_numeral (Bool.eq_false_iff.mpr hzero)
    rw [hsame []] at halone
    have hzeroText : (Term.concat []).render = .ok "0" := rfl
    rw [hzeroText, Except.ok.injEq] at halone
    have hlength := congrArg (fun text => text.toList.length) halone
    simp [Numeral.hex, Text.length_upper_digits] at hlength
  · intro hzero bytes
    rw [render_concat, render_concat, (significant_num_cons_iff bytes).mpr hzero]

/-- A numeral is written as `0x` and sixteen digits, which are the base 16 notation of its integer modulo
`2^64`. So two numerals are written alike exactly when their integers are congruent. In front of bytes a
numeral is not significant, and leaves all texts as they are, exactly when it is written with zeros only. -/
theorem numeral_text_is_notation :
    (∀ numeral : Numeral, ∃ digits, numeral.hex.toList = '0' :: 'x' :: digits ∧ digits.length = 16 ∧
        (∀ c ∈ digits, c ∈ hexAlphabet) ∧ (hexNotation digits : Int) = numeral.toInt % 2 ^ 64) ∧
      (∀ left right : Numeral, left.hex = right.hex ↔ left.toInt ≡ right.toInt [ZMOD 2 ^ 64]) ∧
      ∀ numeral : Numeral,
        (∀ bytes, significant (.num numeral :: bytes) = significant bytes ↔
          numeral.hex = "0x0000000000000000") ∧
        ((∀ bytes, (Term.concat (.num numeral :: bytes)).render = (Term.concat bytes).render) ↔
          numeral.hex = "0x0000000000000000") := by
  simp only [Numeral.hex_eq_zeros_iff]
  refine ⟨fun numeral => ?_, fun left right => ?_, fun numeral => ?_⟩
  · refine ⟨Text.upperDigits 16 numeral.bits.toNat, by simp [Numeral.hex],
      Text.length_upper_digits _ _, upper_digits_subset_alphabet _ _, ?_⟩
    rw [hex_notation_bits, numeral.bits_eq_emod]
  · rw [Numeral.hex_eq_iff_bits, Numeral.bits_eq_iff_mod]
  · exact ⟨significant_num_cons_iff, render_num_cons_iff⟩

/-- The least signed numeral and the unsigned one that is congruent to it. -/
example : (Numeral.signed Int64.minValue).hex = "0x8000000000000000" ∧
    (Numeral.unsigned 0x8000000000000000).hex = (Numeral.signed Int64.minValue).hex := by
  decide

end ByteGrammar
