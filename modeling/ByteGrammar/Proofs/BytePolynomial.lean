import ByteGrammar.Proofs.ArithmeticText

/-!
# Concatenations as polynomials in 256

The text of a concatenation has one summand for each of its bytes from the first one that is no literal zero
on, with as many factors 256 as bytes follow. `powers` pairs the elements of a list with these numbers, for
texts as for integers. `concat_written_as_polynomial` says that the summands of the text amount to the whole
list of bytes, whatever integers the bytes hold, and that zeros in front do not show.
-/

namespace ByteGrammar

/-- The elements of a list with exponents that run down to zero: the first of `n` elements has `n - 1`. -/
def powers {α : Type} (elements : List α) : List (Nat × α) :=
  (List.range elements.length).reverse.zip elements

/-- A summand of the text of a concatenation: one factor 256 after the other, and the text of a byte. -/
def summand (power : Nat) (text : String) : String :=
  String.join (List.replicate power "256 * ") ++ text

/-- The first exponent is the number of the other elements. -/
theorem powers_cons {α : Type} (element : α) (elements : List α) :
    powers (element :: elements) = (elements.length, element) :: powers elements := by
  simp [powers, List.range_succ]

/-- Texts of elements are weighted by the exponents of the elements. -/
theorem weighted_map {α : Type} (text : α → String) (elements : List α) :
    weighted (elements.map text) =
      (powers elements).map fun (power, element) => summand power (text element) := by
  induction elements with
  | nil => rfl
  | cons element elements ih =>
      rw [List.map_cons, weighted, ih, powers_cons, List.map_cons, List.length_map]
      rfl

/-- The polynomial of at least one text is the list of its summands with plus signs between them. -/
theorem polynomial_map {α : Type} (text : α → String) {elements : List α} (h : elements ≠ []) :
    polynomial (elements.map text) = " + ".intercalate
      ((powers elements).map fun (power, element) => summand power (text element)) := by
  rw [← weighted_map]
  cases elements with
  | nil => exact absurd rfl h
  | cons element elements => rfl

/-- The number with the given digits is the sum of the digits multiplied by their powers of 256. -/
theorem sum_powers {α : Type} (value : α → Int) (elements : List α) :
    ((powers elements).map fun (power, element) => 256 ^ power * value element).sum =
      bigEndian (elements.map value) := by
  induction elements with
  | nil => rfl
  | cons element elements ih =>
      rw [powers_cons, List.map_cons, List.sum_cons, ih, List.map_cons, bigEndian, List.length_map]

/-- The literal zeros are the two of either signedness. -/
theorem Term.is_zero_numeral_iff {term : Term} :
    term.isZeroNumeral = true ↔ term = .ofUnsigned 0 ∨ term = .ofSigned 0 := by
  cases term with
  | num value =>
      cases value with
      | unsigned value =>
          simp [isZeroNumeral, numeral?, Numeral.isZero, Numeral.bits, ofUnsigned, ofSigned]
      | signed value =>
          have hpattern : value.toUInt64 = 0 ↔ value = 0 := by
            constructor
            · intro h
              exact congrArg Int64.ofUInt64 h
            · rintro rfl
              rfl
          simpa [isZeroNumeral, numeral?, Numeral.isZero, Numeral.bits, ofUnsigned, ofSigned]
            using hpattern
  | _ => simp [isZeroNumeral, numeral?, ofUnsigned, ofSigned]

/-- Literal zeros in front are not significant. -/
theorem significant_append {zeros : List Term} (h : ∀ zero ∈ zeros, zero.isZeroNumeral = true)
    (bytes : List Term) : significant (zeros ++ bytes) = significant bytes :=
  List.dropWhile_append_of_pos h

/-- Of nothing but literal zeros, none is significant. -/
theorem significant_eq_nil_iff {bytes : List Term} :
    significant bytes = [] ↔ ∀ byte ∈ bytes, byte.isZeroNumeral = true :=
  List.dropWhile_eq_nil_iff

/-- A concatenation is written by its significant bytes. -/
theorem render_concat (bytes : List Term) :
    (Term.concat bytes).render = (renderAll (significant bytes)).map polynomial := by
  rw [Term.render, render_significant_eq, significant]
  cases renderAll (bytes.dropWhile Term.isZeroNumeral) <;> rfl

/-- A concatenation whose significant bytes have texts is written as the polynomial of these. -/
theorem render_concat_of_texts {bytes : List Term} {text : Term → String}
    (htext : ∀ byte ∈ significant bytes, byte.render = .ok (text byte)) :
    (Term.concat bytes).render = .ok (polynomial ((significant bytes).map text)) := by
  have hall : renderAll (significant bytes) = .ok ((significant bytes).map text) := by
    rw [render_all_eq_ok_iff, List.map_map]
    exact List.map_congr_left htext
  rw [render_concat, hall]
  rfl

/-- A concatenation is written as its polynomial in 256. Nothing but literal zeros is written as `0`.
Otherwise there is one summand for each significant byte: as many factors 256 as its power, then its text.
Whatever integers the bytes hold, zeros for the literal zeros, these summands amount to the bytes of the
whole list multiplied by their powers. Literal zeros in front leave the text as it is. -/
theorem concat_written_as_polynomial (bytes : List Term) (text : Term → String)
    (htext : ∀ byte ∈ significant bytes, byte.render = .ok (text byte)) :
    ((∀ byte ∈ bytes, byte = .ofUnsigned 0 ∨ byte = .ofSigned 0) →
        (Term.concat bytes).render = .ok "0") ∧
      ((∃ byte ∈ bytes, byte ≠ .ofUnsigned 0 ∧ byte ≠ .ofSigned 0) →
        (Term.concat bytes).render = .ok (" + ".intercalate
          ((powers (significant bytes)).map fun (power, byte) => summand power (text byte)))) ∧
      (∀ assigned : List (Term × Int), assigned.map Prod.fst = bytes →
        (∀ byte ∈ assigned, byte.1 = .ofUnsigned 0 ∨ byte.1 = .ofSigned 0 → byte.2 = 0) →
        let shown := assigned.dropWhile fun byte => byte.1.isZeroNumeral
        shown.map Prod.fst = significant bytes ∧
          ((powers shown).map fun (power, byte) => 256 ^ power * byte.2).sum =
            ((powers assigned).map fun (power, byte) => 256 ^ power * byte.2).sum) ∧
      ∀ zeros : List Term, (∀ zero ∈ zeros, zero = .ofUnsigned 0 ∨ zero = .ofSigned 0) →
        (Term.concat (zeros ++ bytes)).render = (Term.concat bytes).render := by
  have hrender := render_concat_of_texts htext
  simp only [← not_or, ← Term.is_zero_numeral_iff]
  refine ⟨fun hzeros => ?_, fun ⟨byte, hbyte, hnonzero⟩ => ?_, fun assigned hassigned hzeros => ?_,
    fun zeros hzeros => ?_⟩
  · rw [hrender, significant_eq_nil_iff.mpr hzeros]
    rfl
  · have hne : significant bytes ≠ [] := fun hnil =>
      hnonzero (significant_eq_nil_iff.mp hnil byte hbyte)
    rw [hrender, polynomial_map text hne]
  · refine ⟨?_, ?_⟩
    · rw [← hassigned, significant, List.dropWhile_map]
      rfl
    · rw [sum_powers Prod.snd, sum_powers Prod.snd, big_endian_drop_while hzeros]
  · rw [render_concat, render_concat, significant_append hzeros]

/-- Five bytes. The zeros of the first two are suppressed, the one of the fourth is not. -/
def sparseBytes : List Term :=
  [.ofUnsigned 0, .ofSigned 0, .select (.constant "B") (.ofUnsigned 1), .ofSigned 0,
    .select (.constant "B") (.ofUnsigned 3)]

/-- The texts of the bytes of `sparseBytes`. -/
def sparseText (byte : Term) : String :=
  if byte.isZeroNumeral then "0x0000000000000000"
  else if byte = .select (.constant "B") (.ofUnsigned 1) then "(Select 1)"
  else "(Select 3)"

/-- The text of `sparseBytes`, and what it amounts to when they hold 0, 0, 5, 0 and 7. -/
theorem sparse_bytes_as_polynomial :
    let assigned : List (Term × Int) := sparseBytes.zip [0, 0, 5, 0, 7]
    (∀ byte ∈ significant sparseBytes, byte.render = .ok (sparseText byte)) ∧
      (Term.concat sparseBytes).render =
        .ok "256 * 256 * (Select 1) + 256 * 0x0000000000000000 + (Select 3)" ∧
      (Term.concat (.ofUnsigned 0 :: sparseBytes)).render = (Term.concat sparseBytes).render ∧
      ((powers (assigned.drop 2)).map fun (power, byte) => 256 ^ power * byte.2).sum =
        ((powers assigned).map fun (power, byte) => 256 ^ power * byte.2).sum := by
  intro assigned
  have htext : ∀ byte ∈ significant sparseBytes, byte.render = .ok (sparseText byte) := by
    decide +kernel
  have hassigned : ∀ byte ∈ assigned, byte.1 = .ofUnsigned 0 ∨ byte.1 = .ofSigned 0 →
      byte.2 = 0 := by decide +kernel
  obtain ⟨-, hrender, hsum, hzeros⟩ := concat_written_as_polynomial sparseBytes sparseText htext
  refine ⟨htext, (hrender (by decide +kernel)).trans (by decide +kernel), ?_, ?_⟩
  · exact hzeros [.ofUnsigned 0] (List.forall_mem_singleton.mpr (.inl rfl))
  · exact (hsum assigned rfl hassigned).2

end ByteGrammar
