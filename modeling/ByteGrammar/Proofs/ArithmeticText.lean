import ByteGrammar.Proofs.InfixText
import ByteGrammar.Proofs.WrittenForm

/-!
# What printed arithmetic is read as

An arithmetic term is built from literals, constants, bytes, sums, differences, products and
concatenations. `Term.value` is what it denotes, `Term.line` what its text amounts to for a reader of infix
expressions. A concatenation is written as a polynomial without parentheses of its own. After a minus sign
or a factor, only the first product of the polynomial is subtracted or multiplied, and the rest is added.
`Term.Grouped` describes the terms in which no polynomial of two or more bytes stands in such a place:
they are read as what they denote, under every assignment.
-/

namespace ByteGrammar

open Infix

/-- The sign of an addition, subtraction or multiplication in any spelling. -/
def ArithOp.sign? : ArithOp → Option Operator
  | add | bvAdd => some .plus
  | sub | bvSub => some .minus
  | mul | bvMul => some .times
  | _ => none

/-- An operator with a sign is written as that sign. -/
theorem ArithOp.symbol_of_sign {op : ArithOp} {sign : Operator} (h : op.sign? = some sign) :
    op.symbol = sign.symbol := by
  cases op <;> cases h <;> rfl

/-- The bytes of a concatenation that are written: all but the leading literal zeros. -/
def significant (bytes : List Term) : List Term :=
  bytes.dropWhile Term.isZeroNumeral

/-- A significant byte is one of the bytes. -/
theorem mem_of_mem_significant {byte : Term} {bytes : List Term} (h : byte ∈ significant bytes) :
    byte ∈ bytes :=
  (List.dropWhile_sublist _).subset h

/-- Arithmetic terms. -/
inductive Term.Arithmetic : Term → Prop where
  | num (value) : Arithmetic (.num value)
  | constant (name) : isIdentifier name = true → Arithmetic (.app name [] [])
  | byte (array index) : Arithmetic (.select array (.num index))
  | arith (op sign args) :
      op.sign? = some sign → 2 ≤ args.length → (∀ arg ∈ args, Arithmetic arg) →
      Arithmetic (.arith op args)
  | concat (bytes) : (∀ byte ∈ bytes, Arithmetic byte) → Arithmetic (.concat bytes)

/-! ## What a term denotes -/

/-- An operator applied to a list of values from left to right. -/
def Infix.Operator.fold (op : Operator) : List Int → Int
  | [] => 0
  | value :: values => values.foldl op.apply value

/-- Values added from left to right are their sum. -/
theorem Infix.Operator.fold_plus (numbers : List Int) : plus.fold numbers = numbers.sum := by
  cases numbers with
  | nil => rfl
  | cons number numbers =>
      show numbers.foldl (· + ·) number = (number :: numbers).sum
      rw [List.sum_eq_foldl, List.foldl_cons, zero_add]

/-- The number with the given base-256 digits, most significant first. -/
def bigEndian : List Int → Int
  | [] => 0
  | byte :: bytes => 256 ^ bytes.length * byte + bigEndian bytes

mutual
/-- The value of an arithmetic term under an assignment. -/
def Term.value (env : Assignment) : Term → Int
  | .num value => value.bits.toNat
  | .app name _ _ => env.constant name
  | .select _ index =>
    match index.numeral? with
    | some index => env.byte index.toInt
    | none => 0
  | .arith op args =>
    match op.sign? with
    | some sign => sign.fold (values env args)
    | none => 0
  | .concat bytes => bigEndian (values env bytes)
  | _ => 0

/-- The values of a list of arithmetic terms. -/
def values (env : Assignment) : List Term → List Int
  | [] => []
  | term :: terms => term.value env :: values env terms
end

/-- The values of a list are the values of its members. -/
theorem values_eq_map (env : Assignment) (terms : List Term) :
    values env terms = terms.map (Term.value env) := by
  induction terms with
  | nil => rfl
  | cons term terms ih => simp [values, ih]

/-! ## What its text amounts to -/

namespace Infix.Line

/-- Lines joined by a sign. -/
def joined (op : Operator) : List Line → Line
  | [] => single 0
  | line :: lines => lines.foldl (append op) line

/-- A line after a number of factors 256. -/
def weigh : Nat → Line → Line
  | 0, line => line
  | count + 1, line => (single 256).append .times (weigh count line)

/-- Every line after one factor 256 for each line that follows it. -/
def weighted : List Line → List Line
  | [] => []
  | line :: lines => line.weigh lines.length :: weighted lines

/-- The line of a polynomial in 256. -/
def polynomial (lines : List Line) : Line :=
  joined .plus (weighted lines)

end Infix.Line

mutual
/-- The line that the text of an arithmetic term amounts to under an assignment. -/
def Term.line (env : Assignment) : Term → Line
  | .num value => .single value.bits.toNat
  | .app name _ _ => .single (env.constant name)
  | .select _ index =>
    match index.numeral? with
    | some index => .single (env.byte index.toInt)
    | none => .single 0
  | .arith op args =>
    match op.sign? with
    | some sign => .single (Line.joined sign (lines env args)).total
    | none => .single 0
  | .concat bytes => .polynomial (significantLines env bytes)
  | _ => .single 0

/-- The lines of a list of arithmetic terms. -/
def lines (env : Assignment) : List Term → List Line
  | [] => []
  | term :: terms => term.line env :: lines env terms

/-- The lines of a list of bytes without its leading literal zeros. -/
def significantLines (env : Assignment) : List Term → List Line
  | [] => []
  | byte :: bytes =>
    if byte.isZeroNumeral then significantLines env bytes
    else byte.line env :: lines env bytes
end

/-- The lines of a list are the lines of its members. -/
theorem lines_eq_map (env : Assignment) (terms : List Term) :
    lines env terms = terms.map (Term.line env) := by
  induction terms with
  | nil => rfl
  | cons term terms ih => simp [lines, ih]

/-- The lines of a list of bytes are those of its significant bytes. -/
theorem significant_lines_eq_map (env : Assignment) (bytes : List Term) :
    significantLines env bytes = (significant bytes).map (Term.line env) := by
  induction bytes with
  | nil => rfl
  | cons byte bytes ih =>
      by_cases h : byte.isZeroNumeral = true
      · simp [significantLines, significant, h, ih]
      · simp [significantLines, significant, h, lines_eq_map]

namespace Infix.ReadsAs

variable {env : Assignment} {text : String} {line : Line} {texts : List String} {lines : List Line}

/-- Factors 256 before a text weigh its line. -/
theorem weigh (count : Nat) (h : ReadsAs env text line) :
    ReadsAs env (String.join (List.replicate count "256 * ") ++ text) (line.weigh count) := by
  induction count with
  | zero => simpa [Line.weigh] using h
  | succ count ih =>
      have hfactor : ReadsAs env "256" (.single 256) := integer 256
      have htext : String.join (List.replicate (count + 1) "256 * ") ++ text =
          "256" ++ (" " ++ Operator.symbol .times ++ " ") ++
            (String.join (List.replicate count "256 * ") ++ text) := by
        rw [List.replicate_succ, String.join_cons, String.append_assoc]
        rfl
      rw [htext]
      exact hfactor.sign .times ih

/-- Weighted texts are read as weighted lines. -/
theorem weighted (h : List.Forall₂ (ReadsAs env) texts lines) :
    List.Forall₂ (ReadsAs env) (ByteGrammar.weighted texts) (Line.weighted lines) := by
  induction h with
  | nil => exact .nil
  | @cons text line texts lines hfirst hrest ih =>
      rw [ByteGrammar.weighted, Line.weighted, hrest.length_eq]
      exact .cons (hfirst.weigh lines.length) ih

/-- Texts joined by a sign are read as joined lines. -/
theorem joined (op : Operator) (hlines : lines ≠ [])
    (h : List.Forall₂ (ReadsAs env) texts lines) :
    ReadsAs env ((" " ++ op.symbol ++ " ").intercalate texts) (Line.joined op lines) := by
  cases h with
  | nil => exact absurd rfl hlines
  | cons hfirst hrest => exact hfirst.intercalate op hrest

/-- A polynomial of texts is read as the polynomial of their lines. -/
theorem polynomial (h : List.Forall₂ (ReadsAs env) texts lines) :
    ReadsAs env (ByteGrammar.polynomial texts) (Line.polynomial lines) := by
  cases h with
  | nil => exact integer 0
  | cons hfirst hrest =>
      have hweighted := weighted (.cons hfirst hrest)
      exact joined .plus (List.cons_ne_nil _ _) hweighted

end Infix.ReadsAs

/-- Terms that can be written one by one can be written as a list. -/
theorem render_all_of_forall {Reads : String → Term → Prop} {terms : List Term}
    (h : ∀ term ∈ terms, ∃ text, term.render = .ok text ∧ Reads text term) :
    ∃ texts, renderAll terms = .ok texts ∧ List.Forall₂ Reads texts terms := by
  induction terms with
  | nil => exact ⟨[], rfl, .nil⟩
  | cons term terms ih =>
      obtain ⟨text, hterm, hreads⟩ := h term List.mem_cons_self
      obtain ⟨texts, hterms, hrest⟩ := ih fun other hother => h other (List.mem_cons_of_mem _ hother)
      refine ⟨text :: texts, ?_, .cons hreads hrest⟩
      rw [renderAll, hterm, hterms]
      rfl

/-- An arithmetic term is written, and its text reads as its line. -/
theorem Term.Arithmetic.reads_as {term : Term} (h : term.Arithmetic) (env : Assignment) :
    ∃ text, term.render = .ok text ∧ ReadsAs env text (term.line env) := by
  induction h with
  | num value => exact ⟨value.hex, rfl, .pattern value.bits.toNat_lt⟩
  | constant name hname => exact ⟨name, rfl, .name hname⟩
  | byte array index => exact ⟨_, rfl, .select index.toInt⟩
  | arith op sign args hsign hlength _ ih =>
      obtain ⟨texts, htexts, hreads⟩ := render_all_of_forall ih
      refine ⟨_, Term.render_of_written (.arith op args texts htexts), ?_⟩
      have hlines : args.map (Term.line env) ≠ [] := by
        cases args with
        | nil => simp at hlength
        | cons => simp
      have hjoined := ReadsAs.joined sign hlines (List.forall₂_map_right_iff.mpr hreads)
      simp only [Term.line, hsign, lines_eq_map, infixed, ArithOp.symbol_of_sign hsign]
      exact hjoined.group
  | concat bytes _ ih =>
      obtain ⟨texts, htexts, hreads⟩ :=
        render_all_of_forall fun byte hbyte => ih byte (mem_of_mem_significant hbyte)
      refine ⟨_, Term.render_of_written (.concat bytes texts htexts), ?_⟩
      simp only [Term.line, significant_lines_eq_map]
      exact .polynomial (List.forall₂_map_right_iff.mpr hreads)

/-! ## Where the text says what the term denotes -/

namespace Infix.Line

variable {line left right : Line} {lines : List Line}

/-- A line without additions and subtractions. -/
def Product (line : Line) : Prop :=
  ∀ step ∈ line.rest, step.1 = .times

/-- A single operand is read as itself. -/
theorem total_single (value : Int) : (single value).total = value := by
  simp [total, tally, single, Tally.total]

/-- A sign and an operand at the front of the rest advance the tally before the others do. -/
theorem tally_cons (start : Tally) (first value : Int) (op : Operator)
    (rest : List (Operator × Int)) :
    (Line.mk first ((op, value) :: rest)).tally start =
      (Line.mk first rest).tally (start.advance op value) :=
  rfl

/-- What is added up to the left of a line is added to its total. -/
theorem total_tally (line : Line) (sum product : Int) :
    (line.tally ⟨sum, product⟩).total = sum + (line.tally ⟨0, product⟩).total := by
  obtain ⟨first, rest⟩ := line
  induction rest generalizing sum product with
  | nil => simp [tally, Tally.total]
  | cons step rest ih =>
      obtain ⟨op, value⟩ := step
      rw [tally_cons, tally_cons]
      -- Additions move the product into the sum, so both sides use the hypothesis at a new sum.
      cases op with
      | plus =>
          simp only [Tally.advance]
          rw [ih (sum + product) value, ih (0 + product) value]
          ring
      | minus =>
          simp only [Tally.advance]
          rw [ih (sum + product) (-value), ih (0 + product) (-value)]
          ring
      | times =>
          simp only [Tally.advance]
          exact ih sum (product * value)

/-- A factor before a line without additions multiplies its total. -/
theorem Product.tally_mul (h : line.Product) (sum factor product : Int) :
    line.tally ⟨sum, factor * product⟩ =
      ⟨sum, factor * (line.tally ⟨0, product⟩).total⟩ := by
  obtain ⟨first, rest⟩ := line
  induction rest generalizing product with
  | nil => simp [tally, Tally.total]
  | cons step rest ih =>
      obtain ⟨op, value⟩ := step
      obtain rfl : op = .times := h _ List.mem_cons_self
      have htail : (Line.mk first rest).Product := fun other hother =>
        h other (List.mem_cons_of_mem _ hother)
      rw [tally_cons, tally_cons]
      simp only [Tally.advance, mul_assoc]
      exact ih (product * value) htail

/-- Adding two lines adds their totals. -/
theorem total_append_plus (left right : Line) :
    (left.append .plus right).total = left.total + right.total := by
  rw [total, tally_append]
  simp only [Tally.advance, append]
  rw [total_tally]
  rfl

/-- Subtracting a line without additions subtracts its total. -/
theorem Product.total_append_minus (hright : right.Product) :
    (left.append .minus right).total = left.total - right.total := by
  rw [total, tally_append]
  simp only [Tally.advance, append]
  -- A minus sign is a factor of minus one, which only a line without additions carries through.
  rw [neg_eq_neg_one_mul, hright.tally_mul]
  simp only [Tally.total, total]
  ring

/-- Multiplying lines without additions multiplies their totals. -/
theorem Product.total_append_times (hleft : left.Product) (hright : right.Product) :
    (left.append .times right).total = left.total * right.total := by
  have htally : left.tally ⟨0, left.first⟩ = ⟨0, left.total⟩ := by
    have h := hleft.tally_mul 0 1 left.first
    rwa [one_mul, one_mul] at h
  rw [total, tally_append]
  simp only [append]
  rw [htally]
  simp only [Tally.advance]
  rw [hright.tally_mul]
  simp only [Tally.total, total]
  ring

/-- A product of lines without additions is a line without additions. -/
theorem Product.append_times (hleft : left.Product) (hright : right.Product) :
    (left.append .times right).Product := by
  intro step hstep
  simp only [append, List.mem_append, List.mem_cons] at hstep
  rcases hstep with hstep | rfl | hstep
  · exact hleft step hstep
  · rfl
  · exact hright step hstep

/-- A single operand is a line without additions. -/
theorem product_single (value : Int) : (single value).Product := by
  intro step hstep
  cases hstep

/-- Joining lines one by one computes on their totals as long as every sign does. -/
theorem total_foldl {op : Operator} (Before After : Line → Prop)
    (happend : ∀ left right, Before left → After right →
      (left.append op right).total = op.apply left.total right.total ∧
      Before (left.append op right))
    (hline : Before line) (hlines : ∀ other ∈ lines, After other) :
    (lines.foldl (append op) line).total = (lines.map total).foldl op.apply line.total := by
  induction lines generalizing line with
  | nil => rfl
  | cons next lines ih =>
      obtain ⟨htotal, hbefore⟩ := happend line next hline (hlines next List.mem_cons_self)
      rw [List.foldl_cons, ih hbefore fun other hother => hlines other (List.mem_cons_of_mem _ hother),
        htotal]
      rfl

/-- A sum of lines is read as the sum of their totals. -/
theorem total_joined_plus (lines : List Line) :
    (joined .plus lines).total = Operator.plus.fold (lines.map total) := by
  cases lines with
  | nil => rfl
  | cons line lines =>
      exact total_foldl (fun _ => True) (fun _ => True)
        (fun left right _ _ => ⟨total_append_plus left right, trivial⟩) trivial fun _ _ => trivial

/-- Lines without additions after the first can be subtracted from it. -/
theorem total_joined_minus (hlines : ∀ other ∈ lines, other.Product) :
    (joined .minus (line :: lines)).total = Operator.minus.fold ((line :: lines).map total) :=
  total_foldl (fun _ => True) Product
    (fun _ _ _ hright => ⟨hright.total_append_minus, trivial⟩) trivial hlines

/-- Lines without additions can be multiplied. -/
theorem total_joined_times (hlines : ∀ line ∈ lines, line.Product) :
    (joined .times lines).total = Operator.times.fold (lines.map total) := by
  cases lines with
  | nil => rfl
  | cons line lines =>
      have hforall := List.forall_mem_cons.mp hlines
      exact total_foldl Product Product
        (fun _ _ hleft hright => ⟨hleft.total_append_times hright, hleft.append_times hright⟩)
        hforall.1 hforall.2

/-- Factors 256 before a line without additions weigh its total. -/
theorem Product.weigh (h : line.Product) (count : Nat) :
    (line.weigh count).Product ∧ (line.weigh count).total = 256 ^ count * line.total := by
  induction count with
  | zero => exact ⟨h, by rw [Line.weigh, pow_zero, one_mul]⟩
  | succ count ih =>
      obtain ⟨hproduct, htotal⟩ := ih
      refine ⟨(product_single 256).append_times hproduct, ?_⟩
      rw [Line.weigh, (product_single 256).total_append_times hproduct, htotal, total_single]
      ring

/-- A polynomial is read as its value when only its last byte has additions. -/
theorem total_polynomial (hlines : ∀ line ∈ lines.dropLast, line.Product) :
    (polynomial lines).total = bigEndian (lines.map total) := by
  rw [polynomial, total_joined_plus, Operator.fold_plus]
  induction lines with
  | nil => rfl
  | cons line lines ih =>
      cases lines with
      | nil => simp [weighted, weigh, bigEndian]
      | cons next lines =>
          rw [List.dropLast_cons_cons] at hlines
          obtain ⟨hline, hrest⟩ := List.forall_mem_cons.mp hlines
          rw [weighted, List.map_cons, List.sum_cons, ih hrest, (hline.weigh _).2]
          show _ = 256 ^ ((next :: lines).map total).length * line.total + bigEndian _
          rw [List.length_map]

/-- Joining lines in any grouping gives the same line. -/
theorem append_assoc (op next : Operator) (left middle right : Line) :
    (left.append op middle).append next right = left.append op (middle.append next right) := by
  simp [append]

/-- A sum after a sign is a sum with that sign before its first line. -/
theorem append_joined_plus (op : Operator) (left line : Line) (lines : List Line) :
    left.append op (joined .plus (line :: lines)) = joined .plus (left.append op line :: lines) := by
  induction lines generalizing line with
  | nil => rfl
  | cons next lines ih =>
      show left.append op (joined .plus (line.append .plus next :: lines)) = _
      rw [ih, ← append_assoc]
      rfl

/-- After a sign only the first byte of a polynomial is subject to the sign, the others are added. -/
theorem total_append_polynomial (op : Operator) (left line : Line)
    (hlines : ∀ line ∈ lines, line.Product) :
    (left.append op (polynomial (line :: lines))).total =
      (left.append op (line.weigh lines.length)).total + bigEndian (lines.map total) := by
  have hrest := total_polynomial fun line hline => hlines line (List.dropLast_subset lines hline)
  rw [polynomial, total_joined_plus, Operator.fold_plus] at hrest
  rw [polynomial, weighted, append_joined_plus, total_joined_plus, Operator.fold_plus,
    List.map_cons, List.sum_cons, hrest]

end Infix.Line

/-- Terms that are written without an addition or subtraction outside parentheses. -/
inductive Term.Tight : Term → Prop where
  | num (value) : Tight (.num value)
  | constant (name) : Tight (.app name [] [])
  | byte (array index) : Tight (.select array (.num index))
  | arith (op args) : Tight (.arith op args)
  | zero (bytes) : significant bytes = [] → Tight (.concat bytes)
  | last (bytes byte) : significant bytes = [byte] → byte.Tight → Tight (.concat bytes)

/-- Terms in which a polynomial of two or more bytes is neither subtracted nor multiplied nor a byte of a
polynomial before its last one. -/
inductive Term.Grouped : Term → Prop where
  | num (value) : Grouped (.num value)
  | constant (name) : Grouped (.app name [] [])
  | byte (array index) : Grouped (.select array (.num index))
  | add (op args) :
      op.sign? = some .plus → (∀ arg ∈ args, Grouped arg) → Grouped (.arith op args)
  | sub (op first rest) :
      op.sign? = some .minus → (∀ arg ∈ first :: rest, Grouped arg) →
      (∀ arg ∈ rest, arg.Tight) → Grouped (.arith op (first :: rest))
  | mul (op args) :
      op.sign? = some .times → (∀ arg ∈ args, Grouped arg) → (∀ arg ∈ args, arg.Tight) →
      Grouped (.arith op args)
  | concat (bytes) :
      (∀ byte ∈ significant bytes, Grouped byte) →
      (∀ byte ∈ (significant bytes).dropLast, byte.Tight) → Grouped (.concat bytes)

/-- The line of a tight term has no additions. -/
theorem Term.Tight.product {term : Term} (h : term.Tight) (env : Assignment) :
    (term.line env).Product := by
  induction h with
  | num | constant | byte => exact Line.product_single _
  | arith op args =>
      rw [Term.line]
      cases op.sign? <;> exact Line.product_single _
  | zero bytes hbytes =>
      rw [Term.line, significant_lines_eq_map, hbytes]
      exact Line.product_single 0
  | last bytes byte hbytes _ ih =>
      rw [Term.line, significant_lines_eq_map, hbytes]
      exact ih

/-- The lines of tight terms have no additions. -/
theorem product_of_forall_tight {terms : List Term} (h : ∀ term ∈ terms, term.Tight)
    (env : Assignment) : ∀ line ∈ terms.map (Term.line env), line.Product :=
  List.forall_mem_map.mpr fun term hterm => (h term hterm).product env

/-- Terms that are read right one by one are read right as a list. -/
theorem map_total_line {terms : List Term} {env : Assignment}
    (h : ∀ term ∈ terms, (term.line env).total = term.value env) :
    (terms.map (Term.line env)).map Line.total = terms.map (Term.value env) := by
  rw [List.map_map]
  exact List.map_congr_left h

/-- Literal zeros denote zero. -/
theorem Term.value_of_is_zero {term : Term} (env : Assignment)
    (h : term.isZeroNumeral = true) : term.value env = 0 := by
  cases term with
  | num value =>
      have hbits : value.bits = 0 := beq_iff_eq.mp h
      rw [Term.value, hbits]
      rfl
  | _ => cases h

/-- Digits in front that are zero do not change a number. -/
theorem big_endian_drop_while {α : Type} {isZero : α → Bool} {digit : α → Int} {elements : List α}
    (h : ∀ element ∈ elements, isZero element = true → digit element = 0) :
    bigEndian ((elements.dropWhile isZero).map digit) = bigEndian (elements.map digit) := by
  induction elements with
  | nil => rfl
  | cons element elements ih =>
      rw [List.forall_mem_cons] at h
      by_cases hzero : isZero element = true
      · rw [List.dropWhile_cons_of_pos hzero, List.map_cons, bigEndian, h.1 hzero, mul_zero, zero_add]
        exact ih h.2
      · rw [List.dropWhile_cons_of_neg hzero]

/-- Leading literal zeros do not change a number. -/
theorem big_endian_significant (env : Assignment) (bytes : List Term) :
    bigEndian ((significant bytes).map (Term.value env)) =
      bigEndian (bytes.map (Term.value env)) :=
  big_endian_drop_while fun _ _ hzero => Term.value_of_is_zero env hzero

/-- A grouped term is read as what it denotes. -/
theorem Term.Grouped.total_line {term : Term} (h : term.Grouped) (env : Assignment) :
    (term.line env).total = term.value env := by
  induction h with
  | num | constant | byte => exact Line.total_single _
  | add op args hsign _ ih =>
      simp only [Term.line, Term.value, hsign, lines_eq_map, values_eq_map]
      rw [Line.total_single, Line.total_joined_plus, map_total_line ih]
  | sub op first rest hsign _ htight ih =>
      simp only [Term.line, Term.value, hsign, lines_eq_map, values_eq_map]
      rw [Line.total_single, List.map_cons,
        Line.total_joined_minus (product_of_forall_tight htight env), ← List.map_cons,
        map_total_line ih]
  | mul op args hsign _ htight ih =>
      simp only [Term.line, Term.value, hsign, lines_eq_map, values_eq_map]
      rw [Line.total_single, Line.total_joined_times (product_of_forall_tight htight env),
        map_total_line ih]
  | concat bytes _ htight ih =>
      have hlines := product_of_forall_tight htight env
      rw [List.map_dropLast] at hlines
      rw [Term.line, Term.value, significant_lines_eq_map, values_eq_map,
        Line.total_polynomial hlines, map_total_line ih, big_endian_significant]

/-- What stands before the bytes of a concatenation acts on the first significant one only, when the bytes
have no additions of their own. -/
theorem total_append_bytes {bytes rest : List Term} {first : Term}
    (hbytes : significant bytes = first :: rest) (hgrouped : ∀ byte ∈ bytes, byte.Grouped)
    (htight : ∀ byte ∈ bytes, byte.Tight) (op : Operator) (left : Line) (env : Assignment) :
    (left.append op ((Term.concat bytes).line env)).total =
      (left.append op ((first.line env).weigh rest.length)).total +
        bigEndian (rest.map (Term.value env)) := by
  have hrest (byte : Term) (hbyte : byte ∈ rest) : byte ∈ bytes :=
    mem_of_mem_significant (hbytes ▸ List.mem_cons_of_mem first hbyte)
  have hlines := product_of_forall_tight (fun byte hbyte => htight byte (hrest byte hbyte)) env
  have hvalues : (rest.map (Term.line env)).map Line.total = rest.map (Term.value env) :=
    map_total_line fun byte hbyte => (hgrouped byte (hrest byte hbyte)).total_line env
  rw [Term.line, significant_lines_eq_map, hbytes, List.map_cons,
    Line.total_append_polynomial op left _ hlines, List.length_map, hvalues]

/-- The value of a concatenation by its first significant byte. -/
theorem value_of_bytes {bytes rest : List Term} {first : Term}
    (hbytes : significant bytes = first :: rest) (env : Assignment) :
    (Term.concat bytes).value env =
      256 ^ rest.length * first.value env + bigEndian (rest.map (Term.value env)) := by
  rw [Term.value, values_eq_map, ← big_endian_significant, hbytes, List.map_cons, bigEndian,
    List.length_map]

/-- Bytes that are subtracted are read right exactly when all but the first significant one amount to
zero: the others are added instead. -/
theorem difference_of_bytes_agrees_iff {minuend first : Term} {bytes rest : List Term}
    (hminuend : minuend.Grouped) (hbytes : significant bytes = first :: rest)
    (hgrouped : ∀ byte ∈ bytes, byte.Grouped) (htight : ∀ byte ∈ bytes, byte.Tight)
    (env : Assignment) :
    ((minuend.sub (.concat bytes)).line env).total = (minuend.sub (.concat bytes)).value env ↔
      bigEndian (rest.map (Term.value env)) = 0 := by
  have hfirst : first ∈ bytes := mem_of_mem_significant (hbytes ▸ List.mem_cons_self)
  obtain ⟨hproduct, htotal⟩ := ((htight first hfirst).product env).weigh rest.length
  have hline : ((minuend.sub (.concat bytes)).line env).total =
      ((minuend.line env).append .minus ((Term.concat bytes).line env)).total :=
    Line.total_single _
  have hvalue : (minuend.sub (.concat bytes)).value env =
      minuend.value env - (Term.concat bytes).value env := rfl
  rw [hline, hvalue, total_append_bytes hbytes hgrouped htight, hproduct.total_append_minus, htotal,
    hminuend.total_line, (hgrouped first hfirst).total_line, value_of_bytes hbytes]
  omega

/-- Bytes that are multiplied are read right exactly when all but the first significant one amount to
zero or the factor is one: the others are left unmultiplied. -/
theorem product_of_bytes_agrees_iff {factor first : Term} {bytes rest : List Term}
    (hfactor : factor.Grouped) (hfactorTight : factor.Tight)
    (hbytes : significant bytes = first :: rest)
    (hgrouped : ∀ byte ∈ bytes, byte.Grouped) (htight : ∀ byte ∈ bytes, byte.Tight)
    (env : Assignment) :
    ((factor.mul (.concat bytes)).line env).total = (factor.mul (.concat bytes)).value env ↔
      factor.value env = 1 ∨ bigEndian (rest.map (Term.value env)) = 0 := by
  have hfirst : first ∈ bytes := mem_of_mem_significant (hbytes ▸ List.mem_cons_self)
  obtain ⟨hproduct, htotal⟩ := ((htight first hfirst).product env).weigh rest.length
  have hline : ((factor.mul (.concat bytes)).line env).total =
      ((factor.line env).append .times ((Term.concat bytes).line env)).total :=
    Line.total_single _
  have hvalue : (factor.mul (.concat bytes)).value env =
      factor.value env * (Term.concat bytes).value env := rfl
  rw [hline, hvalue, total_append_bytes hbytes hgrouped htight,
    (hfactorTight.product env).total_append_times hproduct, htotal, hfactor.total_line,
    (hgrouped first hfirst).total_line, value_of_bytes hbytes]
  have hfactored (f a b : Int) : f * a + b = f * (a + b) ↔ f = 1 ∨ b = 0 := by
    rw [← sub_eq_zero, ← sub_eq_zero (a := f), ← mul_eq_zero, ← neg_eq_zero]
    ring_nf
  exact hfactored _ _ _

/-- The text of an arithmetic term has a reading. Under any assignment its value is the total of the
line of the term, so the text says what the term denotes exactly when that total is the value of the term,
and always does when the term is grouped. -/
theorem arithmetic_text_reads_as_line {term : Term} (h : term.Arithmetic) :
    ∃ text expr, term.render = .ok text ∧ Infix.read text = some expr ∧
      (∀ env, expr.eval env = (term.line env).total) ∧
      (∀ env, expr.eval env = term.value env ↔ (term.line env).total = term.value env) ∧
      (term.Grouped → ∀ env, expr.eval env = term.value env) := by
  -- Text and expression do not depend on the assignment, so any one of them names both.
  obtain ⟨text, htext, hreads⟩ := h.reads_as ⟨fun _ => 0, fun _ => 0⟩
  obtain ⟨expr, hexpr, -⟩ := hreads.read
  have hvalue (env : Assignment) : expr.eval env = (term.line env).total := by
    obtain ⟨other, hother, hline⟩ := h.reads_as env
    obtain rfl : text = other := Except.ok.inj (htext.symm.trans hother)
    obtain ⟨same, hsame, hsameValue⟩ := hline.read
    obtain rfl : expr = same := Option.some.inj (hexpr.symm.trans hsame)
    exact hsameValue
  refine ⟨text, expr, htext, hexpr, hvalue, fun env => ?_, fun hgrouped env => ?_⟩
  · rw [hvalue]
  · rw [hvalue, hgrouped.total_line]

/-- The number that two bytes hold. -/
def twoBytes : Term :=
  .concat [.select (.constant "B") (.ofUnsigned 1), .select (.constant "B") (.ofUnsigned 2)]

/-- Two bytes are arithmetic. -/
theorem arithmetic_two_bytes : twoBytes.Arithmetic :=
  .concat _ (List.forall_mem_cons.mpr ⟨.byte _ _, List.forall_mem_singleton.mpr (.byte _ _)⟩)

/-- A constant `x` of 1000, and bytes that hold their own index. -/
def sampleAssignment : Assignment where
  constant := fun name => if name = "x" then 1000 else 0
  byte := id

/-- The sum of a two-byte number and a literal is read as what it denotes. -/
theorem two_byte_sum_reads_as_line :
    ∃ text expr, (twoBytes.add (.ofUnsigned 4)).render = .ok text ∧
      Infix.read text = some expr ∧ expr.eval sampleAssignment = 262 := by
  have harithmetic : (twoBytes.add (.ofUnsigned 4)).Arithmetic :=
    .arith _ .plus _ rfl (by decide) (List.forall_mem_cons.mpr
      ⟨arithmetic_two_bytes, List.forall_mem_singleton.mpr (.num _)⟩)
  have htwo : twoBytes.Grouped :=
    .concat _
      (List.forall_mem_cons.mpr ⟨.byte _ _, List.forall_mem_singleton.mpr (.byte _ _)⟩)
      (List.forall_mem_singleton.mpr (.byte _ _))
  have hgrouped : (twoBytes.add (.ofUnsigned 4)).Grouped :=
    .add _ _ rfl (List.forall_mem_cons.mpr ⟨htwo, List.forall_mem_singleton.mpr (.num _)⟩)
  obtain ⟨text, expr, htext, hread, -, -, hvalue⟩ := arithmetic_text_reads_as_line harithmetic
  exact ⟨text, expr, htext, hread, (hvalue hgrouped sampleAssignment).trans (by decide +kernel)⟩

/-- A two-byte number is not subtracted as a whole: its low byte is added. -/
theorem two_byte_difference_misread :
    ((Term.constant "x").sub twoBytes).Arithmetic ∧
    ((Term.constant "x").sub twoBytes).render = .ok "(x - 256 * (Select 1) + (Select 2))" ∧
    (Infix.read "(x - 256 * (Select 1) + (Select 2))").map (Expr.eval sampleAssignment) =
      some 746 ∧
    ((Term.constant "x").sub twoBytes).value sampleAssignment = 742 := by
  refine ⟨?_, by decide +kernel, by decide +kernel, by decide +kernel⟩
  exact .arith _ .minus _ rfl (by decide) (List.forall_mem_cons.mpr
    ⟨.constant "x" (by decide), List.forall_mem_singleton.mpr arithmetic_two_bytes⟩)

end ByteGrammar
