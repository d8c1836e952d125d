import ByteGrammar.Proofs.DefinitionReading
import ByteGrammar.Proofs.InfixText

/-!
# Unique readability of the notation

A `Form` is what the text of an expression shows: numbers, words, calls, operands in parentheses, and bare
comparisons. `Form.Legible` says which forms can be read: names are identifiers, `Select` and `Extract`
stand at the head of a group only, comparisons are not chained, and no minus sign stands before a decimal.
`form_eq_of_chars_eq` says that a text has one legible form. Its proof reads two texts side by side.
A single form stops at a space, a comma or a closing parenthesis (`Ends`); behind a form that may be a
comparison there is moreover no sign of comparison (`Closes`).
-/

namespace ByteGrammar

/-! ## Forms and their texts -/

/-- What the text of an expression shows. -/
inductive Form where
  | decimal (value : Int)
  /-- A 64-bit pattern in hexadecimal digits. -/
  | pattern (bits : UInt64)
  | word (name : String)
  /-- A name in front of its operands, which commas separate. -/
  | call (name : String) (operands : List Form)
  /-- A name and its operands with spaces between them, in parentheses. -/
  | spaced (name : String) (operands : List Form)
  /-- Operands with a sign between them, in parentheses. -/
  | infixed (sign : String) (operands : List Form)
  /-- A comparison, without parentheses. -/
  | compared (sign : String) (lhs rhs : Form)
  | not (arg : Form)
  | neg (arg : Form)

/-- Texts with a separator between them, and what stands behind the last one. -/
def separated (separator : List Char) (texts : List (List Char)) (rest : List Char) : List Char :=
  match texts with
  | [] => rest
  | [text] => text ++ rest
  | text :: texts => text ++ (separator ++ separated separator texts rest)

namespace Form

/-- Between the operands of a call. -/
def comma : List Char := [',', ' ']

/-- Between the operands of a group. -/
def space : List Char := [' ']

/-- Between operands that a sign joins. -/
def around (sign : String) : List Char := ' ' :: (sign.toList ++ [' '])

mutual
/-- The text of a form. -/
def chars : Form → List Char
  | decimal value => (toString value).toList
  | pattern bits => '0' :: 'x' :: Text.upperDigits 16 bits.toNat
  | word name => name.toList
  | call name operands => name.toList ++ '(' :: separated comma (charsAll operands) [')']
  | spaced name operands => '(' :: (name.toList ++ ' ' :: separated space (charsAll operands) [')'])
  | infixed sign operands => '(' :: separated (around sign) (charsAll operands) [')']
  | compared sign lhs rhs => lhs.chars ++ (around sign ++ rhs.chars)
  | not arg => '!' :: '(' :: (arg.chars ++ [')'])
  | neg arg => '-' :: arg.chars

/-- The texts of a list of forms. -/
def charsAll : List Form → List (List Char)
  | [] => []
  | form :: forms => form.chars :: charsAll forms
end

/-- Whether a form is a comparison. -/
def isComparison : Form → Bool
  | compared _ _ _ => true
  | _ => false

/-- Whether a form is a decimal. -/
def isDecimal : Form → Bool
  | decimal _ => true
  | _ => false

/-- The names that stand at the head of a group. -/
def headNames : List String :=
  ["Select", "Extract"]

/-- The signs of arithmetic. -/
def arithmeticSigns : List String :=
  ["+", "-", "*", "/", "%"]

/-- The signs of the connectives. -/
def connectiveSigns : List String :=
  ["&&", "||"]

/-- The signs of order. -/
def orderSigns : List String :=
  [">=", "<=", ">", "<"]

/-- The signs that join operands in parentheses. -/
def infixSigns : List String :=
  arithmeticSigns ++ connectiveSigns ++ orderSigns

/-- The signs of comparisons. -/
def comparisonSigns : List String :=
  ["==", "!="]

/-- The forms that can be read back from their text. -/
inductive Legible : Form → Prop where
  | decimal (value) : Legible (.decimal value)
  | pattern (bits) : Legible (.pattern bits)
  | word (name) : isIdentifier name = true → name ∉ headNames → Legible (.word name)
  | call (name operands) :
      isIdentifier name = true → operands ≠ [] → (∀ operand ∈ operands, Legible operand) →
      Legible (.call name operands)
  | spaced (name operands) :
      name ∈ headNames → operands ≠ [] → (∀ operand ∈ operands, Legible operand) →
      Legible (.spaced name operands)
  | infixed (sign operands) :
      sign ∈ infixSigns → 2 ≤ operands.length → (∀ operand ∈ operands, Legible operand) →
      Legible (.infixed sign operands)
  | compared (sign lhs rhs) :
      sign ∈ comparisonSigns → lhs.isComparison = false → rhs.isComparison = false →
      Legible lhs → Legible rhs → Legible (.compared sign lhs rhs)
  | not (arg) : Legible arg → Legible (.not arg)
  | neg (arg) :
      arg.isComparison = false → arg.isDecimal = false → Legible arg → Legible (.neg arg)

/-! ## First characters -/

/-- What the first character of a text tells about its form. -/
inductive Family where
  | number
  | word
  | group
  | not
  | neg
  deriving DecidableEq, Repr

/-- The forms that begin with a character, if any do. -/
def Family.ofChar? (c : Char) : Option Family :=
  if c = '(' then some group
  else if c = '!' then some not
  else if c = '-' then some neg
  else if c.isDigit then some number
  else if isIdentifierStart c then some word
  else none

/-- The family of a form. A comparison begins with its left side. -/
def family : Form → Family
  | decimal value => if value < 0 then .neg else .number
  | pattern _ => .number
  | word _ | call _ _ => .word
  | spaced _ _ | infixed _ _ => .group
  | compared _ lhs _ => lhs.family
  | not _ => .not
  | neg _ => .neg

/-- A digit begins a number. -/
theorem family_of_digit {c : Char} (h : c.isDigit = true) : Family.ofChar? c = some .number := by
  have hne (other : Char) (hother : other.isDigit = false) : c ≠ other :=
    ne_of_apply_ne Char.isDigit (by rw [h, hother]; decide)
  rw [Family.ofChar?, if_neg (hne '(' (by decide)), if_neg (hne '!' (by decide)),
    if_neg (hne '-' (by decide)), if_pos h]

/-- What starts an identifier begins a word. -/
theorem family_of_identifier_start {c : Char} (h : isIdentifierStart c = true) :
    Family.ofChar? c = some .word := by
  have hne (other : Char) (hother : isIdentifierStart other = false) : c ≠ other :=
    ne_of_apply_ne isIdentifierStart (by rw [h, hother]; decide)
  have hdigit := Infix.is_digit_of_identifier_start h
  rw [Family.ofChar?, if_neg (hne '(' (by decide)), if_neg (hne '!' (by decide)),
    if_neg (hne '-' (by decide)), hdigit, if_neg Bool.false_ne_true, if_pos h]

/-- The decimal digits of a number begin with a digit. -/
theorem exists_digits_cons (number : Nat) :
    ∃ c cs, Nat.toDigits 10 number = c :: cs ∧ c.isDigit = true := by
  obtain ⟨c, cs, hdigits⟩ := List.exists_cons_of_ne_nil (Nat.toDigits_ne_nil (b := 10) (n := number))
  have hmem : c ∈ Nat.toDigits 10 number := hdigits ▸ List.mem_cons_self
  exact ⟨c, cs, hdigits, Nat.isDigit_of_mem_toDigits (by decide) (by decide) hmem⟩

/-- The text of a decimal is its digits, behind a minus sign if it is negative. -/
theorem decimal_chars (value : Int) :
    (decimal value).chars =
      if value < 0 then '-' :: Nat.toDigits 10 (-value).toNat else Nat.toDigits 10 value.toNat := by
  rw [chars, Int.toString_eq_repr, Int.repr_eq_if]
  have hminus : "-".toList = ['-'] := by simp
  by_cases h : value < 0
  · rw [if_neg (not_le.mpr h), if_pos h, String.toList_append, Nat.toList_repr, hminus,
      List.singleton_append]
  · rw [if_pos (not_lt.mp h), if_neg h, Nat.toList_repr]

/-- An identifier has a first character, which may start one. -/
theorem exists_identifier_cons {name : String} (h : isIdentifier name = true) :
    ∃ c cs, name.toList = c :: cs ∧ isIdentifierStart c = true := by
  rw [isIdentifier] at h
  cases hname : name.toList with
  | nil => simp [hname] at h
  | cons c cs =>
      rw [hname, Bool.and_eq_true] at h
      exact ⟨c, cs, rfl, h.1⟩

/-- The text of a legible form begins as its family does. -/
theorem Legible.exists_chars_cons {form : Form} (h : form.Legible) :
    ∃ c cs, form.chars = c :: cs ∧ Family.ofChar? c = some form.family := by
  induction h with
  | decimal value =>
      rw [decimal_chars, family]
      split
      · exact ⟨'-', _, rfl, rfl⟩
      · obtain ⟨c, cs, hdigits, hc⟩ := exists_digits_cons value.toNat
        exact ⟨c, cs, hdigits, family_of_digit hc⟩
  | pattern bits => exact ⟨'0', _, rfl, rfl⟩
  | word name hname =>
      obtain ⟨c, cs, hchars, hc⟩ := exists_identifier_cons hname
      exact ⟨c, cs, hchars, family_of_identifier_start hc⟩
  | call name operands hname =>
      obtain ⟨c, cs, hchars, hc⟩ := exists_identifier_cons hname
      rw [chars, hchars]
      exact ⟨c, _, rfl, family_of_identifier_start hc⟩
  | spaced | infixed => exact ⟨'(', _, rfl, rfl⟩
  | compared sign lhs rhs _ _ _ _ _ ih =>
      obtain ⟨c, cs, hchars, hc⟩ := ih
      rw [chars, hchars]
      exact ⟨c, _, rfl, hc⟩
  | not => exact ⟨'!', _, rfl, rfl⟩
  | neg => exact ⟨'-', _, rfl, rfl⟩

/-- Forms whose texts begin alike are of one family. -/
theorem Legible.family_eq {first second : Form} (hfirst : first.Legible) (hsecond : second.Legible)
    {rest other : List Char} (h : first.chars ++ rest = second.chars ++ other) :
    first.family = second.family := by
  obtain ⟨c, cs, hchars, hc⟩ := hfirst.exists_chars_cons
  obtain ⟨d, ds, hchars', hd⟩ := hsecond.exists_chars_cons
  rw [hchars, hchars', List.cons_append, List.cons_append, List.cons.injEq] at h
  obtain ⟨rfl, -⟩ := h
  exact Option.some.inj (hc.symm.trans hd)

/-! ## Where a text is cut -/

/-- Two lists are cut where the items that pass a test end. -/
theorem append_cut {α : Type} {test : α → Bool} {first second rest other : List α}
    (hfirst : ∀ a ∈ first, test a = true) (hsecond : ∀ a ∈ second, test a = true)
    (hrest : ∀ a ∈ rest.head?, test a = false) (hother : ∀ a ∈ other.head?, test a = false)
    (h : first ++ rest = second ++ other) : first = second ∧ rest = other := by
  have htake {items more : List α} (hitems : ∀ a ∈ items, test a = true)
      (hmore : ∀ a ∈ more.head?, test a = false) : (items ++ more).takeWhile test = items := by
    rw [List.takeWhile_append_of_pos hitems]
    cases more with
    | nil => simp
    | cons a more => simp [hmore a rfl]
  have hparts : first = second := by
    rw [← htake hfirst hrest, h, htake hsecond hother]
  exact ⟨hparts, List.append_cancel_left (hparts ▸ h)⟩

/-- A single form is at its end. -/
def Ends (rest : List Char) : Prop :=
  ∀ c ∈ rest.head?, c = ' ' ∨ c = ',' ∨ c = ')'

/-- A form that may be a comparison is at its end. -/
def Closes (rest : List Char) : Prop :=
  Ends rest ∧ ∀ sign ∈ comparisonSigns, ∀ more, rest ≠ around sign ++ more

/-- What passes a test that no character behind a form passes is cut there. -/
theorem Ends.test {rest : List Char} (h : Ends rest) {test : Char → Bool} (hspace : test ' ' = false)
    (hcomma : test ',' = false) (hclosing : test ')' = false) : ∀ c ∈ rest.head?, test c = false := by
  intro c hc
  rcases h c hc with rfl | rfl | rfl <;> assumption

/-- A form ends in front of a closing parenthesis. -/
theorem closes_parenthesis (rest : List Char) : Closes (')' :: rest) := by
  refine ⟨fun c hc => ?_, fun sign _ more h => ?_⟩
  · cases hc
    simp
  · simp [around] at h

/-- A form ends where the text does. -/
theorem closes_nil : Closes [] := by
  refine ⟨fun c hc => ?_, fun sign _ more h => ?_⟩
  · cases hc
  · simp [around] at h

/-- Digits in front of the end of a form are the text of no other form than a decimal. -/
theorem digits_ne {digits rest other : List Char} {form : Form} (hform : form.Legible)
    (hatom : form.isComparison = false) (hdecimal : form.isDecimal = false)
    (hdigits : ∀ c ∈ digits, c.isDigit = true) (hne : digits ≠ []) (hrest : Ends rest) :
    digits ++ rest ≠ form.chars ++ other := by
  intro h
  obtain ⟨c, cs, rfl⟩ := List.exists_cons_of_ne_nil hne
  obtain ⟨d, ds, hchars, hd⟩ := hform.exists_chars_cons
  have hfamily : form.family = .number := by
    rw [hchars, List.cons_append, List.cons_append, List.cons.injEq] at h
    rw [← h.1, family_of_digit (hdigits c List.mem_cons_self)] at hd
    exact (Option.some.inj hd).symm
  cases hform with
  | pattern bits =>
      -- The digits end with the zero, in front of the `x`.
      have hzero : c :: cs ++ rest =
          ['0'] ++ 'x' :: (Text.upperDigits 16 bits.toNat ++ other) := by
        simpa [chars] using h
      have hcut := append_cut hdigits (by simp) (hrest.test (by decide) (by decide) (by decide))
        (by simp) hzero
      rw [hcut.2] at hrest
      simpa using hrest 'x' rfl
  | decimal => cases hdecimal
  | compared => cases hatom
  | _ => cases hfamily

/-! ## Numbers and names -/

/-- The characters of a decimal are digits and the minus sign. -/
theorem mem_decimal_chars {value : Int} {c : Char} (h : c ∈ (decimal value).chars) :
    (c.isDigit || c == '-') = true := by
  have hdigit {number : Nat} (hmem : c ∈ Nat.toDigits 10 number) : c.isDigit = true :=
    Nat.isDigit_of_mem_toDigits (by decide) (by decide) hmem
  rw [decimal_chars] at h
  split at h
  · rcases List.mem_cons.mp h with rfl | h
    · rfl
    · rw [hdigit h, Bool.true_or]
  · rw [hdigit h, Bool.true_or]

/-- The text of a decimal determines it. -/
theorem decimal_chars_injective {value other : Int} (h : (decimal value).chars = (decimal other).chars) :
    value = other := by
  have hvalue := Infix.integer_to_string value
  rw [← chars, h, chars, Infix.integer_to_string] at hvalue
  exact (Option.some.inj hvalue).symm

/-- Only a decimal has the text of one. -/
theorem decimal_told {value : Int} {form : Form} (hform : form.Legible)
    (hatom : form.isComparison = false) {rest other : List Char} (hrest : Ends rest)
    (hother : Ends other) (h : (decimal value).chars ++ rest = form.chars ++ other) :
    form = decimal value ∧ other = rest := by
  have hdigits (number : Nat) : ∀ c ∈ Nat.toDigits 10 number, c.isDigit = true :=
    fun _ hmem => Nat.isDigit_of_mem_toDigits (by decide) (by decide) hmem
  cases hdecimal : form.isDecimal with
  | true =>
      cases form <;> cases hdecimal
      have hcut := append_cut (fun _ => mem_decimal_chars) (fun _ => mem_decimal_chars)
        (hrest.test (by decide) (by decide) (by decide))
        (hother.test (by decide) (by decide) (by decide)) h
      exact ⟨by rw [decimal_chars_injective hcut.1], hcut.2.symm⟩
  | false =>
      exfalso
      have hfamily := (Legible.decimal value).family_eq hform h
      rw [decimal_chars] at h
      split at h
      next hneg =>
          rw [family, if_pos hneg] at hfamily
          cases hform with
          | neg arg hoperand hplain harg =>
              rw [chars, List.cons_append, List.cons_append, List.cons.injEq] at h
              exact digits_ne harg hoperand hplain (hdigits _) Nat.toDigits_ne_nil hrest h.2
          | decimal => cases hdecimal
          | compared => cases hatom
          | _ => cases hfamily
      next =>
          exact digits_ne hform hatom hdecimal (hdigits _) Nat.toDigits_ne_nil hrest h

/-- The digits of a pattern determine it. -/
theorem pattern_chars_injective {bits other : UInt64}
    (h : (pattern bits).chars = (pattern other).chars) : bits = other := by
  have hbits := Infix.word_hexadecimal bits.toNat_lt
  rw [← chars, h, chars, Infix.word_hexadecimal other.toNat_lt] at hbits
  simpa [UInt64.toNat_inj] using hbits.symm

/-- Two names are cut where what may stand inside a name ends. -/
theorem name_told {name other : String} (hname : isIdentifier name = true)
    (hother : isIdentifier other = true) {rest more : List Char}
    (hrest : ∀ c ∈ rest.head?, isIdentifierRest c = false)
    (hmore : ∀ c ∈ more.head?, isIdentifierRest c = false)
    (h : name.toList ++ rest = other.toList ++ more) : name = other ∧ rest = more := by
  have hcut := append_cut (fun _ => is_identifier_rest_of_mem hname)
    (fun _ => is_identifier_rest_of_mem hother) hrest hmore h
  exact ⟨String.toList_inj.mp hcut.1, hcut.2⟩

/-- No name goes on behind a single form. -/
theorem Ends.name {rest : List Char} (h : Ends rest) : ∀ c ∈ rest.head?, isIdentifierRest c = false :=
  h.test (by decide) (by decide) (by decide)

/-- No name goes on with a character that cannot stand inside one. -/
theorem ends_name_cons {c : Char} (hc : isIdentifierRest c = false) (rest : List Char) :
    ∀ d ∈ (c :: rest).head?, isIdentifierRest d = false := by
  intro d hd
  cases hd
  exact hc

/-- The names at the head of a group are identifiers. -/
theorem is_identifier_of_mem_head_names {name : String} (h : name ∈ headNames) :
    isIdentifier name = true := by
  revert name
  decide

/-! ## Signs -/

/-- There is no space in a sign. -/
theorem no_space_in_sign {sign : String} (h : sign ∈ infixSigns ++ comparisonSigns) :
    ∀ c ∈ sign.toList, (c != ' ') = true := by
  revert sign
  simp [infixSigns, arithmeticSigns, connectiveSigns, orderSigns, comparisonSigns]

/-- A sign is told between its spaces. -/
theorem sign_told {sign other : String} (hsign : sign ∈ infixSigns ++ comparisonSigns)
    (hother : other ∈ infixSigns ++ comparisonSigns) {rest more : List Char}
    (h : around sign ++ rest = around other ++ more) : sign = other ∧ rest = more := by
  simp only [around, List.cons_append, List.append_assoc, List.nil_append, List.cons.injEq,
    true_and] at h
  have hcut := append_cut (no_space_in_sign hsign) (no_space_in_sign hother) (by simp) (by simp) h
  exact ⟨String.toList_inj.mp hcut.1, (List.cons.inj hcut.2).2⟩

/-- A sign of a comparison joins no operands in parentheses. -/
theorem infix_sign_ne {sign other : String} (hsign : sign ∈ infixSigns)
    (hother : other ∈ comparisonSigns) : sign ≠ other := by
  rintro rfl
  revert sign
  decide

/-- Behind an exclamation mark there is a parenthesis. -/
theorem Legible.exists_not_chars {form : Form} (h : form.Legible) (hfamily : form.family = .not) :
    ∃ cs, form.chars = '!' :: '(' :: cs := by
  induction h with
  | not => exact ⟨_, rfl⟩
  | compared sign lhs rhs _ _ _ _ _ ih =>
      obtain ⟨cs, hchars⟩ := ih hfamily
      rw [chars, hchars]
      exact ⟨_, rfl⟩
  | decimal value =>
      rw [family] at hfamily
      split at hfamily <;> cases hfamily
  | _ => cases hfamily

/-- No form begins with a sign of comparison. -/
theorem Legible.comparison_sign_ne {form : Form} (hform : form.Legible) {sign : String}
    (hsign : sign ∈ comparisonSigns) {rest more : List Char} :
    form.chars ++ rest ≠ sign.toList ++ more := by
  intro h
  obtain ⟨c, cs, hchars, hc⟩ := hform.exists_chars_cons
  obtain rfl | rfl : sign = "==" ∨ sign = "!=" := by simpa [comparisonSigns] using hsign
  · rw [hchars] at h
    obtain ⟨rfl, -⟩ : c = '=' ∧ cs ++ rest = '=' :: more := by simpa using h
    cases hc
  · have hfamily : form.family = .not := by
      rw [hchars] at h
      obtain ⟨rfl, -⟩ : c = '!' ∧ cs ++ rest = '=' :: more := by simpa using h
      exact (Option.some.inj hc).symm
    obtain ⟨ds, hnot⟩ := hform.exists_not_chars hfamily
    simp [hnot] at h

/-- A text that begins with a name is that of a word or a call, or of a comparison with one in front. -/
theorem Legible.family_of_name {form : Form} (hform : form.Legible) {name : String}
    (hname : isIdentifier name = true) {rest more : List Char}
    (h : form.chars ++ rest = name.toList ++ more) : form.family = .word := by
  obtain ⟨c, cs, hchars, hc⟩ := hform.exists_chars_cons
  obtain ⟨d, ds, hcons, hd⟩ := exists_identifier_cons hname
  rw [hchars, hcons, List.cons_append, List.cons_append, List.cons.injEq] at h
  rw [h.1, family_of_identifier_start hd] at hc
  exact (Option.some.inj hc).symm

/-- No form in front of its end begins with the head of a group and a space. -/
theorem Legible.head_name_ne {form : Form} (hform : form.Legible) {head : String}
    (hhead : head ∈ headNames) {rest more : List Char} (hrest : Ends rest) :
    form.chars ++ rest ≠ head.toList ++ ' ' :: more := by
  intro h
  have hidentifier := is_identifier_of_mem_head_names hhead
  have hspace := ends_name_cons (show isIdentifierRest ' ' = false by decide) more
  have hfamily := hform.family_of_name hidentifier h
  induction hform generalizing rest more with
  | word name hname hother =>
      obtain ⟨rfl, -⟩ := name_told hname hidentifier hrest.name hspace h
      exact hother hhead
  | call name operands hname =>
      rw [chars, List.append_assoc] at h
      have hparenthesis := (name_told hname hidentifier (ends_name_cons (by decide) _) hspace h).2
      simp at hparenthesis
  | compared sign lhs rhs _ _ _ _ _ ih =>
      rw [chars, List.append_assoc] at h
      exact ih (by simp [Ends, around]) h hspace hfamily
  | decimal value =>
      rw [family] at hfamily
      split at hfamily <;> cases hfamily
  | _ => cases hfamily

/-! ## Two texts side by side -/

/-- What stands behind the last text goes on behind it. -/
theorem separated_append (separator : List Char) (texts : List (List Char)) (rest more : List Char) :
    separated separator texts rest ++ more = separated separator texts (rest ++ more) := by
  fun_induction separated separator texts rest <;> simp [separated, *]

/-- A first text begins the whole. -/
theorem exists_separated_cons (separator text : List Char) (texts : List (List Char))
    (rest : List Char) : ∃ more, separated separator (text :: texts) rest = text ++ more := by
  cases texts <;> exact ⟨_, rfl⟩

/-- A separator ends the form in front of it, if a form stands behind it, and does not close a
parenthesis. -/
structure Separates (separator : List Char) : Prop where
  closes : ∀ {form : Form}, form.Legible → ∀ rest, Closes (separator ++ (form.chars ++ rest))
  parenthesis : ∀ rest more, separator ++ rest ≠ ')' :: more

/-- A comma separates. -/
theorem separates_comma : Separates comma where
  closes _ rest := ⟨by simp [Ends, comma], by simp [comma, around]⟩
  parenthesis rest more := by simp [comma]

/-- A space separates, since no form begins with a sign of comparison. -/
theorem separates_space : Separates space where
  closes hform rest := by
    refine ⟨by simp [Ends, space], fun sign hsign more h => ?_⟩
    simp only [space, around, List.cons_append, List.nil_append, List.append_assoc, List.cons.injEq,
      true_and] at h
    exact hform.comparison_sign_ne hsign h
  parenthesis rest more := by simp [space]

/-- A sign that joins operands separates, since it is no sign of comparison. -/
theorem separates_around {sign : String} (h : sign ∈ infixSigns) : Separates (around sign) where
  closes _ rest := by
    refine ⟨by simp [Ends, around], fun other hother more heq => ?_⟩
    exact infix_sign_ne h hother
      (sign_told (List.mem_append_left _ h) (List.mem_append_right _ hother) heq).1
  parenthesis rest more := by simp [around]

/-- A form is told from every text that begins with its own and goes on as a form may: as a single form, if
it is one, and else where no comparison goes on. -/
structure Told (form : Form) : Prop where
  single : ∀ {other : Form} {rest more : List Char}, form.isComparison = false →
    other.Legible → other.isComparison = false → Ends rest → Ends more →
    form.chars ++ rest = other.chars ++ more → form = other ∧ rest = more
  whole : ∀ {other : Form} {rest more : List Char}, other.Legible → Closes rest → Closes more →
    form.chars ++ rest = other.chars ++ more → form = other ∧ rest = more

/-- A single form is told where no comparison goes on if it is told from the single forms: a comparison
that begins with it goes on. -/
theorem told_of_single {form : Form}
    (h : ∀ {other : Form} {rest more : List Char}, other.Legible → other.isComparison = false →
      Ends rest → Ends more → form.chars ++ rest = other.chars ++ more → form = other ∧ rest = more) :
    Told form where
  single _ := h
  whole := by
    intro other rest more hother hrest hmore heq
    cases hcompared : other.isComparison with
    | false => exact h hother hcompared hrest.1 hmore.1 heq
    | true =>
        cases hother with
        | compared sign lhs rhs hsign hlhs _ hleft _ =>
            rw [chars, List.append_assoc, List.append_assoc] at heq
            have hbehind := (h hleft hlhs hrest.1 (by simp [Ends, around]) heq).2
            exact absurd hbehind (hrest.2 sign hsign _)
        | _ => cases hcompared

/-- Operands in front of a closing parenthesis are told if each of them is. -/
theorem operands_told {separator : List Char} (hseparates : Separates separator)
    {operands others : List Form} (htold : ∀ operand ∈ operands, Told operand)
    (hoperands : ∀ operand ∈ operands, operand.Legible)
    (hothers : ∀ other ∈ others, other.Legible) (hne : operands ≠ []) (hne' : others ≠ [])
    {rest more : List Char}
    (h : separated separator (charsAll operands) (')' :: rest) =
      separated separator (charsAll others) (')' :: more)) : operands = others ∧ rest = more := by
  -- What stands behind an operand ends it.
  have hcloses {first next : Form} {forms : List Form} {tail : List Char}
      (hforms : ∀ form ∈ first :: next :: forms, form.Legible) :
      Closes (separator ++ separated separator (next.chars :: charsAll forms) tail) := by
    obtain ⟨behind, hbehind⟩ := exists_separated_cons separator next.chars (charsAll forms) tail
    rw [hbehind]
    exact hseparates.closes (hforms next (by simp)) behind
  induction operands generalizing others with
  | nil => exact absurd rfl hne
  | cons operand operands ih =>
      obtain ⟨other, others, rfl⟩ := List.exists_cons_of_ne_nil hne'
      have hoperand := htold operand List.mem_cons_self
      have hother := hothers other List.mem_cons_self
      cases operands with
      | nil =>
          cases others with
          | nil =>
              obtain ⟨rfl, hrest⟩ :=
                hoperand.whole hother (closes_parenthesis rest) (closes_parenthesis more) h
              exact ⟨rfl, (List.cons.inj hrest).2⟩
          | cons next others =>
              have hbehind :=
                (hoperand.whole hother (closes_parenthesis rest) (hcloses hothers) h).2
              exact absurd hbehind.symm (hseparates.parenthesis _ _)
      | cons second operands =>
          cases others with
          | nil =>
              have hbehind :=
                (hoperand.whole hother (hcloses hoperands) (closes_parenthesis more) h).2
              exact absurd hbehind (hseparates.parenthesis _ _)
          | cons next others =>
              obtain ⟨rfl, hbehind⟩ :=
                hoperand.whole hother (hcloses hoperands) (hcloses hothers) h
              obtain ⟨hforms, hrest⟩ := ih (fun form hform => htold form (.tail _ hform))
                (fun form hform => hoperands form (.tail _ hform))
                (fun form hform => hothers form (.tail _ hform))
                (List.cons_ne_nil _ _) (List.cons_ne_nil _ _) (List.append_cancel_left hbehind)
              exact ⟨by rw [hforms], hrest⟩

/-! ## Reading each form -/

/-- A decimal is told. -/
theorem told_decimal (value : Int) : Told (.decimal value) :=
  told_of_single fun hother hatom hrest hmore h =>
    (decimal_told hother hatom hrest hmore h).imp Eq.symm Eq.symm

/-- No other single form has the text of a decimal. -/
theorem eq_decimal_of_chars {form : Form} (hform : form.Legible) (hatom : form.isComparison = false)
    (hdecimal : form.isDecimal = false) {value : Int} {rest more : List Char} (hrest : Ends rest)
    (hmore : Ends more) : form.chars ++ rest ≠ (decimal value).chars ++ more := by
  intro h
  rw [(decimal_told hform hatom hmore hrest h.symm).1] at hdecimal
  cases hdecimal

/-- A pattern is told. -/
theorem told_pattern (bits : UInt64) : Told (.pattern bits) := by
  refine told_of_single fun {other rest more} hother hatom hrest hmore h => ?_
  have hfamily := (Legible.pattern bits).family_eq hother h
  cases hother with
  | decimal value => exact absurd h (eq_decimal_of_chars (.pattern bits) rfl rfl hrest hmore)
  | pattern second =>
      have hlength : (pattern bits).chars.length = (pattern second).chars.length := by
        simp [chars, Text.length_upper_digits]
      obtain ⟨hchars, hbehind⟩ := List.append_inj h hlength
      exact ⟨by rw [pattern_chars_injective hchars], hbehind⟩
  | compared => cases hatom
  | _ => cases hfamily

/-- A word is told, since a call goes on with a parenthesis. -/
theorem told_word {name : String} (hname : isIdentifier name = true) (hhead : name ∉ headNames) :
    Told (.word name) := by
  refine told_of_single fun {other rest more} hother hatom hrest hmore h => ?_
  have hfamily := (Legible.word name hname hhead).family_eq hother h
  cases hother with
  | word second hsecond =>
      obtain ⟨rfl, hbehind⟩ := name_told hname hsecond hrest.name hmore.name h
      exact ⟨rfl, hbehind⟩
  | call second operands hsecond =>
      rw [chars, chars, List.append_assoc] at h
      have hbehind := (name_told hname hsecond hrest.name (ends_name_cons (by decide) _) h).2
      rw [hbehind] at hrest
      simpa using hrest '(' rfl
  | decimal value =>
      exact absurd h (eq_decimal_of_chars (.word name hname hhead) rfl rfl hrest hmore)
  | compared => cases hatom
  | _ => cases hfamily

/-- A call is told if its operands are. -/
theorem told_call {name : String} {operands : List Form} (hname : isIdentifier name = true)
    (hne : operands ≠ []) (hoperands : ∀ operand ∈ operands, operand.Legible)
    (htold : ∀ operand ∈ operands, Told operand) : Told (.call name operands) := by
  refine told_of_single fun {other rest more} hother hatom hrest hmore h => ?_
  have hcall := Legible.call name operands hname hne hoperands
  have hfamily := hcall.family_eq hother h
  cases hother with
  | word second hsecond hhead =>
      rw [chars, chars, List.append_assoc] at h
      have hbehind := (name_told hname hsecond (ends_name_cons (by decide) _) hmore.name h).2
      rw [← hbehind] at hmore
      simpa using hmore '(' rfl
  | call second others hsecond hne' hothers =>
      rw [chars, chars, List.append_assoc, List.append_assoc, List.cons_append, List.cons_append] at h
      obtain ⟨rfl, hbehind⟩ := name_told hname hsecond (ends_name_cons (by decide) _)
        (ends_name_cons (by decide) _) h
      simp only [List.cons.injEq, true_and, separated_append, List.cons_append,
        List.nil_append] at hbehind
      obtain ⟨rfl, hrest⟩ :=
        operands_told separates_comma htold hoperands hothers hne hne' hbehind
      exact ⟨rfl, hrest⟩
  | decimal value => exact absurd h (eq_decimal_of_chars hcall rfl rfl hrest hmore)
  | compared => cases hatom
  | _ => cases hfamily

/-- Two or more operands that a sign joins begin with the first, and the sign goes on. -/
theorem exists_infixed_cons (sign : String) {operands : List Form} (htwo : 2 ≤ operands.length)
    (rest : List Char) : ∃ first ∈ operands, ∃ second ∈ operands, ∃ more,
      separated (around sign) (charsAll operands) rest =
        first.chars ++ (around sign ++ (second.chars ++ more)) := by
  match operands, htwo with
  | first :: second :: forms, _ =>
      obtain ⟨more, hmore⟩ := exists_separated_cons (around sign) second.chars (charsAll forms) rest
      refine ⟨first, by simp, second, by simp, more, ?_⟩
      rw [← hmore]
      rfl

/-- A name at the head of a group is no operand of a sign. -/
theorem spaced_ne_infixed {name sign : String} {others : List Form} (hname : name ∈ headNames)
    (htwo : 2 ≤ others.length) (hothers : ∀ other ∈ others, other.Legible) (texts : List Char)
    {more : List Char} :
    name.toList ++ ' ' :: texts ≠ separated (around sign) (charsAll others) more := by
  intro h
  obtain ⟨first, hfirst, second, -, behind, hcons⟩ := exists_infixed_cons sign htwo more
  rw [hcons] at h
  exact (hothers first hfirst).head_name_ne hname (by simp [Ends, around]) h.symm

/-- A group with a name at its head is told if its operands are. -/
theorem told_spaced {name : String} {operands : List Form} (hname : name ∈ headNames)
    (hne : operands ≠ []) (hoperands : ∀ operand ∈ operands, operand.Legible)
    (htold : ∀ operand ∈ operands, Told operand) : Told (.spaced name operands) := by
  refine told_of_single fun {other rest more} hother hatom hrest hmore h => ?_
  have hspaced := Legible.spaced name operands hname hne hoperands
  have hfamily := hspaced.family_eq hother h
  have hspace := ends_name_cons (show isIdentifierRest ' ' = false by decide)
  cases hother with
  | spaced second others hsecond hne' hothers =>
      simp only [chars, List.cons_append, List.append_assoc, List.cons.injEq, true_and,
        separated_append, List.nil_append] at h
      obtain ⟨rfl, hbehind⟩ := name_told (is_identifier_of_mem_head_names hname)
        (is_identifier_of_mem_head_names hsecond) (hspace _) (hspace _) h
      obtain ⟨rfl, hrest⟩ := operands_told separates_space htold hoperands hothers hne hne'
        (List.cons.inj hbehind).2
      exact ⟨rfl, hrest⟩
  | infixed sign others _ htwo hothers =>
      simp only [chars, List.cons_append, List.append_assoc, List.cons.injEq, true_and,
        separated_append, List.nil_append] at h
      exact absurd h (spaced_ne_infixed hname htwo hothers _)
  | decimal value => exact absurd h (eq_decimal_of_chars hspaced rfl rfl hrest hmore)
  | compared => cases hatom
  | _ => cases hfamily

/-- Operands in parentheses are told if each of them is. -/
theorem told_infixed {sign : String} {operands : List Form} (hsign : sign ∈ infixSigns)
    (htwo : 2 ≤ operands.length) (hoperands : ∀ operand ∈ operands, operand.Legible)
    (htold : ∀ operand ∈ operands, Told operand) : Told (.infixed sign operands) := by
  refine told_of_single fun {other rest more} hother hatom hrest hmore h => ?_
  have hinfixed := Legible.infixed sign operands hsign htwo hoperands
  have hfamily := hinfixed.family_eq hother h
  cases hother with
  | infixed next others hnext htwo' hothers =>
      simp only [chars, List.cons_append, List.cons.injEq, true_and, separated_append,
        List.nil_append] at h
      -- The first operands are told before it is known that the signs agree.
      have hagree : sign = next := by
        obtain ⟨first, hfirst, second, hsecond, behind, hcons⟩ :=
          exists_infixed_cons sign htwo (')' :: rest)
        obtain ⟨first', hfirst', second', hsecond', behind', hcons'⟩ :=
          exists_infixed_cons next htwo' (')' :: more)
        rw [hcons, hcons'] at h
        have hbehind := ((htold first hfirst).whole (hothers first' hfirst')
          ((separates_around hsign).closes (hoperands second hsecond) behind)
          ((separates_around hnext).closes (hothers second' hsecond') behind') h).2
        exact (sign_told (List.mem_append_left _ hsign) (List.mem_append_left _ hnext) hbehind).1
      obtain rfl := hagree
      obtain ⟨rfl, hrest⟩ := operands_told (separates_around hsign) htold hoperands hothers
        (List.ne_nil_of_length_pos (by omega)) (List.ne_nil_of_length_pos (by omega)) h
      exact ⟨rfl, hrest⟩
  | spaced name others hname hne hothers =>
      simp only [chars, List.cons_append, List.append_assoc, List.cons.injEq, true_and,
        separated_append, List.nil_append] at h
      exact absurd h.symm (spaced_ne_infixed hname htwo hoperands _)
  | decimal value => exact absurd h (eq_decimal_of_chars hinfixed rfl rfl hrest hmore)
  | compared => cases hatom
  | _ => cases hfamily

/-- A negation is told if what it negates is. -/
theorem told_not {arg : Form} (harg : arg.Legible) (htold : Told arg) : Told (.not arg) := by
  refine told_of_single fun {other rest more} hother hatom hrest hmore h => ?_
  have hfamily := (Legible.not arg harg).family_eq hother h
  cases hother with
  | not second hsecond =>
      simp only [chars, List.cons_append, List.cons.injEq, true_and, List.append_assoc,
        List.nil_append] at h
      obtain ⟨rfl, hbehind⟩ :=
        htold.whole hsecond (closes_parenthesis rest) (closes_parenthesis more) h
      exact ⟨rfl, (List.cons.inj hbehind).2⟩
  | decimal value =>
      exact absurd h (eq_decimal_of_chars (.not arg harg) rfl rfl hrest hmore)
  | compared => cases hatom
  | _ => cases hfamily

/-- What a minus sign stands in front of is told if it is without. -/
theorem told_neg {arg : Form} (hsingle : arg.isComparison = false) (hplain : arg.isDecimal = false)
    (harg : arg.Legible) (htold : Told arg) : Told (.neg arg) := by
  refine told_of_single fun {other rest more} hother hatom hrest hmore h => ?_
  have hneg := Legible.neg arg hsingle hplain harg
  have hfamily := hneg.family_eq hother h
  cases hother with
  | neg second hsingle' _ hsecond =>
      simp only [chars, List.cons_append, List.cons.injEq, true_and] at h
      obtain ⟨rfl, hbehind⟩ := htold.single hsingle hsecond hsingle' hrest hmore h
      exact ⟨rfl, hbehind⟩
  | decimal value => exact absurd h (eq_decimal_of_chars hneg rfl rfl hrest hmore)
  | compared => cases hatom
  | _ => cases hfamily

/-- A comparison is told if its sides are. -/
theorem told_compared {sign : String} {lhs rhs : Form} (hsign : sign ∈ comparisonSigns)
    (hlhs : lhs.isComparison = false) (hrhs : rhs.isComparison = false) (htoldLhs : Told lhs)
    (htoldRhs : Told rhs) : Told (.compared sign lhs rhs) where
  single hatom := by cases hatom
  whole := by
    intro other rest more hother hrest hmore h
    rw [chars, List.append_assoc, List.append_assoc] at h
    cases hcompared : other.isComparison with
    | false =>
        have hbehind := (htoldLhs.single hlhs hother hcompared (by simp [Ends, around]) hmore.1 h).2
        exact absurd hbehind.symm (hmore.2 sign hsign _)
    | true =>
        cases hother with
        | compared next left right hnext hleft hright hlegible hlegible' =>
            rw [chars, List.append_assoc, List.append_assoc] at h
            obtain ⟨rfl, hbehind⟩ := htoldLhs.single hlhs hlegible hleft (by simp [Ends, around])
              (by simp [Ends, around]) h
            obtain ⟨rfl, hsides⟩ := sign_told (List.mem_append_right _ hsign)
              (List.mem_append_right _ hnext) hbehind
            obtain ⟨rfl, hrest⟩ :=
              htoldRhs.single hrhs hlegible' hright hrest.1 hmore.1 hsides
            exact ⟨rfl, hrest⟩
        | _ => cases hcompared

/-- Every legible form is told. -/
theorem Legible.told {form : Form} (h : form.Legible) : Told form := by
  induction h with
  | decimal value => exact told_decimal value
  | pattern bits => exact told_pattern bits
  | word name hname hhead => exact told_word hname hhead
  | call name operands hname hne hoperands ih => exact told_call hname hne hoperands ih
  | spaced name operands hname hne hoperands ih => exact told_spaced hname hne hoperands ih
  | infixed sign operands hsign htwo hoperands ih => exact told_infixed hsign htwo hoperands ih
  | compared sign lhs rhs hsign hlhs hrhs _ _ ihLhs ihRhs =>
      exact told_compared hsign hlhs hrhs ihLhs ihRhs
  | not arg harg ih => exact told_not harg ih
  | neg arg hsingle hplain harg ih => exact told_neg hsingle hplain harg ih

/-- A text has one legible form. -/
theorem form_eq_of_chars_eq {form other : Form} (hform : form.Legible) (hother : other.Legible)
    (h : form.chars = other.chars) : form = other :=
  (hform.told.whole hother closes_nil closes_nil
    (by rw [List.append_nil, List.append_nil, h])).1

end Form

end ByteGrammar
