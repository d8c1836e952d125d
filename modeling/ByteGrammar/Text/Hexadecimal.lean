/-!
# Hexadecimal digits

Digits of both cases and their values, and numbers written with a fixed or with the least number of digits.
-/

namespace ByteGrammar.Text

/-- The upper-case digit of a number below sixteen. -/
def upperDigit (value : Nat) : Char :=
  if value < 10 then Char.ofNat (48 + value) else Char.ofNat (55 + value)

/-- The lower-case digit of a number below sixteen. -/
def lowerDigit (value : Nat) : Char :=
  if value < 10 then Char.ofNat (48 + value) else Char.ofNat (87 + value)

/-- The value of a digit of either case. -/
def digitValue? (c : Char) : Option Nat :=
  if '0' ≤ c ∧ c ≤ '9' then some (c.toNat - 48)
  else if 'a' ≤ c ∧ c ≤ 'f' then some (c.toNat - 87)
  else if 'A' ≤ c ∧ c ≤ 'F' then some (c.toNat - 55)
  else none

/-- An upper-case digit is read back as its value. -/
theorem digit_value_upper_digit {value : Nat} (h : value < 16) :
    digitValue? (upperDigit value) = some value :=
  (by decide : ∀ value < 16, digitValue? (upperDigit value) = some value) value h

/-- A lower-case digit is read back as its value. -/
theorem digit_value_lower_digit {value : Nat} (h : value < 16) :
    digitValue? (lowerDigit value) = some value :=
  (by decide : ∀ value < 16, digitValue? (lowerDigit value) = some value) value h

/-- The last `count` upper-case digits of a number, most significant first. -/
def upperDigits : (count value : Nat) → List Char
  | 0, _ => []
  | count + 1, value => upperDigits count (value / 16) ++ [upperDigit (value % 16)]

/-- There are as many digits as asked for. -/
theorem length_upper_digits (count value : Nat) : (upperDigits count value).length = count := by
  induction count generalizing value with
  | zero => rfl
  | succ count ih => simp [upperDigits, ih]

/-- A number in lower case without leading zeros. -/
def lowerDigits (value : Nat) : List Char :=
  Nat.toDigits 16 value

end ByteGrammar.Text
