/-!
# Shortest decimal text of a binary64 number

A finite number is read from its bit pattern as `m · 2^q`. Among the decimals that lie in the interval of
reals rounding to it, `shortest` picks one with the fewest digits, the nearest of those, and an even last
digit at a tie. All arithmetic is exact. `floatText` writes the digits: in full when the leading digit
stands between the fifth decimal and the sixteenth place, with an exponent otherwise.
-/

namespace ByteGrammar.Decimal

/-- A positive dyadic number `mantissa · 2^exponent`. -/
structure Dyadic where
  mantissa : Nat
  exponent : Int
  /-- Whether the next smaller number is only half as far away as the next larger one. -/
  narrowBelow : Bool
  deriving DecidableEq, Repr, Inhabited

/-- The magnitude of a finite bit pattern. -/
def Dyadic.ofBits (pattern : UInt64) : Dyadic :=
  let fraction : Nat := pattern.toNat % Nat.pow 2 52
  let biased : Nat := pattern.toNat / Nat.pow 2 52 % Nat.pow 2 11
  if biased = 0 then ⟨fraction, -1074, false⟩
  else ⟨Nat.pow 2 52 + fraction, (biased : Int) - 1075, fraction = 0 && 1 < biased⟩

/-- Decimal digits and the power of ten of the first of them. -/
structure Digits where
  value : Nat
  count : Nat
  leading : Int
  deriving DecidableEq, Repr, Inhabited

/-- `base ^ exponent` as a fraction. -/
def power (base : Nat) (exponent : Int) : Nat × Nat :=
  if 0 ≤ exponent then (base.pow exponent.toNat, 1) else (1, base.pow (-exponent).toNat)

/-- The exponent of the leading decimal digit of `num / den`, searched upwards from `guess`. -/
def leadingExponent (num den : Nat) : (fuel : Nat) → (guess : Int) → Int
  | 0, guess => guess
  | fuel + 1, guess =>
      let (tenNum, tenDen) := power 10 (guess + 1)
      if tenNum * den ≤ num * tenDen then leadingExponent num den fuel (guess + 1) else guess

/-- The neighbour of a number on the grid of `count` digits that is in its rounding interval, if there is
one. -/
def onGrid? (dyadic : Dyadic) (leading : Int) (count : Nat) : Option Nat :=
  -- everything is measured in quarters of the last binary place
  let (twoNum, twoDen) := power 2 (dyadic.exponent - 2)
  let (tenNum, tenDen) := power 10 (leading - count + 1)
  let scale := twoDen * tenNum
  let exact := 4 * dyadic.mantissa * twoNum * tenDen
  let low := (4 * dyadic.mantissa - if dyadic.narrowBelow then 1 else 2) * twoNum * tenDen
  let high := (4 * dyadic.mantissa + 2) * twoNum * tenDen
  let even := dyadic.mantissa % 2 = 0
  let inside := fun (digits : Nat) =>
    if even then low ≤ digits * scale && digits * scale ≤ high
    else low < digits * scale && digits * scale < high
  let below := exact / scale
  let above := below + 1
  match inside below, inside above with
  | false, false => none
  | true, false => some below
  | false, true => some above
  | true, true =>
      let down := exact - below * scale
      let up := above * scale - exact
      if down < up then some below
      else if up < down then some above
      else if below % 2 = 0 then some below else some above

/-- The first grid from `count` digits on that has a hit. -/
def firstGrid (dyadic : Dyadic) (leading : Int) : (fuel count : Nat) → Digits
  | 0, count => ⟨0, count, leading⟩
  | fuel + 1, count =>
      match onGrid? dyadic leading count with
      | some value =>
          if value = Nat.pow 10 count then ⟨1, 1, leading + 1⟩ else ⟨value, count, leading⟩
      | none => firstGrid dyadic leading fuel (count + 1)

/-- The shortest digits of a positive number. Seventeen digits are always enough. -/
def shortest (dyadic : Dyadic) : Digits :=
  let (twoNum, twoDen) := power 2 dyadic.exponent
  let leading := leadingExponent (dyadic.mantissa * twoNum) twoDen 700 (-330)
  firstGrid dyadic leading 17 1

/-- Digits in full: with an integer part, and with at least one decimal. -/
def positional (text : List Char) (leading : Int) : List Char :=
  if leading < 0 then
    ['0', '.'] ++ List.replicate (-leading - 1).toNat '0' ++ text
  else
    let whole := leading.toNat + 1
    if text.length ≤ whole then text ++ List.replicate (whole - text.length) '0' ++ ['.', '0']
    else text.take whole ++ ['.'] ++ text.drop whole

/-- One digit before the point and a signed exponent. -/
def scientific (text : List Char) (leading : Int) : List Char :=
  let tail := text.drop 1
  text.take 1 ++ (if tail.isEmpty then [] else '.' :: tail) ++
  (if leading < 0 then ['e', '-'] else ['e', '+']) ++ (toString leading.natAbs).toList

/-- The text of a finite bit pattern. -/
def floatText (pattern : UInt64) : String :=
  let sign := if pattern.toNat < Nat.pow 2 63 then [] else ['-']
  let dyadic := Dyadic.ofBits pattern
  let body :=
    if dyadic.mantissa = 0 then ['0', '.', '0']
    else
      let digits := shortest dyadic
      let text := (toString digits.value).toList
      if -5 ≤ digits.leading && digits.leading < 16 then positional text digits.leading
      else scientific text digits.leading
  String.ofList (sign ++ body)

end ByteGrammar.Decimal
