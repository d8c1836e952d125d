import ByteGrammar.Term.Children
import ByteGrammar.Text.Hexadecimal

/-!
# The written form of a term

`Term.render` writes a term as an expression of the description language. Operators are infix and
comparisons, sums and connectives are parenthesised, while equalities are not. Literals are 64-bit
hexadecimal patterns, except a literal index, which is decimal. A concatenation of bytes is written as a
polynomial in 256 without its leading zero bytes. Only an `extract` without operands has no form.

`Term.fragments` lists every text that is made on the way, innermost first.
-/

namespace ByteGrammar

/-- Why a term has no written form. -/
inductive RenderError where
  | malformedExtract
  deriving DecidableEq, Repr, Inhabited

/-- The wording of a `RenderError`. -/
def RenderError.message : RenderError → String
  | malformedExtract => "malformed extract: no arguments and no parameters"

/-- The pattern of a numeral as sixteen hexadecimal digits. -/
def Numeral.hex (numeral : Numeral) : String :=
  "0x" ++ String.ofList (Text.upperDigits 16 numeral.bits.toNat)

/-- The text of a parameter: integers are decimal, no other kind has a form of its own. -/
def Param.render : Param → String
  | .int value => toString value.toInt
  | .double _ | .rational _ _ | .symbol _ | .sort _ | .term _ | .funcDecl _ => "?"

/-- The text of each byte with its weight: one factor 256 for every byte that follows. -/
def weighted : List String → List String
  | [] => []
  | byte :: bytes => (String.join (List.replicate bytes.length "256 * ") ++ byte) :: weighted bytes

/-- The text of a list of bytes, most significant first, as a polynomial in 256. -/
def polynomial : List String → String
  | [] => "0"
  | bytes => " + ".intercalate (weighted bytes)

/-- Operands separated by an infix sign, in parentheses. -/
def infixed (sign : String) (operands : List String) : String :=
  "(" ++ (" " ++ sign ++ " ").intercalate operands ++ ")"

mutual
/-- The written form of a term. The array of a `select` is never written, and a naming equality is
written as the empty text. -/
def Term.render : Term → Except RenderError String
  | .num value => .ok value.hex
  | .bool value => .ok (if value then "true" else "false")
  | .arith op args => do
      let texts ← renderAll args
      return infixed op.symbol texts
  | .logic op args => do
      let texts ← renderAll args
      return infixed op.symbol texts
  | .cmp op lhs rhs => do
      let left ← lhs.render
      let right ← rhs.render
      return infixed op.symbol [left, right]
  | .eq lhs rhs naming =>
      if naming then .ok ""
      else do
        let left ← lhs.render
        let right ← rhs.render
        return left ++ " == " ++ right
  | .distinct lhs rhs => do
      let left ← lhs.render
      let right ← rhs.render
      return left ++ " != " ++ right
  | .not arg => do
      let text ← arg.render
      return "!(" ++ text ++ ")"
  | .neg arg => do
      let text ← arg.render
      return "-" ++ text
  | .select _ index =>
      match index.numeral? with
      | some value => .ok ("(Select " ++ toString value.toInt ++ ")")
      | none => do
          let text ← index.render
          return "(Select " ++ text ++ ")"
  | .concat bytes => do
      let texts ← renderSignificant bytes
      return polynomial texts
  | .extract args params =>
      if args.isEmpty && params.isEmpty then .error .malformedExtract
      else do
        let texts ← renderAll args
        return "(Extract " ++ " ".intercalate (texts ++ params.map Param.render) ++ ")"
  | .app name args params =>
      if args.isEmpty && params.isEmpty then .ok name
      else do
        let texts ← renderAll args
        return name ++ "(" ++ ", ".intercalate (texts ++ params.map Param.render) ++ ")"

/-- The written forms of a list of terms, in order. -/
def renderAll : List Term → Except RenderError (List String)
  | [] => .ok []
  | term :: terms => do
      let text ← term.render
      let texts ← renderAll terms
      return text :: texts

/-- The written forms of a list of bytes without its leading literal zeros. -/
def renderSignificant : List Term → Except RenderError (List String)
  | [] => .ok []
  | byte :: bytes =>
      if byte.isZeroNumeral then renderSignificant bytes
      else do
        let text ← byte.render
        let texts ← renderAll bytes
        return text :: texts
end

/-- Leaving out the leading zeros comes first, writing second. -/
theorem render_significant_eq (bytes : List Term) :
    renderSignificant bytes = renderAll (bytes.dropWhile Term.isZeroNumeral) := by
  induction bytes with
  | nil => rfl
  | cons byte bytes ih =>
      by_cases h : byte.isZeroNumeral = true
      · simp [renderSignificant, h, ih]
      · simp [renderSignificant, h, renderAll]

/-- A successful result as a list of one, a failure as an empty list. -/
def settled (result : Except RenderError String) : List String :=
  match result with
  | .ok text => [text]
  | .error _ => []

mutual
/-- Every text made while a term is written, in the order of completion. After a failure nothing more
is made. -/
def Term.fragments (term : Term) : List String :=
  (match term with
    | .num _ | .bool _ => []
    | .arith _ args | .logic _ args | .extract args _ | .app _ args _ => fragmentsAll args
    | .cmp _ lhs rhs | .distinct lhs rhs =>
        lhs.fragments ++ (match lhs.render with
          | .ok _ => rhs.fragments
          | .error _ => [])
    | .eq lhs rhs naming =>
        if naming then []
        else lhs.fragments ++ (match lhs.render with
          | .ok _ => rhs.fragments
          | .error _ => [])
    | .not arg | .neg arg => arg.fragments
    | .select _ index =>
        match index.numeral? with
        | some _ => []
        | none => index.fragments
    | .concat bytes => fragmentsSignificant bytes) ++
  settled term.render

/-- The texts made while a list of terms is written. -/
def fragmentsAll : List Term → List String
  | [] => []
  | term :: terms =>
      term.fragments ++ (match term.render with
        | .ok _ => fragmentsAll terms
        | .error _ => [])

/-- The texts made while a list of bytes is written, which skips its leading zeros. -/
def fragmentsSignificant : List Term → List String
  | [] => []
  | byte :: bytes =>
      if byte.isZeroNumeral then fragmentsSignificant bytes
      else byte.fragments ++ (match byte.render with
        | .ok _ => fragmentsAll bytes
        | .error _ => [])
end

end ByteGrammar
