import ByteGrammar.Grammar.Basic
import ByteGrammar.Json.Tag

/-!
# Tags of grammar files

The names of operators, and of the variants of literals, parameters, terms, bounds and items. A `Shape`
says what kind of value a tag of a term or a parameter carries.
-/

namespace ByteGrammar

instance : Tag ArithOp where
  all := [.add, .bvAdd, .sub, .bvSub, .mul, .bvMul, .div, .bvSDiv, .bvSDivI, .bvUDiv, .bvUDivI, .mod,
    .rem, .bvSMod, .bvSModI, .bvSRem, .bvSRemI, .bvURem, .bvURemI]
  name
    | .add => "add" | .bvAdd => "bv_add"
    | .sub => "sub" | .bvSub => "bv_sub"
    | .mul => "mul" | .bvMul => "bv_mul"
    | .div => "div"
    | .bvSDiv => "bv_s_div" | .bvSDivI => "bv_s_div_i"
    | .bvUDiv => "bv_u_div" | .bvUDivI => "bv_u_div_i"
    | .mod => "mod" | .rem => "rem"
    | .bvSMod => "bv_s_mod" | .bvSModI => "bv_s_mod_i"
    | .bvSRem => "bv_s_rem" | .bvSRemI => "bv_s_rem_i"
    | .bvURem => "bv_u_rem" | .bvURemI => "bv_u_rem_i"
  find_name tag := by cases tag <;> decide

instance : Tag CmpOp where
  all := [.ge, .sGe, .uGe, .le, .sLe, .uLe, .gt, .sGt, .uGt, .lt, .sLt, .uLt]
  name
    | .ge => "ge" | .sGe => "s_ge" | .uGe => "u_ge"
    | .le => "le" | .sLe => "s_le" | .uLe => "u_le"
    | .gt => "gt" | .sGt => "s_gt" | .uGt => "u_gt"
    | .lt => "lt" | .sLt => "s_lt" | .uLt => "u_lt"
  find_name tag := by cases tag <;> decide

instance : Tag LogicOp where
  all := [.and, .or]
  name
    | .and => "and"
    | .or => "or"
  find_name tag := by cases tag <;> decide

/-- What kind of value a tag carries: a single one, a fixed number of them, or named fields. -/
inductive Shape where
  | single
  | tuple
  | record
  deriving DecidableEq, Repr, Inhabited

/-- How a shape is called when a tag stands without its value. -/
def Shape.describe : Shape → String
  | single => "newtype variant"
  | tuple => "tuple variant"
  | record => "struct variant"

/-- The variants of a literal. -/
inductive NumeralTag where
  | unsigned
  | signed
  deriving DecidableEq, Repr, Inhabited

instance : Tag NumeralTag where
  all := [.unsigned, .signed]
  name
    | .unsigned => "unsigned"
    | .signed => "signed"
  find_name tag := by cases tag <;> decide

/-- The variants of a parameter. -/
inductive ParamTag where
  | int | double | rational | symbol | sort | term | funcDecl
  deriving DecidableEq, Repr, Inhabited

instance : Tag ParamTag where
  all := [.int, .double, .rational, .symbol, .sort, .term, .funcDecl]
  name
    | .int => "int"
    | .double => "double"
    | .rational => "rational"
    | .symbol => "symbol"
    | .sort => "sort"
    | .term => "term"
    | .funcDecl => "func_decl"
  find_name tag := by cases tag <;> decide

/-- What a parameter tag carries. -/
def ParamTag.shape : ParamTag → Shape
  | rational => .record
  | _ => .single

/-- The variants of a term. -/
inductive TermTag where
  | num | bool | arith | logic | cmp | eq | distinct | not | neg | select | concat | extract | app
  deriving DecidableEq, Repr, Inhabited

instance : Tag TermTag where
  all := [.num, .bool, .arith, .logic, .cmp, .eq, .distinct, .not, .neg, .select, .concat, .extract,
    .app]
  name
    | .num => "num"
    | .bool => "bool"
    | .arith => "arith"
    | .logic => "logic"
    | .cmp => "cmp"
    | .eq => "eq"
    | .distinct => "distinct"
    | .not => "not"
    | .neg => "neg"
    | .select => "select"
    | .concat => "concat"
    | .extract => "extract"
    | .app => "app"
  find_name tag := by cases tag <;> decide

/-- What a term tag carries. -/
def TermTag.shape : TermTag → Shape
  | num | bool | not | neg | concat => .single
  | arith | logic | cmp | distinct => .tuple
  | eq | select | extract | app => .record

/-- The variants of a bound. -/
inductive BoundTag where
  | constant
  | symbolic
  deriving DecidableEq, Repr, Inhabited

instance : Tag BoundTag where
  all := [.constant, .symbolic]
  name
    | .constant => "constant"
    | .symbolic => "symbolic"
  find_name tag := by cases tag <;> decide

/-- The variants of an item of an alternative. -/
inductive ItemTag where
  | production
  | interval
  deriving DecidableEq, Repr, Inhabited

instance : Tag ItemTag where
  all := [.production, .interval]
  name
    | .production => "production"
    | .interval => "interval"
  find_name tag := by cases tag <;> decide

end ByteGrammar
