/-!
# Terms

Bit-vector and integer expressions over a byte string, as a symbolic executor reports them.
`Term` is the expression tree, `Param` a scalar attached to an operator, `Numeral` a 64-bit literal
that remembers its signedness. Operator types keep every spelling apart; `symbol` says which of them
are written alike. The builders below give the common shapes short names.
-/

namespace ByteGrammar

/-- A 64-bit integer literal with the signedness it was reported with. -/
inductive Numeral where
  | unsigned (value : UInt64)
  | signed (value : Int64)
  deriving DecidableEq, Repr, Inhabited

namespace Numeral

/-- The two's-complement pattern of a numeral. -/
def bits : Numeral → UInt64
  | unsigned value => value
  | signed value => value.toUInt64

/-- The integer that a numeral stands for. -/
def toInt : Numeral → Int
  | unsigned value => value.toNat
  | signed value => value.toInt

/-- A numeral is zero when its pattern is. -/
def isZero (numeral : Numeral) : Bool :=
  numeral.bits == 0

end Numeral

/-- Arithmetic operators in integer, signed and unsigned spellings. -/
inductive ArithOp where
  | add | bvAdd
  | sub | bvSub
  | mul | bvMul
  | div | bvSDiv | bvSDivI | bvUDiv | bvUDivI
  | mod | rem | bvSMod | bvSModI | bvSRem | bvSRemI | bvURem | bvURemI
  deriving DecidableEq, Repr, Inhabited

/-- The infix sign of an arithmetic operator, shared by all its spellings. -/
def ArithOp.symbol : ArithOp → String
  | add | bvAdd => "+"
  | sub | bvSub => "-"
  | mul | bvMul => "*"
  | div | bvSDiv | bvSDivI | bvUDiv | bvUDivI => "/"
  | mod | rem | bvSMod | bvSModI | bvSRem | bvSRemI | bvURem | bvURemI => "%"

/-- Order comparisons in integer, signed and unsigned spellings. -/
inductive CmpOp where
  | ge | sGe | uGe
  | le | sLe | uLe
  | gt | sGt | uGt
  | lt | sLt | uLt
  deriving DecidableEq, Repr, Inhabited

/-- The infix sign of a comparison, shared by all its spellings. -/
def CmpOp.symbol : CmpOp → String
  | ge | sGe | uGe => ">="
  | le | sLe | uLe => "<="
  | gt | sGt | uGt => ">"
  | lt | sLt | uLt => "<"

/-- The two connectives that take any number of operands. -/
inductive LogicOp where
  | and
  | or
  deriving DecidableEq, Repr, Inhabited

/-- The infix sign of a connective. -/
def LogicOp.symbol : LogicOp → String
  | and => "&&"
  | or => "||"

mutual
/-- A scalar attached to an operator, such as a bit position of an `extract`. -/
inductive Param where
  | int (value : Int64)
  | double (pattern : UInt64)
  | rational (num den : Int64)
  | symbol (name : String)
  | sort (name : String)
  | term (value : Term)
  | funcDecl (name : String)

/-- An expression tree. A naming equality ties bytes to a field name and constrains nothing; an
`app` without operands is a free constant. -/
inductive Term where
  | num (value : Numeral)
  | bool (value : Bool)
  | arith (op : ArithOp) (args : List Term)
  | logic (op : LogicOp) (args : List Term)
  | cmp (op : CmpOp) (lhs rhs : Term)
  | eq (lhs rhs : Term) (naming : Bool)
  | distinct (lhs rhs : Term)
  | not (arg : Term)
  | neg (arg : Term)
  | select (array index : Term)
  | concat (bytes : List Term)
  | extract (args : List Term) (params : List Param)
  | app (name : String) (args : List Term) (params : List Param)
end

instance : Inhabited Param := ⟨.int 0⟩

instance : Inhabited Term := ⟨.bool true⟩

namespace Term

/-- An unsigned literal. -/
def ofUnsigned (value : UInt64) : Term :=
  num (.unsigned value)

/-- A signed literal. -/
def ofSigned (value : Int64) : Term :=
  num (.signed value)

/-- A free constant. -/
def constant (name : String) : Term :=
  app name [] []

/-- The sum of two terms. -/
def add (lhs rhs : Term) : Term :=
  arith .add [lhs, rhs]

/-- The difference of two terms. -/
def sub (lhs rhs : Term) : Term :=
  arith .sub [lhs, rhs]

/-- The product of two terms. -/
def mul (lhs rhs : Term) : Term :=
  arith .mul [lhs, rhs]

/-- The comparison "at least". -/
def ge (lhs rhs : Term) : Term :=
  cmp .ge lhs rhs

/-- The comparison "less than". -/
def lt (lhs rhs : Term) : Term :=
  cmp .lt lhs rhs

/-- An equality that constrains a value. -/
def equals (lhs rhs : Term) : Term :=
  eq lhs rhs false

/-- An equality that only names a field. -/
def names (lhs rhs : Term) : Term :=
  eq lhs rhs true

/-- The conjunction of a list of terms. -/
def all (args : List Term) : Term :=
  logic .and args

/-- The disjunction of a list of terms. -/
def any (args : List Term) : Term :=
  logic .or args

/-- Bits `high` down to `low` of a term. -/
def bitRange (high low : UInt32) (value : Term) : Term :=
  extract [value] [.int (Int64.ofNat high.toNat), .int (Int64.ofNat low.toNat)]

/-- The literal that a term is, if it is one. -/
def numeral? : Term → Option Numeral
  | num value => some value
  | _ => none

/-- Whether a term is a literal zero of either signedness. -/
def isZeroNumeral (term : Term) : Bool :=
  match term.numeral? with
  | some value => value.isZero
  | none => false

/-- Whether a term is the literal `true`. -/
def isTrue : Term → Bool
  | bool value => value
  | _ => false

/-- Whether a term is an equality that only names a field. -/
def isNaming : Term → Bool
  | eq _ _ naming => naming
  | _ => false

end Term

end ByteGrammar
