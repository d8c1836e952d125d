/-!
# Reading infix expressions

A text of numbers, names, signs and parentheses is read with the usual conventions: parentheses group,
`*` binds tighter than `+` and `-`, and operators that bind equally are taken from left to right. `Derives`
says so as a grammar. `read` is a machine that takes one token after the other and keeps, for every open
parenthesis, the sum and the product that stand to the left of the current factor. `read_eq_some_iff` says
that the machine reads exactly what the grammar derives, so the grammar is unambiguous.

Values are read the same way: `Left.tally` is what a state of the machine amounts to under an assignment.
-/

namespace ByteGrammar.Infix

/-- The signs between operands. -/
inductive Operator where
  | plus
  | minus
  | times
  deriving DecidableEq, Repr

/-- The text of a sign. -/
def Operator.symbol : Operator → String
  | plus => "+"
  | minus => "-"
  | times => "*"

/-- What a sign does to two integers. -/
def Operator.apply : Operator → Int → Int → Int
  | plus, lhs, rhs => lhs + rhs
  | minus, lhs, rhs => lhs - rhs
  | times, lhs, rhs => lhs * rhs

/-- An expression as it is read. A byte is what `Select` gives at an index. -/
inductive Expr where
  | literal (value : Int)
  | name (text : String)
  | byte (index : Int)
  | node (op : Operator) (lhs rhs : Expr)
  deriving DecidableEq, Repr

/-- Integers for the names and for the bytes that an expression reads. -/
structure Assignment where
  constant : String → Int
  byte : Int → Int

/-- The value of an expression under an assignment. -/
def Expr.eval (env : Assignment) : Expr → Int
  | literal value => value
  | name text => env.constant text
  | byte index => env.byte index
  | node op lhs rhs => op.apply (lhs.eval env) (rhs.eval env)

/-- The pieces that a text falls into. -/
inductive Token where
  | number (value : Int)
  | name (text : String)
  | sign (op : Operator)
  | opening
  | closing
  deriving DecidableEq, Repr

/-- How tightly an expression is bound together. -/
inductive Level where
  | factor
  | product
  | sum

/-- The grammar of infix expressions. -/
inductive Derives : Level → List Token → Expr → Prop where
  | number (value) : Derives .factor [.number value] (.literal value)
  | name (text) : Derives .factor [.name text] (.name text)
  | select (tokens index) :
      Derives .factor tokens (.name "Select") →
      Derives .factor (tokens ++ [.number index]) (.byte index)
  | group (tokens expr) :
      Derives .sum tokens expr → Derives .factor (.opening :: (tokens ++ [.closing])) expr
  | alone (tokens expr) : Derives .factor tokens expr → Derives .product tokens expr
  | times (left right lhs rhs) :
      Derives .product left lhs → Derives .factor right rhs →
      Derives .product (left ++ .sign .times :: right) (.node .times lhs rhs)
  | single (tokens expr) : Derives .product tokens expr → Derives .sum tokens expr
  | signed (op left right lhs rhs) :
      op ≠ .times → Derives .sum left lhs → Derives .product right rhs →
      Derives .sum (left ++ .sign op :: right) (.node op lhs rhs)

/-- What stands to the left of the current factor inside one parenthesis: the sum so far with the sign
after it, and the product so far. -/
structure Left where
  sum : Option (Expr × Operator) := none
  product : Option Expr := none

namespace Left

/-- The product so far times a factor. -/
def multiply (here : Left) (factor : Expr) : Expr :=
  match here.product with
  | none => factor
  | some product => .node .times product factor

/-- The expression of a whole parenthesis that ends with a factor. -/
def close (here : Left) (factor : Expr) : Expr :=
  match here.sum with
  | none => here.multiply factor
  | some (sum, op) => .node op sum (here.multiply factor)

/-- What stands to the left after a factor and a sign. -/
def extend (here : Left) (factor : Expr) : Operator → Left
  | .times => { here with product := some (here.multiply factor) }
  | op => { sum := some (here.close factor, op) }

end Left

/-- A state of the reader, between two tokens: an operand is due, or one has just been read. The list
holds what stands to the left of every enclosing parenthesis, innermost first. -/
inductive State where
  | operand (here : Left) (outer : List Left)
  | operator (here : Left) (factor : Expr) (outer : List Left)

/-- Takes one token. -/
def step : State → Token → Option State
  | .operand here outer, .number value => some (.operator here (.literal value) outer)
  | .operand here outer, .name text => some (.operator here (.name text) outer)
  | .operand here outer, .opening => some (.operand {} (here :: outer))
  | .operator here factor outer, .sign op => some (.operand (here.extend factor op) outer)
  | .operator here factor (next :: outer), .closing =>
      some (.operator next (here.close factor) outer)
  | .operator here factor outer, .number index =>
      if factor = .name "Select" then some (.operator here (.byte index) outer) else none
  | _, _ => none

/-- Takes a list of tokens. -/
def run (state : State) (tokens : List Token) : Option State :=
  tokens.foldlM step state

/-- The expression read in a state, if all parentheses are closed. -/
def finish : State → Option Expr
  | .operator here factor [] => some (here.close factor)
  | _ => none

/-- The expression that a list of tokens reads as. -/
def readTokens (tokens : List Token) : Option Expr :=
  run (.operand {} []) tokens >>= finish

/-- Taking no token changes nothing. -/
@[simp]
theorem run_nil (state : State) : run state [] = some state :=
  rfl

/-- Taking a list of tokens takes its first token first. -/
@[simp]
theorem run_cons (state : State) (token : Token) (tokens : List Token) :
    run state (token :: tokens) = step state token >>= fun next => run next tokens :=
  rfl

/-- Tokens are taken in order. -/
theorem run_append (state : State) (first second : List Token) :
    run state (first ++ second) = run state first >>= fun next => run next second := by
  simp [run, List.foldlM_append]

/-! ## The machine reads what the grammar derives -/

/-- How the machine reads the tokens of an expression of a level. -/
def Level.Reads : Level → List Token → Expr → Prop
  | .factor, tokens, expr => ∀ here outer,
      run (.operand here outer) tokens = some (.operator here expr outer)
  | .product, tokens, expr => ∀ here outer, here.product = none → ∃ left factor,
      run (.operand here outer) tokens = some (.operator left factor outer) ∧
      left.sum = here.sum ∧ left.multiply factor = expr
  | .sum, tokens, expr => ∀ outer, ∃ left factor,
      run (.operand {} outer) tokens = some (.operator left factor outer) ∧
      left.close factor = expr

/-- Derived tokens are read as their expression. -/
theorem Derives.reads {level : Level} {tokens : List Token} {expr : Expr}
    (h : Derives level tokens expr) : level.Reads tokens expr := by
  induction h with
  | number | name =>
      intro here outer
      rfl
  -- The name has been taken as a factor by then, and the index turns it into a byte.
  | select tokens index _ ih =>
      intro here outer
      rw [run_append, ih here outer]
      rfl
  | group tokens expr _ ih =>
      intro here outer
      obtain ⟨left, factor, hrun, hclose⟩ := ih (here :: outer)
      show run (.operand {} (here :: outer)) (tokens ++ [.closing]) = _
      rw [run_append, hrun, ← hclose]
      rfl
  | alone tokens expr _ ih =>
      intro here outer hproduct
      refine ⟨here, expr, ih here outer, rfl, ?_⟩
      rw [Left.multiply, hproduct]
  | times left right lhs rhs _ _ ihleft ihright =>
      intro here outer hproduct
      obtain ⟨before, factor, hrun, hsum, hmultiply⟩ := ihleft here outer hproduct
      refine ⟨before.extend factor .times, rhs, ?_, hsum, ?_⟩
      · rw [run_append, hrun]
        exact ihright (before.extend factor .times) outer
      · rw [← hmultiply]
        rfl
  | single tokens expr _ ih =>
      intro outer
      obtain ⟨left, factor, hrun, hsum, hmultiply⟩ := ih {} outer rfl
      refine ⟨left, factor, hrun, ?_⟩
      rw [Left.close, hsum]
      exact hmultiply
  | signed op left right lhs rhs hop _ _ ihleft ihright =>
      intro outer
      obtain ⟨before, factor, hrun, hclose⟩ := ihleft outer
      -- Only a product sign would keep what stands to the left of the sum.
      have hextend : before.extend factor op = { sum := some (lhs, op) } := by
        rw [← hclose]
        cases op with
        | plus | minus => rfl
        | times => exact absurd rfl hop
      obtain ⟨after, last, hlast, hsum, hmultiply⟩ := ihright { sum := some (lhs, op) } outer rfl
      refine ⟨after, last, ?_, ?_⟩
      · rw [run_append, hrun]
        show run (.operand (before.extend factor op) outer) right = _
        rw [hextend, hlast]
      · rw [Left.close, hsum, hmultiply]

/-! ## The grammar derives what the machine reads -/

/-- The tokens of the sum to the left, with the sign after it. -/
inductive SumBefore : Option (Expr × Operator) → List Token → Prop where
  | none : SumBefore none []
  | some (tokens expr op) :
      op ≠ .times → Derives .sum tokens expr → SumBefore (some (expr, op)) (tokens ++ [.sign op])

/-- The tokens of the product to the left, with the sign after it. -/
inductive ProductBefore : Option Expr → List Token → Prop where
  | none : ProductBefore none []
  | some (tokens expr) :
      Derives .product tokens expr → ProductBefore (some expr) (tokens ++ [.sign .times])

/-- The tokens of one parenthesis to the left of the current factor. -/
inductive Left.Covers (here : Left) : List Token → Prop where
  | mk (first second) :
      SumBefore here.sum first → ProductBefore here.product second →
      here.Covers (first ++ second)

/-- A sum alone to the left covers its tokens. -/
theorem SumBefore.covers {sum : Option (Expr × Operator)} {tokens : List Token}
    (h : SumBefore sum tokens) : Left.Covers { sum := sum } tokens := by
  have hcovers : Left.Covers { sum := sum } (tokens ++ []) := .mk tokens [] h .none
  rwa [List.append_nil] at hcovers

/-- The tokens outside the innermost open parenthesis, its opening included. -/
inductive OuterCovers : List Left → List Token → Prop where
  | nil : OuterCovers [] []
  | cons (left outer before inside) :
      OuterCovers outer before → left.Covers inside →
      OuterCovers (left :: outer) (before ++ inside ++ [.opening])

/-- The tokens that a state has taken, as the grammar sees them. -/
inductive State.Covers : State → List Token → Prop where
  | operand (here outer before inside) :
      OuterCovers outer before → here.Covers inside →
      Covers (.operand here outer) (before ++ inside)
  | operator (here factor outer before inside last) :
      OuterCovers outer before → here.Covers inside → Derives .factor last factor →
      Covers (.operator here factor outer) (before ++ (inside ++ last))

/-- A factor completes the product to its left. -/
theorem Left.derives_multiply {here : Left} {factor : Expr} {second last : List Token}
    (hproduct : ProductBefore here.product second) (hlast : Derives .factor last factor) :
    Derives .product (second ++ last) (here.multiply factor) := by
  rw [Left.multiply]
  generalize here.product = product at hproduct
  cases hproduct with
  | none => exact .alone last factor hlast
  | some tokens expr hexpr =>
      rw [List.append_assoc]
      exact .times tokens last expr factor hexpr hlast

/-- A factor completes the parenthesis that it stands in. -/
theorem Left.Covers.derives_close {here : Left} {factor : Expr} {inside last : List Token}
    (hinside : here.Covers inside) (hlast : Derives .factor last factor) :
    Derives .sum (inside ++ last) (here.close factor) := by
  obtain ⟨first, second, hsum, hproduct⟩ := hinside
  have hmultiply := Left.derives_multiply hproduct hlast
  rw [List.append_assoc, Left.close]
  generalize here.sum = sum at hsum
  cases hsum with
  | none => exact .single _ _ hmultiply
  | some tokens expr op hop hexpr =>
      rw [List.append_assoc]
      exact .signed op tokens _ expr _ hop hexpr hmultiply

/-- A factor and a sign leave a sum or a product to the left of what follows. -/
theorem Left.Covers.extend {here : Left} {factor : Expr} {inside last : List Token}
    (op : Operator) (hinside : here.Covers inside) (hlast : Derives .factor last factor) :
    (here.extend factor op).Covers (inside ++ last ++ [.sign op]) := by
  have hclose := hinside.derives_close hlast
  cases op with
  | plus => exact (SumBefore.some _ _ .plus (by decide) hclose).covers
  | minus => exact (SumBefore.some _ _ .minus (by decide) hclose).covers
  | times =>
      obtain ⟨first, second, hsum, hproduct⟩ := hinside
      have hmultiply := Left.derives_multiply hproduct hlast
      have h : ({ here with product := some (here.multiply factor) } : Left).Covers
          (first ++ (second ++ last ++ [.sign .times])) := .mk first _ hsum (.some _ _ hmultiply)
      rwa [← List.append_assoc, ← List.append_assoc] at h

/-- A step takes its token. -/
theorem State.Covers.step {state next : State} {token : Token} {tokens : List Token}
    (h : state.Covers tokens) (hstep : Infix.step state token = some next) :
    next.Covers (tokens ++ [token]) := by
  cases h with
  | operand here outer before inside houter hinside =>
      cases token with
      | number value =>
          cases hstep
          rw [List.append_assoc]
          exact .operator here _ outer before inside _ houter hinside (.number value)
      | name text =>
          cases hstep
          rw [List.append_assoc]
          exact .operator here _ outer before inside _ houter hinside (.name text)
      | opening =>
          cases hstep
          have h := State.Covers.operand {} _ _ []
            (.cons here outer before inside houter hinside) (.mk [] [] .none .none)
          rwa [List.append_nil] at h
      | sign op => cases hstep
      | closing => cases hstep
  | operator here factor outer before inside last houter hinside hlast =>
      cases token with
      | number index =>
          obtain ⟨rfl, hnext⟩ : factor = .name "Select" ∧
              State.operator here (.byte index) outer = next := by
            by_cases hname : factor = .name "Select"
            · cases outer <;> simpa [Infix.step, hname] using hstep
            · cases outer <;> simp [Infix.step, hname] at hstep
          rw [← hnext, List.append_assoc, List.append_assoc]
          exact .operator here _ outer before inside _ houter hinside (.select last index hlast)
      | sign op =>
          cases outer <;> cases hstep
          all_goals
            rw [List.append_assoc]
            exact .operand _ _ before _ houter (hinside.extend op hlast)
      | closing =>
          cases houter with
          | nil => cases hstep
          | cons left outer before' inside' houter hleft =>
              cases hstep
              have hgroup := Derives.group _ _ (hinside.derives_close hlast)
              have h := State.Covers.operator left _ outer before' inside' _ houter hleft hgroup
              simpa using h
      | name text => cases outer <;> cases hstep
      | opening => cases outer <;> cases hstep

/-- A run takes its tokens. -/
theorem State.Covers.run {state last : State} {before tokens : List Token}
    (h : state.Covers before) (hrun : Infix.run state tokens = some last) :
    last.Covers (before ++ tokens) := by
  induction tokens generalizing state before with
  | nil =>
      cases hrun
      rwa [List.append_nil]
  | cons token tokens ih =>
      rw [run_cons, Option.bind_eq_bind, Option.bind_eq_some_iff] at hrun
      obtain ⟨next, hstep, hrest⟩ := hrun
      rw [← List.singleton_append, ← List.append_assoc]
      exact ih (h.step hstep) hrest

/-- The machine reads a list of tokens as an expression exactly when the grammar derives it. -/
theorem read_tokens_eq_some_iff {tokens : List Token} {expr : Expr} :
    readTokens tokens = some expr ↔ Derives .sum tokens expr := by
  constructor
  · intro h
    rw [readTokens, Option.bind_eq_bind, Option.bind_eq_some_iff] at h
    obtain ⟨last, hrun, hfinish⟩ := h
    have hstart : (State.operand {} []).Covers [] :=
      .operand {} [] [] [] .nil (.mk [] [] .none .none)
    have hcovers := hstart.run hrun
    cases hcovers with
    | operand => cases hfinish
    | operator here factor outer before inside tokens houter hinside hlast =>
        cases houter with
        | nil =>
            cases hfinish
            exact hinside.derives_close hlast
        | cons => cases hfinish
  · intro h
    obtain ⟨left, factor, hrun, hclose⟩ := h.reads []
    rw [readTokens, hrun, ← hclose]
    rfl

/-- No list of tokens has two readings. -/
theorem Derives.unique {tokens : List Token} {first second : Expr}
    (hfirst : Derives .sum tokens first) (hsecond : Derives .sum tokens second) :
    first = second :=
  Option.some.inj ((read_tokens_eq_some_iff.mpr hfirst).symm.trans
    (read_tokens_eq_some_iff.mpr hsecond))

/-! ## Values as they are read -/

/-- What is added up to the left of the current product, and the value of that product. -/
structure Tally where
  sum : Int
  product : Int
  deriving DecidableEq, Repr

namespace Tally

/-- The tally after a sign and an operand. -/
def advance (tally : Tally) : Operator → Int → Tally
  | .plus, value => ⟨tally.sum + tally.product, value⟩
  | .minus, value => ⟨tally.sum + tally.product, -value⟩
  | .times, value => ⟨tally.sum, tally.product * value⟩

/-- The value of everything tallied. -/
def total (tally : Tally) : Int :=
  tally.sum + tally.product

end Tally

namespace Left

/-- The product so far times a value. -/
def scaled (env : Assignment) (here : Left) (value : Int) : Int :=
  match here.product with
  | none => value
  | some product => product.eval env * value

/-- What stands to the left and a factor of the given value amount to. -/
def tally (env : Assignment) (here : Left) (value : Int) : Tally :=
  match here.sum with
  | none => ⟨0, here.scaled env value⟩
  | some (sum, op) => Tally.advance ⟨0, sum.eval env⟩ op (here.scaled env value)

variable (env : Assignment) (here : Left) (factor : Expr)

/-- The value of a product that a factor completes. -/
theorem eval_multiply : (here.multiply factor).eval env = here.scaled env (factor.eval env) := by
  rw [multiply, scaled]
  cases here.product <;> rfl

/-- The value of a parenthesis is the total of its tally. -/
theorem eval_close :
    (here.close factor).eval env = (here.tally env (factor.eval env)).total := by
  rw [close, tally]
  cases here.sum with
  | none => simp [eval_multiply, Tally.total]
  | some pair =>
      obtain ⟨sum, op⟩ := pair
      cases op <;> simp [Expr.eval, Operator.apply, eval_multiply, Tally.advance, Tally.total,
        Int.sub_eq_add_neg]

/-- A sign and an operand advance the tally. -/
theorem tally_extend (op : Operator) (value : Int) :
    (here.extend factor op).tally env value =
      (here.tally env (factor.eval env)).advance op value := by
  cases op with
  | plus | minus =>
      have htotal := eval_close env here factor
      rw [Tally.total] at htotal
      simp [extend, tally, scaled, Tally.advance, htotal]
  | times =>
      have hscaled : (here.extend factor .times).scaled env value =
          here.scaled env (factor.eval env) * value := by
        rw [← eval_multiply]
        rfl
      show (match here.sum with
        | none => _
        | some (sum, op) => _) = _
      rw [hscaled, tally]
      cases here.sum with
      | none => rfl
      | some pair =>
          obtain ⟨sum, op⟩ := pair
          cases op <;> simp only [Tally.advance, Int.mul_assoc, Int.neg_mul]

end Left

end ByteGrammar.Infix
