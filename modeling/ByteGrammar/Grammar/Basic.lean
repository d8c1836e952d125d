import ByteGrammar.Term.Equality

/-!
# Grammars

A grammar is an ordered list of productions. Each alternative of a production is a sequence of references
to other productions and of byte intervals, and its assertions constrain the bytes that it covers. An edge
of an interval is a constant or a term. A missing edge can be represented, so that it can be reported with
its place.
-/

namespace ByteGrammar

/-- One edge of a byte interval. -/
inductive Bound where
  | constant (value : Int64)
  | symbolic (term : Term)
  deriving DecidableEq, Inhabited

/-- The bytes from `first` to `last`, both included. -/
structure Interval where
  first : Option Bound
  last : Option Bound
  deriving DecidableEq, Inhabited

namespace Interval

/-- The interval with the given edges. -/
def between (first last : Bound) : Interval :=
  ⟨some first, some last⟩

/-- The interval with constant edges. -/
def fixed (first last : Int64) : Interval :=
  between (.constant first) (.constant last)

end Interval

/-- An element of an alternative: a reference to a production by its number, or an interval. -/
inductive RhsItem where
  | production (id : UInt32)
  | interval (range : Interval)
  deriving DecidableEq, Inhabited

/-- A production. Number zero is the entry. -/
structure Production where
  id : UInt32
  alternatives : List (List RhsItem) := []
  assertions : List Term := []
  deriving DecidableEq, Inhabited

namespace Production

/-- Whether a production is the entry of its grammar. -/
def isEntry (production : Production) : Bool :=
  production.id == 0

/-- The production with one more alternative. -/
def addAlternative (production : Production) (items : List RhsItem) : Production :=
  { production with alternatives := production.alternatives ++ [items] }

/-- The production with one more assertion. -/
def addAssertion (production : Production) (assertion : Term) : Production :=
  { production with assertions := production.assertions ++ [assertion] }

end Production

/-- An ordered list of productions. -/
structure Grammar where
  productions : List Production := []
  deriving DecidableEq, Inhabited

namespace Grammar

/-- The number of productions. -/
def size (grammar : Grammar) : Nat :=
  grammar.productions.length

/-- Whether a grammar has no production. -/
def isEmpty (grammar : Grammar) : Bool :=
  grammar.productions.isEmpty

end Grammar

end ByteGrammar
