import ByteGrammar.Term.Basic

/-!
# Fresh index variables

A supply of free constants named by a stem and a running number that starts at one. One supply serves a
whole document, so no name is handed out twice before the number wraps.
-/

namespace ByteGrammar

/-- A supply of index variables. -/
structure IndexVars where
  stem : String := "ii"
  next : UInt64 := 1
  deriving Repr, Inhabited

namespace IndexVars

/-- The name that the next variable gets. -/
def nextName (vars : IndexVars) : String :=
  vars.stem ++ toString vars.next.toNat

/-- The supply after one variable has been taken. -/
def advance (vars : IndexVars) : IndexVars :=
  { vars with next := vars.next + 1 }

/-- How many variables have been taken. -/
def allocated (vars : IndexVars) : UInt64 :=
  vars.next - 1

/-- Taking a variable counts one more. -/
theorem allocated_advance (vars : IndexVars) : vars.advance.allocated = vars.allocated + 1 := by
  simp only [allocated, advance, UInt64.sub_eq_add_neg, UInt64.add_assoc, UInt64.add_comm 1]

end IndexVars

end ByteGrammar
