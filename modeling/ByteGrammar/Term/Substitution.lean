import ByteGrammar.Term.Children

/-!
# Simultaneous substitution

An ordered table of replacements of terms by terms, applied in one pass from the root down: a term that
the table knows is replaced as a whole, a replacement is not looked at again, and any other node keeps
its head and has its children treated alike. A table without replacements is not applied at all, and below
the root a node that comes out as it was is kept. `apply_inside_eq_apply` says that this makes no difference,
and `apply_eq` states the whole as one equation.
-/

namespace ByteGrammar

/-- A table of replacements, in the order of recording. No term is recorded twice. -/
structure Substitution where
  pairs : List (Term × Term)
  nodup : (pairs.map Prod.fst).Nodup

namespace Substitution

/-- The table without replacements. -/
def empty : Substitution := ⟨[], by simp⟩

instance : Inhabited Substitution := ⟨empty⟩

/-- The recorded replacement of a term. -/
def get? (table : Substitution) (term : Term) : Option Term :=
  table.pairs.lookup term

/-- The number of recorded terms. -/
def size (table : Substitution) : Nat :=
  table.pairs.length

/-- Whether nothing is recorded. -/
def isEmpty (table : Substitution) : Bool :=
  table.pairs.isEmpty

/-- Records a replacement. A term that is already recorded keeps its first replacement. -/
def push (table : Substitution) (old new : Term) : Substitution :=
  if h : old ∈ table.pairs.map Prod.fst then table
  else {
    pairs := table.pairs ++ [(old, new)]
    nodup := by
      simp only [List.map_append, List.map_cons, List.map_nil]
      refine List.nodup_append.mpr ⟨table.nodup, by simp, ?_⟩
      intro a ha b hb hab
      simp only [List.mem_singleton] at hb
      exact h (hb ▸ hab ▸ ha) }

/-- The table that records the given pairs one after the other. -/
def ofList (pairs : List (Term × Term)) : Substitution :=
  pairs.foldl (fun table pair => table.push pair.1 pair.2) empty

mutual
/-- A term below the root with every outermost recorded sub-term replaced. -/
def applyInside (table : Substitution) (term : Term) : Term :=
  match table.get? term with
  | some new => new
  | none =>
    let rebuilt : Term :=
      match term with
      | .num value => .num value
      | .bool value => .bool value
      | .arith op args => .arith op (table.applyInsideAll args)
      | .logic op args => .logic op (table.applyInsideAll args)
      | .cmp op lhs rhs => .cmp op (table.applyInside lhs) (table.applyInside rhs)
      | .eq lhs rhs naming => .eq (table.applyInside lhs) (table.applyInside rhs) naming
      | .distinct lhs rhs => .distinct (table.applyInside lhs) (table.applyInside rhs)
      | .not arg => .not (table.applyInside arg)
      | .neg arg => .neg (table.applyInside arg)
      | .select array index => .select (table.applyInside array) (table.applyInside index)
      | .concat bytes => .concat (table.applyInsideAll bytes)
      | .extract args params => .extract (table.applyInsideAll args) params
      | .app name args params => .app name (table.applyInsideAll args) params
    if rebuilt = term then term else rebuilt

/-- The terms of a list below the root, treated alike. -/
def applyInsideAll (table : Substitution) : List Term → List Term
  | [] => []
  | term :: terms => table.applyInside term :: table.applyInsideAll terms
end

/-- The term with every outermost recorded sub-term replaced. -/
def apply (table : Substitution) (term : Term) : Term :=
  if table.isEmpty then term
  else
    match table.get? term with
    | some new => new
    | none => term.mapChildren table.applyInside

/-- Applying to a list is applying to each of its members. -/
theorem apply_inside_all_eq_map (table : Substitution) (terms : List Term) :
    table.applyInsideAll terms = terms.map table.applyInside := by
  induction terms with
  | nil => rfl
  | cons term terms ih => simp [applyInsideAll, ih]

/-- Below the root, a recorded term is replaced as a whole, and any other node has its children treated
alike. -/
theorem apply_inside_eq (table : Substitution) (term : Term) :
    table.applyInside term =
      match table.get? term with
      | some new => new
      | none => term.mapChildren table.applyInside := by
  have hkept (rebuilt : Term) : (if rebuilt = term then term else rebuilt) = rebuilt := by
    split
    next h => exact h.symm
    next => rfl
  rw [applyInside.eq_def]
  cases table.get? term with
  | some new => rfl
  | none =>
      simp only [hkept]
      cases term <;> simp only [Term.mapChildren, apply_inside_all_eq_map]

/-- A table without replacements knows no term. -/
theorem get_of_is_empty {table : Substitution} (h : table.isEmpty = true) (term : Term) :
    table.get? term = none := by
  rw [get?, List.isEmpty_iff.mp h, List.lookup_nil]

/-- Below the root, a table without replacements keeps every term. -/
theorem apply_inside_of_is_empty {table : Substitution} (h : table.isEmpty = true) (term : Term) :
    table.applyInside term = term := by
  induction term using Term.induct_children with
  | node term ih =>
      rw [apply_inside_eq, get_of_is_empty h]
      exact Term.map_children_eq_self ih

/-- At the root and below it, a term is treated alike. -/
theorem apply_inside_eq_apply (table : Substitution) (term : Term) :
    table.applyInside term = table.apply term := by
  rw [apply]
  split
  next h => exact apply_inside_of_is_empty h term
  next => exact apply_inside_eq table term

/-- A recorded term is replaced as a whole, any other node has its children treated alike. -/
theorem apply_eq (table : Substitution) (term : Term) :
    table.apply term =
      match table.get? term with
      | some new => new
      | none => term.mapChildren table.apply := by
  rw [← apply_inside_eq_apply, apply_inside_eq, funext table.apply_inside_eq_apply]

end Substitution

end ByteGrammar
