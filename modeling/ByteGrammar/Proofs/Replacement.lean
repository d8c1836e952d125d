import ByteGrammar.Term.Substitution

/-!
# Heads, children and outermost replacement

A term is its head together with its children. `Term.replace` replaces every outermost sub-term that a
finite map knows. A table of replacements is such a map: `apply_eq_replace` says what applying it does, and
`get_of_list` that the first recording of a term is the one that counts.
-/

namespace ByteGrammar

/-- What a node is apart from its children: the constructor with its operator, literal, name, parameters
or naming flag. -/
inductive Head where
  | num (value : Numeral)
  | bool (value : Bool)
  | arith (op : ArithOp)
  | logic (op : LogicOp)
  | cmp (op : CmpOp)
  | eq (naming : Bool)
  | distinct
  | not
  | neg
  | select
  | concat
  | extract (params : List Param)
  | app (name : String) (params : List Param)
  deriving DecidableEq, Inhabited

/-- The head of a term. -/
def Term.head : Term → Head
  | .num value => .num value
  | .bool value => .bool value
  | .arith op _ => .arith op
  | .logic op _ => .logic op
  | .cmp op _ _ => .cmp op
  | .eq _ _ naming => .eq naming
  | .distinct _ _ => .distinct
  | .not _ => .not
  | .neg _ => .neg
  | .select _ _ => .select
  | .concat _ => .concat
  | .extract _ params => .extract params
  | .app name _ params => .app name params

/-- Rebuilding a node keeps its head. -/
theorem Term.head_map_children (f : Term → Term) (term : Term) :
    (term.mapChildren f).head = term.head := by
  cases term <;> rfl

mutual
/-- The term with every outermost sub-term that `find` knows replaced by what `find` gives for it. -/
def Term.replace (find : Term → Option Term) (term : Term) : Term :=
  match find term with
  | some new => new
  | none =>
    match term with
    | .num value => .num value
    | .bool value => .bool value
    | .arith op args => .arith op (replaceAll find args)
    | .logic op args => .logic op (replaceAll find args)
    | .cmp op lhs rhs => .cmp op (lhs.replace find) (rhs.replace find)
    | .eq lhs rhs naming => .eq (lhs.replace find) (rhs.replace find) naming
    | .distinct lhs rhs => .distinct (lhs.replace find) (rhs.replace find)
    | .not arg => .not (arg.replace find)
    | .neg arg => .neg (arg.replace find)
    | .select array index => .select (array.replace find) (index.replace find)
    | .concat bytes => .concat (replaceAll find bytes)
    | .extract args params => .extract (replaceAll find args) params
    | .app name args params => .app name (replaceAll find args) params

/-- The terms of a list with every outermost known sub-term replaced. -/
def replaceAll (find : Term → Option Term) : List Term → List Term
  | [] => []
  | term :: terms => term.replace find :: replaceAll find terms
end

/-- Replacing in a list is replacing in each of its members. -/
theorem replace_all_eq_map (find : Term → Option Term) (terms : List Term) :
    replaceAll find terms = terms.map (Term.replace find) := by
  induction terms with
  | nil => rfl
  | cons term terms ih => simp [replaceAll, ih]

/-- A known term is replaced as a whole, any other keeps its head and has its children treated alike. -/
theorem Term.replace_eq (find : Term → Option Term) (term : Term) :
    term.replace find =
      match find term with
      | some new => new
      | none => term.mapChildren (Term.replace find) := by
  cases term <;> rw [Term.replace] <;> simp only [Term.mapChildren, replace_all_eq_map]

namespace Substitution

/-- Applying a table replaces every outermost sub-term that the table knows. -/
theorem apply_eq_replace (table : Substitution) (term : Term) :
    table.apply term = term.replace table.get? := by
  induction term using Term.induct_children with
  | node term ih =>
      rw [apply_eq, Term.replace_eq]
      cases hget : table.get? term with
      | some new => simp only
      | none => simp only [Term.map_children_congr ih]

/-- A recording is found unless the term was recorded before. -/
theorem get_push (table : Substitution) (old new term : Term) :
    (table.push old new).get? term =
      (table.get? term).or (if term = old then some new else none) := by
  by_cases h : old ∈ table.pairs.map Prod.fst
  · have hpush : table.push old new = table := by simp only [push, h, dite_true]
    rw [hpush]
    by_cases hterm : term = old
    · subst hterm
      cases hget : table.get? term with
      | none =>
          simp only [get?, List.lookup_eq_none_iff] at hget
          obtain ⟨pair, hpair, rfl⟩ := List.mem_map.mp h
          simpa using hget pair hpair
      | some found => rfl
    · simp [hterm]
  · simp only [get?, push, h, dite_false, List.lookup_append, List.lookup_cons, List.lookup_nil]
    by_cases hterm : term = old
    · simp [hterm]
    · simp [hterm, beq_eq_false_iff_ne.mpr hterm]

/-- A table that records a list of pairs gives each term its first replacement in the list. -/
theorem get_of_list (pairs : List (Term × Term)) (term : Term) :
    (ofList pairs).get? term = pairs.lookup term := by
  suffices h : ∀ table : Substitution,
      (pairs.foldl (fun table pair => table.push pair.1 pair.2) table).get? term =
        (table.get? term).or (pairs.lookup term) from h empty
  induction pairs with
  | nil => simp
  | cons pair pairs ih =>
      intro table
      rw [List.foldl_cons, ih, get_push, Option.or_assoc, List.lookup_cons]
      by_cases hterm : term = pair.1
      · simp [hterm]
      · simp [hterm, beq_eq_false_iff_ne.mpr hterm]

end Substitution

end ByteGrammar
