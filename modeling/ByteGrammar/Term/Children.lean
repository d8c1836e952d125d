import ByteGrammar.Term.Equality

/-!
# Children and conjuncts

The direct sub-terms of a node, rebuilding a node from new ones, and the conjuncts of a nested
conjunction. Parameters are no children, also when they hold a term. `map_children_children` says that
rebuilding acts on exactly the children, `induct_children` proves a property of all terms from children to
parent, and `ne_all_of_mem_conjuncts` says that a conjunct is never a conjunction.
-/

namespace ByteGrammar

/-- The direct sub-terms of a term, in writing order. -/
def Term.children : Term → List Term
  | .num _ | .bool _ => []
  | .arith _ args | .logic _ args | .concat args => args
  | .extract args _ | .app _ args _ => args
  | .cmp _ lhs rhs | .eq lhs rhs _ | .distinct lhs rhs => [lhs, rhs]
  | .not arg | .neg arg => [arg]
  | .select array index => [array, index]

/-- The node with its `i`-th child `c` replaced by `f i c`. -/
def Term.mapChildrenIdx (f : Nat → Term → Term) : Term → Term
  | .num value => .num value
  | .bool value => .bool value
  | .arith op args => .arith op (args.mapIdx f)
  | .logic op args => .logic op (args.mapIdx f)
  | .cmp op lhs rhs => .cmp op (f 0 lhs) (f 1 rhs)
  | .eq lhs rhs naming => .eq (f 0 lhs) (f 1 rhs) naming
  | .distinct lhs rhs => .distinct (f 0 lhs) (f 1 rhs)
  | .not arg => .not (f 0 arg)
  | .neg arg => .neg (f 0 arg)
  | .select array index => .select (f 0 array) (f 1 index)
  | .concat args => .concat (args.mapIdx f)
  | .extract args params => .extract (args.mapIdx f) params
  | .app name args params => .app name (args.mapIdx f) params

/-- The node with every child `c` replaced by `f c`. -/
def Term.mapChildren (f : Term → Term) : Term → Term
  | .num value => .num value
  | .bool value => .bool value
  | .arith op args => .arith op (args.map f)
  | .logic op args => .logic op (args.map f)
  | .cmp op lhs rhs => .cmp op (f lhs) (f rhs)
  | .eq lhs rhs naming => .eq (f lhs) (f rhs) naming
  | .distinct lhs rhs => .distinct (f lhs) (f rhs)
  | .not arg => .not (f arg)
  | .neg arg => .neg (f arg)
  | .select array index => .select (f array) (f index)
  | .concat args => .concat (args.map f)
  | .extract args params => .extract (args.map f) params
  | .app name args params => .app name (args.map f) params

/-- Replacing by position and ignoring the position is replacing. -/
theorem Term.map_children_idx_const (f : Term → Term) (term : Term) :
    term.mapChildrenIdx (fun _ => f) = term.mapChildren f := by
  cases term <;> simp [Term.mapChildrenIdx, Term.mapChildren, List.mapIdx_eq_zipIdx_map] <;>
    exact List.ext_getElem (by simp) (by simp)

/-- Rebuilding a node maps its children. -/
theorem Term.map_children_children (f : Term → Term) (term : Term) :
    (term.mapChildren f).children = term.children.map f := by
  cases term <;> rfl

/-- Rebuilding a node depends only on what happens to its children. -/
theorem Term.map_children_congr {f g : Term → Term} {term : Term}
    (h : ∀ child ∈ term.children, f child = g child) :
    term.mapChildren f = term.mapChildren g := by
  cases term <;> simp_all [Term.children, Term.mapChildren]

/-- Rebuilding a node from its own children gives the node. -/
theorem Term.map_children_id (term : Term) : term.mapChildren id = term := by
  cases term <;> simp [Term.mapChildren]

/-- A node whose children stay as they are stays as it is. -/
theorem Term.map_children_eq_self {f : Term → Term} {term : Term}
    (h : ∀ child ∈ term.children, f child = child) : term.mapChildren f = term :=
  (Term.map_children_congr h).trans term.map_children_id

/-- A child is smaller than its parent. -/
theorem Term.size_of_lt_of_mem_children {child term : Term} (h : child ∈ term.children) :
    sizeOf child < sizeOf term := by
  cases term
  all_goals simp only [Term.children, List.mem_cons, List.not_mem_nil, or_false] at h
  case arith | logic | concat | extract | app =>
      have hsize := List.sizeOf_lt_of_mem h
      simp only [Term.arith.sizeOf_spec, Term.logic.sizeOf_spec, Term.concat.sizeOf_spec,
        Term.extract.sizeOf_spec, Term.app.sizeOf_spec]
      omega
  case cmp | eq | distinct | select =>
      rcases h with rfl | rfl
      all_goals
        simp only [Term.cmp.sizeOf_spec, Term.eq.sizeOf_spec, Term.distinct.sizeOf_spec,
          Term.select.sizeOf_spec]
        omega
  case not | neg =>
      subst h
      simp only [Term.not.sizeOf_spec, Term.neg.sizeOf_spec]
      omega

/-- A property that passes from the children of a term to the term holds of every term. -/
@[elab_as_elim]
theorem Term.induct_children {motive : Term → Prop}
    (node : ∀ term : Term, (∀ child ∈ term.children, motive child) → motive term)
    (term : Term) : motive term :=
  node term fun child _ => Term.induct_children node child
termination_by sizeOf term
decreasing_by exact Term.size_of_lt_of_mem_children ‹_›

mutual
/-- The conjuncts of a term: a conjunction is taken apart at every depth, any other term is its own
single conjunct. -/
def Term.conjuncts : Term → List Term
  | .logic .and args => conjunctsAll args
  | term => [term]

/-- The conjuncts of all terms of a list, in order. -/
def conjunctsAll : List Term → List Term
  | [] => []
  | term :: terms => term.conjuncts ++ conjunctsAll terms
end

/-- The conjuncts of a list are those of its members, one after the other. -/
theorem conjuncts_all_eq_flat_map (terms : List Term) :
    conjunctsAll terms = terms.flatMap Term.conjuncts := by
  induction terms with
  | nil => rfl
  | cons term terms ih => simp [conjunctsAll, ih]

mutual
/-- A conjunct is never itself a conjunction. -/
theorem Term.ne_all_of_mem_conjuncts (args : List Term) :
    (term : Term) → .all args ∉ term.conjuncts
  | .logic .and terms => by
      simpa [Term.conjuncts] using ne_all_of_mem_conjuncts_all args terms
  | .logic .or _ | .num _ | .bool _ | .arith _ _ | .cmp _ _ _ | .eq _ _ _ | .distinct _ _
  | .not _ | .neg _ | .select _ _ | .concat _ | .extract _ _ | .app _ _ _ => by
      simp [Term.conjuncts, Term.all]

/-- No conjunct of a list of terms is a conjunction. -/
theorem ne_all_of_mem_conjuncts_all (args : List Term) :
    (terms : List Term) → .all args ∉ conjunctsAll terms
  | [] => by simp [conjunctsAll]
  | term :: terms => by
      simp [conjunctsAll, Term.ne_all_of_mem_conjuncts args term,
        ne_all_of_mem_conjuncts_all args terms]
end

end ByteGrammar
