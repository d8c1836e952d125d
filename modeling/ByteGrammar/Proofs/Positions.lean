import ByteGrammar.Proofs.Replacement

/-!
# Positions of a term

A position leads from the root of a term to one of its sub-terms, by the places of the children on the way.
Parameters hold no positions. Applying a table acts on positions: `subterm_apply` says what it leaves where
nothing above is recorded, and `exists_of_subterm_apply` that the result has no other positions except
inside of what was put in. `replaces_exactly_outermost` puts both together for a table that records a list
of pairs, in which terms may come back and contain one another.
-/

namespace ByteGrammar

namespace Term

/-- The sub-term at a position, if there is one. -/
def subterm? (term : Term) : List Nat → Option Term
  | [] => some term
  | place :: position => term.children[place]?.bind fun child => child.subterm? position

/-- `term.Above position ancestor` says that `ancestor` stands at a position properly above the given
one. -/
def Above (term : Term) (position : List Nat) (ancestor : Term) : Prop :=
  ∃ outer place inner, position = outer ++ place :: inner ∧ term.subterm? outer = some ancestor

/-- `term.Contains sub` says that `sub` stands at some position of a term, the root included. -/
def Contains (term sub : Term) : Prop :=
  ∃ position, term.subterm? position = some sub

variable {term sub ancestor : Term} {place : Nat} {position : List Nat}

/-- A position below the root lies in the child at its first place. -/
theorem subterm_cons_eq_some_iff :
    term.subterm? (place :: position) = some sub ↔
      ∃ child, term.children[place]? = some child ∧ child.subterm? position = some sub :=
  Option.bind_eq_some_iff

/-- Nothing is above the root. -/
theorem not_above_nil : ¬ term.Above [] ancestor := by
  rintro ⟨outer, place, inner, hposition, -⟩
  simp at hposition

/-- Above a position below the root are the root and what is above it in the child at its first place. -/
theorem above_cons_iff :
    term.Above (place :: position) ancestor ↔
      ancestor = term ∨
        ∃ child, term.children[place]? = some child ∧ child.Above position ancestor := by
  constructor
  · rintro ⟨outer, next, inner, hposition, hat⟩
    cases outer with
    | nil => exact .inl (Option.some.inj hat).symm
    | cons first outer =>
        obtain ⟨rfl, rfl⟩ := List.cons.inj hposition
        obtain ⟨child, hchild, hat⟩ := subterm_cons_eq_some_iff.mp hat
        exact .inr ⟨child, hchild, outer, next, inner, rfl, hat⟩
  · rintro (rfl | ⟨child, hchild, outer, next, inner, rfl, hat⟩)
    · exact ⟨[], place, position, rfl, rfl⟩
    · exact ⟨place :: outer, next, inner, rfl, subterm_cons_eq_some_iff.mpr ⟨child, hchild, hat⟩⟩

/-- A term contains itself. -/
theorem contains_self (term : Term) : term.Contains term :=
  ⟨[], rfl⟩

/-- What a child contains, its parent contains. -/
theorem Contains.of_child {child : Term} (h : child.Contains sub) (hchild : child ∈ term.children) :
    term.Contains sub := by
  obtain ⟨position, hat⟩ := h
  obtain ⟨place, hplace⟩ := List.mem_iff_getElem?.mp hchild
  exact ⟨place :: position, subterm_cons_eq_some_iff.mpr ⟨child, hplace, hat⟩⟩

/-- A term contains itself and what its children contain. -/
theorem contains_iff :
    term.Contains sub ↔ sub = term ∨ ∃ child ∈ term.children, child.Contains sub := by
  constructor
  · rintro ⟨position, hat⟩
    cases position with
    | nil => exact .inl (Option.some.inj hat).symm
    | cons place position =>
        obtain ⟨child, hplace, hat⟩ := subterm_cons_eq_some_iff.mp hat
        exact .inr ⟨child, List.mem_of_getElem? hplace, position, hat⟩
  · rintro (rfl | ⟨child, hchild, hcontains⟩)
    · exact contains_self sub
    · exact hcontains.of_child hchild

mutual
/-- Whether a term contains another one. -/
def includes (term sub : Term) : Bool :=
  sub == term || match term with
    | .num _ | .bool _ => false
    | .arith _ args | .logic _ args | .concat args | .extract args _ | .app _ args _ =>
        anyIncludes args sub
    | .cmp _ lhs rhs | .eq lhs rhs _ | .distinct lhs rhs | .select lhs rhs =>
        lhs.includes sub || rhs.includes sub
    | .not arg | .neg arg => arg.includes sub

/-- Whether a term of a list contains another one. -/
def anyIncludes : List Term → Term → Bool
  | [], _ => false
  | term :: terms, sub => term.includes sub || anyIncludes terms sub
end

/-- The recursion over a list of terms asks each of them. -/
theorem any_includes_eq (terms : List Term) (sub : Term) :
    anyIncludes terms sub = terms.any fun term => term.includes sub := by
  induction terms with
  | nil => rfl
  | cons term terms ih => rw [anyIncludes, List.any_cons, ih]

/-- The recursion over a term asks its children. -/
theorem includes_eq (term sub : Term) :
    term.includes sub =
      (sub == term || term.children.any fun child => child.includes sub) := by
  cases term <;> simp [includes, children, any_includes_eq]

/-- `includes` decides `Contains`. -/
theorem includes_iff (term sub : Term) : term.includes sub = true ↔ term.Contains sub := by
  induction term using Term.induct_children with
  | node term ih =>
      rw [includes_eq, contains_iff, Bool.or_eq_true, beq_iff_eq, List.any_eq_true]
      refine or_congr_right (exists_congr fun child => and_congr_right fun hchild => ?_)
      exact ih child hchild

instance (term sub : Term) : Decidable (term.Contains sub) :=
  decidable_of_iff _ (includes_iff term sub)

/-- Rebuilding a node twice is rebuilding it once. -/
theorem map_children_map_children (f g : Term → Term) (term : Term) :
    (term.mapChildren f).mapChildren g = term.mapChildren fun child => g (f child) := by
  cases term <;> simp [mapChildren]

/-- A node without children cannot be rebuilt to anything else. -/
theorem map_children_eq_self_of_leaf {f : Term → Term} (h : (term.mapChildren f).children = []) :
    term.mapChildren f = term := by
  rw [map_children_children, List.map_eq_nil_iff] at h
  exact map_children_eq_self fun child hchild => absurd hchild (h ▸ List.not_mem_nil)

end Term

namespace Substitution

variable {table : Substitution} {term sub node new : Term} {position : List Nat}

/-- A recorded term is replaced. -/
theorem apply_of_get_eq_some (h : table.get? term = some new) : table.apply term = new := by
  rw [apply_eq, h]

/-- A term that is not recorded is rebuilt from its children. -/
theorem apply_of_get_eq_none (h : table.get? term = none) :
    table.apply term = term.mapChildren table.apply := by
  rw [apply_eq, h]

/-- Where nothing above is recorded, applying a table leaves the sub-term with the table applied. -/
theorem subterm_apply
    (habove : ∀ ancestor, term.Above position ancestor → table.get? ancestor = none)
    (hat : term.subterm? position = some sub) :
    (table.apply term).subterm? position = some (table.apply sub) := by
  induction position generalizing term with
  | nil =>
      obtain rfl := Option.some.inj hat
      rfl
  | cons place position ih =>
      obtain ⟨child, hchild, hat⟩ := Term.subterm_cons_eq_some_iff.mp hat
      have hterm : table.get? term = none := habove term (Term.above_cons_iff.mpr (.inl rfl))
      have hinside : (table.apply child).subterm? position = some (table.apply sub) :=
        ih (fun ancestor h =>
          habove ancestor (Term.above_cons_iff.mpr (.inr ⟨child, hchild, h⟩))) hat
      have hplace : (table.apply term).children[place]? = some (table.apply child) := by
        rw [apply_of_get_eq_none hterm, Term.map_children_children, List.getElem?_map, hchild,
          Option.map_some]
      exact Term.subterm_cons_eq_some_iff.mpr ⟨table.apply child, hplace, hinside⟩

/-- Every position of the result is one of the term, not recorded and with nothing recorded above it, or
it is inside of what was put in at such a position. -/
theorem exists_of_subterm_apply (h : (table.apply term).subterm? position = some node) :
    ∃ outer inner sub, position = outer ++ inner ∧ term.subterm? outer = some sub ∧
      (∀ ancestor, term.Above outer ancestor → table.get? ancestor = none) ∧
      ((inner = [] ∧ table.get? sub = none) ∨
        ∃ new, table.get? sub = some new ∧ new.subterm? inner = some node) := by
  induction position generalizing term with
  | nil =>
      refine ⟨[], [], term, rfl, rfl, fun _ h => absurd h Term.not_above_nil, ?_⟩
      cases hget : table.get? term with
      | none => exact .inl ⟨rfl, rfl⟩
      | some new => exact .inr ⟨new, rfl, apply_of_get_eq_some hget ▸ h⟩
  | cons place position ih =>
      cases hget : table.get? term with
      | some new =>
          rw [apply_of_get_eq_some hget] at h
          exact ⟨[], place :: position, term, rfl, rfl, fun _ h => absurd h Term.not_above_nil,
            .inr ⟨new, hget, h⟩⟩
      | none =>
          obtain ⟨built, hbuilt, h⟩ := Term.subterm_cons_eq_some_iff.mp h
          rw [apply_of_get_eq_none hget, Term.map_children_children, List.getElem?_map,
            Option.map_eq_some_iff] at hbuilt
          obtain ⟨child, hchild, rfl⟩ := hbuilt
          obtain ⟨outer, inner, sub, rfl, hat, habove, hfound⟩ := ih h
          refine ⟨place :: outer, inner, sub, rfl,
            Term.subterm_cons_eq_some_iff.mpr ⟨child, hchild, hat⟩, ?_, hfound⟩
          intro ancestor hancestor
          rcases Term.above_cons_iff.mp hancestor with rfl | ⟨other, hother, hancestor⟩
          · exact hget
          · obtain rfl := Option.some.inj (hchild.symm.trans hother)
            exact habove ancestor hancestor

/-- A term that contains nothing recorded stays as it is. -/
theorem apply_eq_self (h : ∀ sub, term.Contains sub → table.get? sub = none) :
    table.apply term = term := by
  induction term using Term.induct_children with
  | node term ih =>
      rw [apply_of_get_eq_none (h term term.contains_self)]
      exact Term.map_children_eq_self fun child hchild =>
        ih child hchild fun sub hsub => h sub (hsub.of_child hchild)

/-- When no term is recorded for itself, a term that stays as it is contains nothing recorded. -/
theorem get_eq_none_of_apply_eq_self
    (htable : ∀ old new, table.get? old = some new → new ≠ old)
    (h : table.apply term = term) (hsub : term.Contains sub) : table.get? sub = none := by
  induction term using Term.induct_children with
  | node term ih =>
      have hterm : table.get? term = none := by
        rw [Option.eq_none_iff_forall_ne_some]
        intro new hget
        exact htable term new hget ((apply_of_get_eq_some hget).symm.trans h)
      rcases Term.contains_iff.mp hsub with rfl | ⟨child, hchild, hsub⟩
      · exact hterm
      · have hchildren : term.children.map table.apply = term.children := by
          rw [← Term.map_children_children, ← apply_of_get_eq_none hterm, h]
        have hkept : table.apply child = child := by
          refine (List.map_inj_left (g := id)).mp ?_ child hchild
          rw [hchildren, List.map_id]
        exact ih child hchild hkept hsub

end Substitution

/-! ## Tables that record a list of pairs -/

/-- `Recorded pairs old` says that one of the pairs is recorded for `old`. -/
def Recorded (pairs : List (Term × Term)) (old : Term) : Prop :=
  old ∈ pairs.map Prod.fst

instance (pairs : List (Term × Term)) (old : Term) : Decidable (Recorded pairs old) :=
  inferInstanceAs (Decidable (_ ∈ _))

/-- `RecordedFirst pairs old new` says that of the pairs for `old` the first one gives it `new`. -/
def RecordedFirst (pairs : List (Term × Term)) (old new : Term) : Prop :=
  ∃ earlier later, pairs = earlier ++ (old, new) :: later ∧ ¬ Recorded earlier old

/-- `Exposed pairs term position` says that nothing above a position of a term is recorded. -/
def Exposed (pairs : List (Term × Term)) (term : Term) (position : List Nat) : Prop :=
  ∀ ancestor, term.Above position ancestor → ¬ Recorded pairs ancestor

/-- A term is not recorded when it differs from the first term of every pair. -/
theorem forall_ne_iff_not_recorded {pairs : List (Term × Term)} {old : Term} :
    (∀ pair ∈ pairs, (old != pair.1) = true) ↔ ¬ Recorded pairs old := by
  rw [Recorded, List.mem_map]
  constructor
  · rintro h ⟨pair, hpair, rfl⟩
    simpa using h pair hpair
  · intro h pair hpair
    rw [bne_iff_ne]
    rintro rfl
    exact h ⟨pair, hpair, rfl⟩

namespace Substitution

variable {pairs : List (Term × Term)} {old new : Term}

/-- A table that records a list of pairs finds nothing for any other term. -/
theorem get_of_list_eq_none_iff : (ofList pairs).get? old = none ↔ ¬ Recorded pairs old := by
  rw [get_of_list, List.lookup_eq_none_iff, forall_ne_iff_not_recorded]

/-- A table that records a list of pairs finds what is recorded first. -/
theorem get_of_list_eq_some_iff :
    (ofList pairs).get? old = some new ↔ RecordedFirst pairs old new := by
  simp only [get_of_list, List.lookup_eq_some_iff, forall_ne_iff_not_recorded, RecordedFirst]

end Substitution

/-- Applying a table is simultaneous replacement of the outermost recorded sub-terms. Take a table that
records a list of pairs, in order and with repetitions, and any term. At a position with nothing recorded
above it, a recorded sub-term gives way to what was recorded first for it, and any other one keeps its
head and its number of children. The result has no other positions than these and those inside of what
was put in. So when no term is recorded first for itself, exactly the terms without a recorded sub-term
stay as they are. -/
theorem replaces_exactly_outermost (pairs : List (Term × Term)) (term : Term) :
    let result := (Substitution.ofList pairs).apply term
    (∀ position old new, term.subterm? position = some old → Exposed pairs term position →
        RecordedFirst pairs old new → result.subterm? position = some new) ∧
      (∀ position sub, term.subterm? position = some sub → Exposed pairs term position →
        ¬ Recorded pairs sub → ∃ node, result.subterm? position = some node ∧
          node.head = sub.head ∧ node.children.length = sub.children.length) ∧
      (∀ position node, result.subterm? position = some node →
        ∃ outer inner sub, position = outer ++ inner ∧ term.subterm? outer = some sub ∧
          Exposed pairs term outer ∧ ((inner = [] ∧ ¬ Recorded pairs sub) ∨
            ∃ new, RecordedFirst pairs sub new ∧ new.subterm? inner = some node)) ∧
      ((∀ old new, RecordedFirst pairs old new → new ≠ old) →
        (result = term ↔
          ∀ position sub, term.subterm? position = some sub → ¬ Recorded pairs sub)) := by
  intro result
  have hexposed : ∀ {position}, Exposed pairs term position → ∀ ancestor,
      term.Above position ancestor → (Substitution.ofList pairs).get? ancestor = none :=
    fun h ancestor habove => Substitution.get_of_list_eq_none_iff.mpr (h ancestor habove)
  refine ⟨?_, ?_, ?_, ?_⟩
  · intro position old new hat habove hfirst
    have hget := Substitution.get_of_list_eq_some_iff.mpr hfirst
    rw [← Substitution.apply_of_get_eq_some hget]
    exact Substitution.subterm_apply (hexposed habove) hat
  · intro position sub hat habove hsub
    have hget := Substitution.get_of_list_eq_none_iff.mpr hsub
    refine ⟨_, Substitution.subterm_apply (hexposed habove) hat, ?_, ?_⟩
    · rw [Substitution.apply_of_get_eq_none hget, Term.head_map_children]
    · rw [Substitution.apply_of_get_eq_none hget, Term.map_children_children, List.length_map]
  · intro position node hat
    obtain ⟨outer, inner, sub, hposition, houter, habove, hfound⟩ :=
      Substitution.exists_of_subterm_apply hat
    refine ⟨outer, inner, sub, hposition, houter, ?_, ?_⟩
    · exact fun ancestor h => Substitution.get_of_list_eq_none_iff.mp (habove ancestor h)
    · simpa only [Substitution.get_of_list_eq_none_iff, Substitution.get_of_list_eq_some_iff]
        using hfound
  · intro hpairs
    constructor
    · intro hresult position sub hat
      refine Substitution.get_of_list_eq_none_iff.mp
        (Substitution.get_eq_none_of_apply_eq_self ?_ hresult ⟨position, hat⟩)
      exact fun old new hget => hpairs old new (Substitution.get_of_list_eq_some_iff.mp hget)
    · intro hterm
      refine Substitution.apply_eq_self ?_
      rintro sub ⟨position, hat⟩
      exact Substitution.get_of_list_eq_none_iff.mpr (hterm position sub hat)

/-- A sum and both its operands are recorded, one of them twice, and each replacement contains what other
pairs are recorded for. -/
def overlappingPairs : List (Term × Term) :=
  let x := Term.constant "x"
  let y := Term.constant "y"
  [(.add x y, .mul y x), (x, y), (.add x y, x), (y, .neg x)]

/-- The recorded sum next to its operands outside of it, one of which is the array of a byte read. -/
def overlappingTerm : Term :=
  let x := Term.constant "x"
  let y := Term.constant "y"
  .lt (.add x y) (.select x (.sub y (.add y x)))

/-- The sum gives way as a whole, the byte read keeps its head, and nothing that was put in is looked at
again. -/
theorem outermost_of_overlapping_pairs :
    let x := Term.constant "x"
    let y := Term.constant "y"
    let read := Term.select x (.sub y (.add y x))
    let result := (Substitution.ofList overlappingPairs).apply overlappingTerm
    result = .lt (.mul y x) (.select y (.sub (.neg x) (.add (.neg x) y))) ∧
      (∀ place, Exposed overlappingPairs overlappingTerm [place]) ∧
      RecordedFirst overlappingPairs (.add x y) (.mul y x) ∧
      result.subterm? [0] = some (.mul y x) ∧
      overlappingTerm.subterm? [1] = some read ∧ ¬ Recorded overlappingPairs read ∧
      (∃ node, result.subterm? [1] = some node ∧ node.head = .select ∧ node.children.length = 2) ∧
      (∀ old new, RecordedFirst overlappingPairs old new → new ≠ old) ∧
      (result = overlappingTerm ↔ ∀ position sub,
        overlappingTerm.subterm? position = some sub → ¬ Recorded overlappingPairs sub) := by
  intro x y read result
  obtain ⟨hput, hkept, -, hself⟩ := replaces_exactly_outermost overlappingPairs overlappingTerm
  have hresult : result = .lt (.mul y x) (.select y (.sub (.neg x) (.add (.neg x) y))) := by
    decide +kernel
  have hexposed : ∀ place, Exposed overlappingPairs overlappingTerm [place] := by
    intro place ancestor habove
    rcases Term.above_cons_iff.mp habove with rfl | ⟨child, -, hchild⟩
    · decide +kernel
    · exact absurd hchild Term.not_above_nil
  have hfirst : RecordedFirst overlappingPairs (.add x y) (.mul y x) :=
    ⟨[], _, rfl, List.not_mem_nil⟩
  have hread : ¬ Recorded overlappingPairs read := by decide +kernel
  have hpairs : ∀ old new, RecordedFirst overlappingPairs old new → new ≠ old := by
    rintro old new ⟨earlier, later, heq, -⟩
    have hmem : (old, new) ∈ overlappingPairs := heq ▸ by simp
    have hdiffer : ∀ pair ∈ overlappingPairs, pair.2 ≠ pair.1 := by decide +kernel
    exact hdiffer _ hmem
  exact ⟨hresult, hexposed, hfirst, hput [0] _ _ rfl (hexposed 0) hfirst, rfl, hread,
    hkept [1] _ rfl (hexposed 1) hread, hpairs, hself hpairs⟩

end ByteGrammar
