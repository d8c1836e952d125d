import ByteGrammar.Proofs.LoweringRun

/-!
# Assertions grouped in other ways

The same conjuncts can be stated as one assertion, as many, or as conjunctions nested in any way, with a
`true` anywhere between them. `Regrouped` is the equivalence that these changes generate, and
`regrouped_iff_constraints_eq` says that it relates exactly the lists of assertions with the same
conjuncts, literal `true` left out. Lowering looks at nothing else of the assertions:
`lower_regrouped` says that its result, its supply of variables and its log stay the same.
-/

namespace ByteGrammar

/-- The conjuncts of a list of assertions that are not the literal `true`. -/
def constraints (assertions : List Term) : List Term :=
  (conjunctsAll assertions).filter fun conjunct => !conjunct.isTrue

/-- Lists of assertions that become one another by taking conjunctions apart, putting them together, and
leaving out or adding a literal `true`, anywhere in the list and any number of times. -/
inductive Regrouped : List Term → List Term → Prop where
  | refl (terms) : Regrouped terms terms
  | symm (first second) : Regrouped first second → Regrouped second first
  | trans (first second third) :
      Regrouped first second → Regrouped second third → Regrouped first third
  | among (before first second after) :
      Regrouped first second → Regrouped (before ++ first ++ after) (before ++ second ++ after)
  | apart (args) : Regrouped [.all args] args
  | trivial : Regrouped [.bool true] []

/-- The constraints of two lists are those of the first and then those of the second. -/
theorem constraints_append (first second : List Term) :
    constraints (first ++ second) = constraints first ++ constraints second := by
  simp [constraints, conjuncts_all_eq_flat_map]

/-- The constraints of a conjunction are those of its operands. -/
theorem constraints_all (args : List Term) : constraints [.all args] = constraints args := by
  simp [constraints, conjunctsAll, Term.all, Term.conjuncts]

/-- A literal `true` constrains nothing. -/
theorem constraints_true : constraints [.bool true] = [] :=
  rfl

/-- Regrouping keeps the constraints. -/
theorem Regrouped.constraints_eq {first second : List Term} (h : Regrouped first second) :
    constraints first = constraints second := by
  induction h with
  | refl terms => rfl
  | symm first second _ ih => exact ih.symm
  | trans first second third _ _ ihFirst ihSecond => exact ihFirst.trans ihSecond
  | among before first second after _ ih => simp only [constraints_append, ih]
  | apart args => exact constraints_all args
  | trivial => exact constraints_true

/-- Lists that are regrouped part by part are regrouped. -/
theorem Regrouped.append {first second left right : List Term} (hfirst : Regrouped first left)
    (hsecond : Regrouped second right) : Regrouped (first ++ second) (left ++ right) := by
  have hleft : Regrouped (first ++ second) (left ++ second) := by
    simpa using among [] first left second hfirst
  have hright : Regrouped (left ++ second) (left ++ right) := by
    simpa using among left second right [] hsecond
  exact .trans _ _ _ hleft hright

/-- A list whose members can each be regrouped to their constraints can be so as a whole. -/
theorem regrouped_constraints_of_forall {terms : List Term}
    (h : ∀ term ∈ terms, Regrouped [term] (constraints [term])) :
    Regrouped terms (constraints terms) := by
  induction terms with
  | nil => exact .refl []
  | cons term terms ih =>
      rw [List.forall_mem_cons] at h
      rw [← List.singleton_append, constraints_append]
      exact h.1.append (ih h.2)

/-- A term can be regrouped to its constraints. -/
theorem Term.regrouped_constraints (term : Term) : Regrouped [term] (constraints [term]) := by
  induction term using Term.induct_children with
  | node term ih =>
      cases term with
      | logic op args =>
          cases op with
          | and =>
              have hall := constraints_all args
              rw [Term.all] at hall
              rw [hall]
              exact .trans _ _ _ (.apart args) (regrouped_constraints_of_forall ih)
          | or => exact .refl _
      | bool value =>
          cases value with
          | true => exact .trivial
          | false => exact .refl _
      -- Any other term is its own single constraint.
      | _ => exact .refl _

/-- Every list of assertions can be regrouped to its constraints. -/
theorem regrouped_constraints (terms : List Term) : Regrouped terms (constraints terms) :=
  regrouped_constraints_of_forall fun term _ => term.regrouped_constraints

/-- Two lists of assertions are groupings of the same constraints exactly when one can be regrouped to the
other. -/
theorem regrouped_iff_constraints_eq {first second : List Term} :
    Regrouped first second ↔ constraints first = constraints second := by
  refine ⟨Regrouped.constraints_eq, fun h => ?_⟩
  have hsecond := regrouped_constraints second
  rw [← h] at hsecond
  exact .trans _ _ _ (regrouped_constraints first) (.symm _ _ hsecond)

/-- Guards are written for the conjuncts that are not `true`, and the others leave no trace. -/
theorem Lowering.guards_filter (production : UInt32) (conjuncts : List Term) :
    guards production (conjuncts.filter fun conjunct => !conjunct.isTrue) =
      guards production conjuncts := by
  induction conjuncts with
  | nil => rfl
  | cons conjunct conjuncts ih =>
      cases htrue : conjunct.isTrue with
      | true => simp [guards, htrue, ih]
      | false => simp [guards, htrue, ih]

/-- The guards of a list of assertions depend on its constraints only. -/
theorem Lowering.guards_congr {first second : List Term} (production : UInt32)
    (h : constraints first = constraints second) :
    guards production (conjunctsAll first) = guards production (conjunctsAll second) := by
  rw [← guards_filter, ← guards_filter production (conjunctsAll second)]
  exact congrArg (guards production) h

/-- Lowering does not depend on how the assertions are grouped. Two lists of assertions have the same
conjuncts, literal `true` left out, exactly when one can be regrouped to the other. Then lowering a
production gives the same definition or the same failure with either, from any state, and leaves the same
state behind, the supply of variables included. No conjunct is itself a conjunction. -/
theorem lower_regrouped (naming : Naming) (production : Production) (assertions : List Term) :
    (Regrouped assertions production.assertions ↔
        constraints assertions = constraints production.assertions) ∧
      (constraints assertions = constraints production.assertions → ∀ scope,
        ({ production with assertions }.lower naming).run scope =
          (production.lower naming).run scope) ∧
      ∀ args, .all args ∉ conjunctsAll production.assertions := by
  refine ⟨regrouped_iff_constraints_eq, fun h scope => ?_, fun args => ?_⟩
  · have hguards := Lowering.guards_congr production.id h
    have hlower : { production with assertions }.lower naming = production.lower naming := by
      rw [Production.lower, Production.lower, hguards]
      rfl
    rw [hlower]
  · exact ne_all_of_mem_conjuncts_all args production.assertions

/-- At least one and below nine. -/
def digitLimits : List Term :=
  let byte := Term.select (.constant "B") (.ofUnsigned 0)
  [byte.ge (.ofUnsigned 1), byte.lt (.ofUnsigned 9)]

/-- A rule whose bound is a whole conjunction, which is also one of its assertions. -/
def boundConjunction : Production where
  id := 3
  alternatives := [[.interval ⟨some (.symbolic (.all digitLimits)), some (.constant 4)⟩]]
  assertions := [.all [.all digitLimits, .bool true, .not (.all digitLimits)]]

/-- The definition of `boundConjunction`. The bound is replaced where it is negated, but not where it is a
conjunction of guards. -/
def boundConjunctionDefinition : Definition where
  name := "L3"
  bindings := [⟨"ii1",
    "(((Select 0) >= 0x0000000000000001) && ((Select 0) < 0x0000000000000009))"⟩]
  alternatives := []
  guards := ["((Select 0) >= 0x0000000000000001)", "((Select 0) < 0x0000000000000009)", "!(ii1)"]

/-- Stated as separate assertions, with a `true` and an empty conjunction among them, the conjuncts of
`boundConjunction` give the same definition. -/
theorem lower_bound_conjunction_apart :
    let assertions := digitLimits ++ [.all [], .all [.bool true, .not (.all digitLimits)]]
    constraints assertions = constraints boundConjunction.assertions ∧
      (boundConjunction.lower {}).run {} =
        (.ok boundConjunctionDefinition, ((boundConjunction.lower {}).run {}).2) ∧
      ({ boundConjunction with assertions }.lower {}).run {} =
        (.ok boundConjunctionDefinition, ((boundConjunction.lower {}).run {}).2) := by
  intro assertions
  have hconstraints : constraints assertions = constraints boundConjunction.assertions := by
    decide +kernel
  have hrun : (boundConjunction.lower {}).run {} =
      (.ok boundConjunctionDefinition, ((boundConjunction.lower {}).run {}).2) := by
    refine Prod.ext ?_ rfl
    decide +kernel
  have hsame := (lower_regrouped {} boundConjunction assertions).2.1 hconstraints {}
  exact ⟨hconstraints, hrun, hsame.trans hrun⟩

end ByteGrammar
