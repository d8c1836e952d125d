import ByteGrammar.Proofs.LoweringRun

/-!
# What guards mean

An `Interpretation` gives every term a value, from its head and the values of its children, and says which
values hold. `guards_hold_iff_assertions_hold` says that lowering loses nothing: when every variable has
the value of the bound that it is bound to, the terms on the guard lines of the definition hold exactly when
the assertions do. The steps in between are conjuncts in place of assertions, projected conjuncts in place of
conjuncts, and leaving out those that are written as nothing.
-/

namespace ByteGrammar

universe u

/-- Values for terms. A value depends on the head of a term and on the values of its children, a
conjunction holds when all its members do, and the literal `true` holds. -/
structure Interpretation (V : Type u) where
  value : Term → V
  Holds : V → Prop
  value_congr : ∀ first second : Term, first.head = second.head →
    first.children.map value = second.children.map value → value first = value second
  holds_all : ∀ args, Holds (value (.all args)) ↔ ∀ arg ∈ args, Holds (value arg)
  holds_true : Holds (value (.bool true))

namespace Interpretation

variable {V : Type u} (I : Interpretation V)

/-- A term is true when its value holds. -/
def Satisfies (term : Term) : Prop :=
  I.Holds (I.value term)

/-- Replacing children by terms of the same values keeps the value. -/
theorem value_map_children {f : Term → Term} {term : Term}
    (h : ∀ child ∈ term.children, I.value (f child) = I.value child) :
    I.value (term.mapChildren f) = I.value term := by
  refine I.value_congr _ _ (term.head_map_children f) ?_
  rw [Term.map_children_children, List.map_map]
  exact List.map_congr_left h

/-- Applying a table keeps the value of every term when each replacement has the value of what it
replaces. -/
theorem value_apply {table : Substitution}
    (h : ∀ old new, table.get? old = some new → I.value new = I.value old) (term : Term) :
    I.value (table.apply term) = I.value term := by
  induction term using Term.induct_children with
  | node term ih =>
      rw [Substitution.apply_eq]
      cases hfound : table.get? term with
      | some new => exact h term new hfound
      | none => exact I.value_map_children ih

/-- A term is true exactly when all its conjuncts are. -/
theorem satisfies_conjuncts (term : Term) :
    (∀ conjunct ∈ term.conjuncts, I.Satisfies conjunct) ↔ I.Satisfies term := by
  induction term using Term.induct_children with
  | node term ih =>
      cases term with
      | logic op args =>
          cases op with
          | or => simp [Term.conjuncts]
          | and =>
              rw [Term.conjuncts, conjuncts_all_eq_flat_map]
              refine Iff.trans ?_ (I.holds_all args).symm
              simp only [List.mem_flatMap, forall_exists_index, and_imp]
              constructor
              · intro h arg harg
                exact (ih arg harg).mp fun conjunct hconjunct => h conjunct arg harg hconjunct
              · intro h conjunct arg harg hconjunct
                exact (ih arg harg).mpr (h arg harg) conjunct hconjunct
      | _ => simp [Term.conjuncts]

/-- The assertions of a production are true exactly when its conjuncts are, also without the literal
`true`. -/
theorem satisfies_assertions (production : Production) :
    (∀ conjunct ∈ production.conjuncts, I.Satisfies conjunct) ↔
      ∀ assertion ∈ production.assertions, I.Satisfies assertion := by
  simp only [Production.conjuncts, conjuncts_all_eq_flat_map, List.mem_filter, List.mem_flatMap]
  constructor
  · intro h assertion hassertion
    refine (I.satisfies_conjuncts assertion).mp fun conjunct hconjunct => ?_
    cases htrue : conjunct.isTrue with
    | true =>
        cases conjunct <;> simp only [Term.isTrue, Bool.false_eq_true] at htrue
        exact htrue ▸ I.holds_true
    | false => exact h conjunct ⟨⟨assertion, hassertion, hconjunct⟩, by simp [htrue]⟩
  · rintro h conjunct ⟨⟨assertion, hassertion, hconjunct⟩, -⟩
    exact (I.satisfies_conjuncts assertion).mpr (h assertion hassertion) conjunct hconjunct

end Interpretation

/-- Whether a term has the empty text. -/
def Term.printsNothing (term : Term) : Bool :=
  match term.render with
  | .ok text => text.isEmpty
  | .error _ => false

/-- The projected conjuncts of a production that are written as guards. -/
def Production.emitted (production : Production) (table : Substitution) : List Term :=
  (production.projected table).filter fun term => !term.printsNothing

/-- `printsNothing` decides whether the text is empty. -/
theorem Term.prints_nothing_iff {term : Term} : term.printsNothing = true ↔ term.render = .ok "" := by
  unfold Term.printsNothing
  cases term.render <;> simp

/-- Leaving out the terms with the empty text leaves out the empty texts. -/
theorem render_all_filter {terms : List Term} {texts : List String}
    (h : renderAll terms = .ok texts) :
    renderAll (terms.filter fun term => !term.printsNothing) =
      .ok (texts.filter fun text => !text.isEmpty) := by
  rw [render_all_eq_ok_iff] at h ⊢
  induction terms generalizing texts with
  | nil =>
      obtain rfl : texts = [] := by simpa using h.symm
      rfl
  | cons term terms ih =>
      cases texts with
      | nil => simp at h
      | cons text texts =>
          obtain ⟨hterm, hterms⟩ := List.cons.inj h
          have hprints : term.printsNothing = text.isEmpty := by simp [Term.printsNothing, hterm]
          cases hempty : text.isEmpty <;>
            simp [hprints, hempty, hterm, ih hterms]

namespace Production.LowersTo

variable {naming : Naming} {production : Production} {start : IndexVars}
  {definition : Definition} {last : Scope}

/-- The guards of a definition are the texts of the emitted conjuncts. -/
theorem render_emitted (h : production.LowersTo naming start definition last) :
    renderAll (production.emitted last.table) = .ok definition.guards := by
  obtain ⟨texts, htexts, hguards⟩ := h.guards
  rw [hguards]
  exact render_all_filter htexts

/-- Whatever the table replaces is a bound, and its replacement is a variable that some `let` line binds
to that bound. -/
theorem mem_zip_of_get (h : production.LowersTo naming start definition last) {old new : Term}
    (hget : last.table.get? old = some new) :
    ∃ binding, (old, binding) ∈ production.symbolicBounds.zip definition.bindings ∧
      new = .constant binding.name := by
  rw [h.table, Substitution.get_of_list, IndexVars.constants, ← h.names, List.map_map,
    List.zip_map_right, List.lookup_eq_some_iff] at hget
  obtain ⟨before, after, hpairs, -⟩ := hget
  have hmem : (old, new) ∈ (production.symbolicBounds.zip definition.bindings).map
      fun pair => (pair.1, Term.constant pair.2.name) :=
    hpairs ▸ by simp
  obtain ⟨⟨bound, binding⟩, hpair, heq⟩ := List.mem_map.mp hmem
  obtain ⟨rfl, rfl⟩ := Prod.mk.inj heq
  exact ⟨binding, hpair, rfl⟩

end Production.LowersTo

namespace Definition

/-- The line of alternatives of a definition. -/
def alternationLine (definition : Definition) : String :=
  "    " ++ " <| ".intercalate (definition.alternatives.map renderSequence) ++ "\n"

/-- The lines of a definition before its guards. -/
def heading (definition : Definition) : String :=
  "def " ++ definition.name ++ " = \n  block\n    let len = Len\n" ++
    String.join (definition.bindings.map Binding.render) ++ definition.alternationLine

/-- A definition is its heading and a line for each guard. -/
theorem render_eq_heading (definition : Definition) :
    definition.render =
      definition.heading ++ String.join (definition.guards.map renderGuard) ++ "\n\n" := by
  simp [render, heading, alternationLine, String.append_assoc]

end Definition

/-- Guards mean what assertions mean. Take a production that lowers from any state, and any
interpretation in which every variable has the value of the bound on the right of its `let` line and every
term with the empty text is true. Behind the heading of the definition stands a line for each term that is
written as a guard, with its text, and nothing else. All assertions are true exactly when all these terms
are. -/
theorem guards_hold_iff_assertions_hold {V : Type u} {naming : Naming} {production : Production}
    {scope last : Scope} {definition : Definition}
    (hrun : (production.lower naming).run scope = (.ok definition, last))
    (I : Interpretation V)
    (hlet : ∀ pair ∈ production.symbolicBounds.zip definition.bindings,
      I.value (.constant pair.2.name) = I.value pair.1)
    (hblank : ∀ term : Term, term.render = .ok "" → I.Satisfies term) :
    renderAll production.symbolicBounds = .ok (definition.bindings.map Binding.text) ∧
      renderAll (production.emitted last.table) = .ok definition.guards ∧
      definition.render = definition.heading ++
        String.join (definition.guards.map fun guard => "\n    (" ++ guard ++ ") is true") ++ "\n\n" ∧
      ((∀ assertion ∈ production.assertions, I.Satisfies assertion) ↔
        ∀ guard ∈ production.emitted last.table, I.Satisfies guard) := by
  have hlowers := Production.lowers_to_of_run hrun
  have hvalue : ∀ term, I.value (last.table.apply term) = I.value term := by
    refine I.value_apply fun old new hget => ?_
    obtain ⟨binding, hpair, rfl⟩ := hlowers.mem_zip_of_get hget
    exact hlet _ hpair
  refine ⟨hlowers.bounds, hlowers.render_emitted, definition.render_eq_heading, ?_⟩
  rw [← I.satisfies_assertions production]
  constructor
  · intro h guard hguard
    obtain ⟨conjunct, hconjunct, rfl⟩ := List.mem_map.mp (List.mem_filter.mp hguard).1
    rw [Interpretation.Satisfies, hvalue]
    exact h conjunct hconjunct
  · intro h conjunct hconjunct
    rw [Interpretation.Satisfies, ← hvalue]
    have hprojected : last.table.apply conjunct ∈ production.projected last.table :=
      List.mem_map_of_mem hconjunct
    cases hprints : (last.table.apply conjunct).printsNothing with
    | false => exact h _ (List.mem_filter.mpr ⟨hprojected, by simp [hprints]⟩)
    | true => exact hblank _ (Term.prints_nothing_iff.mp hprints)

/-- The value of a term under a function that gives every head its value on given children. -/
def Term.fold {V : Type u} (node : Head → List V → V) (term : Term) : V :=
  node term.head (term.children.attach.map fun child => child.1.fold node)
termination_by sizeOf term
decreasing_by exact Term.size_of_lt_of_mem_children child.2

/-- The value of a term comes from its head and the values of its children. -/
theorem Term.fold_eq {V : Type u} (node : Head → List V → V) (term : Term) :
    term.fold node = node term.head (term.children.map (Term.fold node)) := by
  rw [Term.fold, List.attach_map_val]

namespace Interpretation

/-- Any function on heads that treats conjunctions and `true` as it must is an interpretation. -/
def ofNode {V : Type u} (node : Head → List V → V) (Holds : V → Prop)
    (hall : ∀ values, Holds (node (.logic .and) values) ↔ ∀ value ∈ values, Holds value)
    (htrue : Holds (node (.bool true) [])) : Interpretation V where
  value := Term.fold node
  Holds := Holds
  value_congr first second hhead hchildren := by
    rw [Term.fold_eq node first, Term.fold_eq node second, hhead, hchildren]
  holds_all args := by
    rw [Term.fold_eq]
    simpa [Term.all, Term.head, Term.children] using hall (args.map (Term.fold node))
  holds_true := by
    rw [Term.fold_eq]
    exact htrue

/-- The interpretation in which a term is true unless it mentions a constant outside naming
equalities. -/
def unlessMentioned (name : String) : Interpretation Bool :=
  ofNode (fun head values =>
    match head with
    | .eq true => true
    | .app other _ => other != name && values.all id
    | _ => values.all id) (· = true) (by simp) rfl

/-- A literal zero mentions nothing. -/
theorem unless_mentioned_zero (name : String) {term : Term} (h : term.isZeroNumeral = true) :
    (unlessMentioned name).value term = true := by
  cases term <;> simp only [Term.isZeroNumeral, Term.numeral?, Bool.false_eq_true] at h
  exact Term.fold_eq ..

/-- A term with the empty text mentions nothing that has a name. -/
theorem unless_mentioned_blank {name : String} (hname : name ≠ "") {term : Term}
    (h : term.render = .ok "") : (unlessMentioned name).value term = true := by
  induction Term.blank_of_render h with
  | naming lhs rhs => exact Term.fold_eq ..
  | nameless =>
      refine (Term.fold_eq ..).trans ?_
      simpa [Term.head, Term.children] using hname.symm
  | bytes bytes byte hbyte hblank ih =>
      refine (Term.fold_eq ..).trans ?_
      simp only [Term.head, Term.children, List.all_map, List.all_eq_true, Function.comp_apply]
      intro member hmember
      rw [← List.takeWhile_append_dropWhile (p := Term.isZeroNumeral) (l := bytes), hbyte,
        List.mem_append, List.mem_singleton] at hmember
      rcases hmember with hzero | rfl
      · exact unless_mentioned_zero name (List.all_eq_true.mp List.all_takeWhile _ hzero)
      · exact ih hblank.render

end Interpretation

/-- A length that two edges share, with a guard on it. -/
def lengthField : Production where
  id := 4
  alternatives := [
    [.interval ⟨some (.constant 0), some (.symbolic (.constant "n"))⟩],
    [.interval ⟨some (.symbolic (.select (.constant "B") (.constant "n"))), some (.constant 9)⟩,
      .interval ⟨some (.symbolic (.constant "n")), some (.constant 9)⟩]]
  assertions := [.names (.constant "n") (.constant "length"),
    .all [.ge (.constant "n") (.constant "least"),
      .lt (.select (.constant "B") (.constant "n")) (.ofUnsigned 7)]]

/-- The definition of `lengthField`. -/
def lengthFieldDefinition : Definition where
  name := "L4"
  bindings := [⟨"ii1", "n"⟩, ⟨"ii2", "(Select n)"⟩, ⟨"ii3", "n"⟩]
  alternatives := []
  guards := ["(ii1 >= least)", "(ii2 < 0x0000000000000007)"]

/-- The guards of `lengthField` mean what its assertions do, in an interpretation that one of them can make
false. -/
theorem guards_of_length_field :
    let run := (lengthField.lower {}).run {}
    let I := Interpretation.unlessMentioned "least"
    run = (.ok lengthFieldDefinition, run.2) ∧
      (∀ pair ∈ lengthField.symbolicBounds.zip lengthFieldDefinition.bindings,
        I.value (.constant pair.2.name) = I.value pair.1) ∧
      (∀ term : Term, term.render = .ok "" → I.Satisfies term) ∧
      renderAll lengthField.symbolicBounds =
        .ok (lengthFieldDefinition.bindings.map Binding.text) ∧
      renderAll (lengthField.emitted run.2.table) = .ok lengthFieldDefinition.guards ∧
      lengthFieldDefinition.render = lengthFieldDefinition.heading ++
        String.join (lengthFieldDefinition.guards.map fun guard => "\n    (" ++ guard ++ ") is true") ++
          "\n\n" ∧
      ((∀ assertion ∈ lengthField.assertions, I.Satisfies assertion) ↔
        ∀ guard ∈ lengthField.emitted run.2.table, I.Satisfies guard) := by
  intro run I
  have hrun : run = (.ok lengthFieldDefinition, run.2) := by
    refine Prod.ext ?_ rfl
    decide +kernel
  have hlet : ∀ pair ∈ lengthField.symbolicBounds.zip lengthFieldDefinition.bindings,
      I.value (.constant pair.2.name) = I.value pair.1 := by
    simp [lengthField, lengthFieldDefinition, Production.symbolicBounds, RhsItem.symbolicBounds,
      Interval.symbolicBounds, Bound.terms, I, Interpretation.unlessMentioned,
      Interpretation.ofNode, Term.fold_eq, Term.constant, Term.head, Term.children]
  have hblank : ∀ term : Term, term.render = .ok "" → I.Satisfies term :=
    fun term => Interpretation.unless_mentioned_blank (by decide)
  exact ⟨hrun, hlet, hblank, guards_hold_iff_assertions_hold hrun I hlet hblank⟩

end ByteGrammar
