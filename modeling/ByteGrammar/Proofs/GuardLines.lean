import ByteGrammar.Proofs.FreshVariables

/-!
# The lines of guards

Every conjunct of a production is looked at by itself, once the table of its variables is complete.
`Lowering.guardLines` are the lines that a conjunct then yields, and `Definition.render` puts those of all
conjuncts one after the other. `vacuous_conjuncts_yield_no_line` says which ones yield no line: the literal
`true` and those whose projection is blank.
-/

namespace ByteGrammar

/-- Only the literal `true` is taken for it. -/
theorem Term.is_true_iff {term : Term} : term.isTrue = true ↔ term = .bool true := by
  cases term <;> simp [Term.isTrue]

namespace Lowering

/-- The guard lines that a conjunct yields by itself, with the variables of a table. -/
def guardLines (production : UInt32) (table : Substitution) (conjunct : Term) : List String :=
  match ((guards production [conjunct]).run { table := table }).1 with
  | .ok texts => texts.map Definition.renderGuard
  | .error _ => []

variable {production : UInt32} {table : Substitution} {conjunct : Term} {text : String}

/-- Writing the guards of one conjunct gives its text, if there is anything in it. -/
theorem guards_singleton_ok (production : UInt32) (scope : Scope)
    (hconjunct : conjunct.isTrue = false)
    (htext : (scope.table.apply conjunct).render = .ok text) :
    ∃ last, (guards production [conjunct]).run scope =
      (.ok (if text.isEmpty then [] else [text]), last) := by
  let last := { scope with
    log := scope.log ++ (scope.table.apply conjunct).fragments.map Event.rendered }
  have hwrite : (write production (scope.table.apply conjunct)).run scope = (.ok text, last) := by
    rw [run_write, htext]
  refine ⟨last, ?_⟩
  simp only [guards, hconjunct, Bool.false_eq_true, if_false]
  refine run_bind_eq_ok_iff.mpr ⟨scope, scope, rfl, ?_⟩
  refine run_bind_eq_ok_iff.mpr ⟨text, last, hwrite, ?_⟩
  exact run_bind_eq_ok_iff.mpr ⟨[], last, rfl, rfl⟩

/-- The literal `true` yields no line. -/
theorem guard_lines_true (production : UInt32) (table : Substitution) :
    guardLines production table (.bool true) = [] := rfl

/-- Any other conjunct yields a line for its projection, unless the text of this is empty. -/
theorem guard_lines_of_render (hconjunct : conjunct.isTrue = false)
    (htext : (table.apply conjunct).render = .ok text) :
    guardLines production table conjunct =
      if text.isEmpty then [] else [Definition.renderGuard text] := by
  obtain ⟨last, hrun⟩ := guards_singleton_ok production { table := table } hconjunct htext
  rw [guardLines, hrun]
  cases text.isEmpty <;> rfl

/-- A conjunct other than `true` yields no line exactly when its projection is blank. -/
theorem guard_lines_eq_nil_iff (hconjunct : conjunct.isTrue = false)
    (htext : (table.apply conjunct).render = .ok text) :
    guardLines production table conjunct = [] ↔ (table.apply conjunct).Blank := by
  rw [guard_lines_of_render hconjunct htext, ← Term.render_eq_empty_iff, htext, Except.ok.injEq,
    ← String.isEmpty_iff]
  cases text.isEmpty <;> simp

/-- A conjunct that yields lines yields the one of its projection. -/
theorem guard_lines_of_ne_nil (hconjunct : conjunct.isTrue = false)
    (htext : (table.apply conjunct).render = .ok text)
    (hlines : guardLines production table conjunct ≠ []) :
    guardLines production table conjunct = [Definition.renderGuard text] := by
  rw [guard_lines_of_render hconjunct htext] at hlines ⊢
  split
  next hempty => exact absurd (if_pos hempty) hlines
  next => rfl

/-- The texts of projected conjuncts that are not empty are on the lines of the conjuncts, in order. -/
theorem map_render_guard_eq_flat_map {conjuncts : List Term} {texts : List String}
    (h : renderAll ((conjuncts.filter fun conjunct => !conjunct.isTrue).map table.apply) =
      .ok texts) :
    (texts.filter fun text => !text.isEmpty).map Definition.renderGuard =
      conjuncts.flatMap (guardLines production table) := by
  induction conjuncts generalizing texts with
  | nil =>
      obtain rfl : texts = [] := by simpa [renderAll] using h.symm
      rfl
  | cons conjunct conjuncts ih =>
      rw [List.flatMap_cons]
      cases htrue : conjunct.isTrue with
      | true =>
          rw [Term.is_true_iff.mp htrue, guard_lines_true, List.nil_append]
          exact ih (by simpa [htrue] using h)
      | false =>
          simp only [htrue, List.filter_cons, Bool.not_false, if_true, List.map_cons, renderAll,
            bind_eq_ok_iff, pure_eq_ok_iff] at h
          obtain ⟨text, htext, rest, hrest, rfl⟩ := h
          rw [guard_lines_of_render htrue htext, ← ih hrest]
          cases hempty : text.isEmpty <;> simp [hempty]

end Lowering

/-- Exactly the vacuous conjuncts yield no line. A term has the empty text exactly when it is blank. Behind
the heading of a production that lowers stand the lines of its conjuncts, one conjunct after the other.
None is there for a conjunct that is the literal `true` or whose projection is blank, and one, with the
text of the projection, for every other conjunct. -/
theorem vacuous_conjuncts_yield_no_line :
    (∀ term : Term, term.render = .ok "" ↔ term.Blank) ∧
      ∀ (naming : Naming) (production : Production) (scope last : Scope) (definition : Definition),
        (production.lower naming).run scope = (.ok definition, last) →
        let conjuncts := conjunctsAll production.assertions
        let lines := Lowering.guardLines production.id last.table
        definition.guards.map Definition.renderGuard = conjuncts.flatMap lines ∧
          definition.render =
            definition.heading ++ String.join (conjuncts.flatMap lines) ++ "\n\n" ∧
          ∀ conjunct ∈ conjuncts,
            (lines conjunct = [] ↔
              conjunct = .bool true ∨ (last.table.apply conjunct).Blank) ∧
            (lines conjunct ≠ [] → ∃ text, (last.table.apply conjunct).render = .ok text ∧
              lines conjunct = ["\n    (" ++ text ++ ") is true"]) := by
  refine ⟨Term.render_eq_empty_iff, ?_⟩
  intro naming production scope last definition hrun conjuncts lines
  obtain ⟨texts, htexts, hguards⟩ := (Production.lowers_to_of_run hrun).guards
  have hlines : definition.guards.map Definition.renderGuard = conjuncts.flatMap lines := by
    rw [hguards]
    exact Lowering.map_render_guard_eq_flat_map htexts
  refine ⟨hlines, by rw [definition.render_eq_heading, hlines], fun conjunct hconjunct => ?_⟩
  cases htrue : conjunct.isTrue with
  | true =>
      obtain rfl := Term.is_true_iff.mp htrue
      exact ⟨⟨fun _ => .inl rfl, fun _ => rfl⟩, fun h => absurd rfl h⟩
  | false =>
      obtain ⟨text, -, htext⟩ : ∃ text ∈ texts, .ok text = (last.table.apply conjunct).render := by
        refine List.mem_map.mp (render_all_eq_ok_iff.mp htexts ▸ List.mem_map_of_mem ?_)
        exact List.mem_map_of_mem (List.mem_filter.mpr ⟨hconjunct, by simp [htrue]⟩)
      have hnot : conjunct ≠ .bool true := fun heq => by simp [heq, Term.isTrue] at htrue
      refine ⟨?_, fun hlines => ?_⟩
      · rw [or_iff_right hnot]
        exact Lowering.guard_lines_eq_nil_iff htrue htext.symm
      · exact ⟨text, htext.symm, Lowering.guard_lines_of_ne_nil htrue htext.symm hlines⟩

/-- A rule whose bounds are a naming equality and a zero byte. Of its conjuncts, a `true`, a naming
equality that is no bound, bytes with a blank last one after a zero that is no bound, and a constant
without a name are vacuous. -/
def vacuousConjuncts : Production :=
  let first := Term.select (.constant "B") (.ofUnsigned 0)
  let second := Term.select (.constant "B") (.ofUnsigned 1)
  let kind := Term.names first (.constant "kind")
  let size := Term.names second (.constant "size")
  { id := 6
    alternatives := [[.interval ⟨some (.symbolic kind), some (.symbolic (.ofUnsigned 0))⟩]]
    assertions := [.bool true,
      .all [kind, .all [], size, .concat [.ofUnsigned 0, size]],
      .concat [.ofSigned 0, size], .constant "", .bool false] }

/-- The definition of `vacuousConjuncts`. The naming equality and the zero that are bounds have become
variables, and so are seen in the guards. -/
def vacuousConjunctsDefinition : Definition where
  name := "L6"
  bindings := [⟨"ii1", ""⟩, ⟨"ii2", "0x0000000000000000"⟩]
  alternatives := []
  guards := ["ii1", "256 * ii2 + ", "false"]

/-- Three of seven conjuncts yield a line. -/
theorem lines_of_vacuous_conjuncts :
    let last := ((vacuousConjuncts.lower {}).run {}).2
    let conjuncts := conjunctsAll vacuousConjuncts.assertions
    let lines := Lowering.guardLines vacuousConjuncts.id last.table
    (vacuousConjuncts.lower {}).run {} = (.ok vacuousConjunctsDefinition, last) ∧
      conjuncts.map lines = [[], ["\n    (ii1) is true"], [], ["\n    (256 * ii2 + ) is true"], [],
        [], ["\n    (false) is true"]] ∧
      vacuousConjunctsDefinition.render = vacuousConjunctsDefinition.heading ++
        String.join (conjuncts.flatMap lines) ++ "\n\n" ∧
      ∀ conjunct ∈ conjuncts, lines conjunct = [] ↔
        conjunct = .bool true ∨ (last.table.apply conjunct).Blank := by
  intro last conjuncts lines
  have hrun : (vacuousConjuncts.lower {}).run {} = (.ok vacuousConjunctsDefinition, last) := by
    refine Prod.ext ?_ rfl
    decide +kernel
  obtain ⟨-, htext, hlines⟩ := vacuous_conjuncts_yield_no_line.2 _ _ _ _ _ hrun
  exact ⟨hrun, by decide +kernel, htext, fun conjunct hconjunct => (hlines conjunct hconjunct).1⟩

end ByteGrammar
