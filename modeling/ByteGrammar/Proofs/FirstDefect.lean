import ByteGrammar.Proofs.DocumentText

/-!
# The first defect

Lowering demands something of every edge, of every symbolic bound and of every guard. `requirements` lists
these demands for a document in the order in which they are looked at, without a supply of variables, a
table or a buffer. `document_reports_first_defect` says that lowering fails exactly when one of them is
not met, that it reports the first such one, and how many variables have been taken by then.

`Meets` says that a run fails at the first unmet demand of a list. It holds of each function of the run,
and runs in sequence meet the demands of both (`Meets.bind`).
-/

namespace ByteGrammar

/-- Something that lowering demands of a production. -/
inductive Requirement where
  /-- The interval at a place has an edge. -/
  | edge (production : UInt32) (alternative item : Nat) (side : Edge) (bound : Option Bound)
  /-- The bound of a symbolic edge has a text. A variable has been taken for it before. -/
  | bound (production : UInt32) (term : Term)
  /-- A projected conjunct has a text. -/
  | guard (production : UInt32) (term : Term)
  deriving DecidableEq, Inhabited

namespace Requirement

/-- The report of a requirement that is not met. -/
def defect? : Requirement → Option LoweringError
  | edge production alternative item side none =>
      some (.missingBound production alternative item side)
  | edge _ _ _ _ (some _) => none
  | bound production term | guard production term =>
      match term.render with
      | .ok _ => none
      | .error cause => some (.render production cause)

/-- Whether a requirement is that of a symbolic edge, for which a variable is taken. -/
def isBound : Requirement → Bool
  | bound _ _ => true
  | edge _ _ _ _ _ | guard _ _ => false

end Requirement

/-- What is demanded of the interval at a place: both edges, then a text for each symbolic one. -/
def Interval.requirements (production : UInt32) (alternative item : Nat) (interval : Interval) :
    List Requirement :=
  .edge production alternative item .first interval.first ::
  .edge production alternative item .last interval.last ::
  interval.symbolicBounds.map (.bound production)

/-- What is demanded of the element at a place. -/
def RhsItem.requirements (production : UInt32) (alternative item : Nat) :
    RhsItem → List Requirement
  | .production _ => []
  | .interval range => range.requirements production alternative item

namespace Production

/-- What is demanded of the intervals of a production: by alternative, by item. -/
def edgeRequirements (production : Production) : List Requirement :=
  production.alternatives.zipIdx.flatMap fun (items, alternative) =>
    items.zipIdx.flatMap fun (rhs, item) => rhs.requirements production.id alternative item

/-- What is demanded of a production with `before` symbolic edges ahead of it: first its intervals, then
its conjuncts in terms of the variables of its bounds. -/
def requirements (naming : Naming) (before : Nat) (production : Production) : List Requirement :=
  production.edgeRequirements ++ production.conjuncts.map fun conjunct =>
    .guard production.id
      (conjunct.replace (Outline.variableOf naming before production.symbolicBounds))

end Production

/-- What is demanded of the productions of a document, in order. -/
def requirements (naming : Naming) (productions : List Production) : List Requirement :=
  productions.zipIdx.flatMap fun (production, place) =>
    production.requirements naming (edgeCount (productions.take place))

/-- The report of the first requirement that is not met. -/
def firstDefect (requirements : List Requirement) : Option LoweringError :=
  requirements.findSome? Requirement.defect?

/-- The number of symbolic edges that are reached: those up to the first requirement that is not met,
this one included. -/
def edgesReached : List Requirement → Nat
  | [] => 0
  | requirement :: requirements =>
      (if requirement.isBound then 1 else 0) +
        if requirement.defect?.isSome then 0 else edgesReached requirements

/-- With one more list of requirements behind, a defect of the first list stays the first. -/
theorem first_defect_append (first second : List Requirement) :
    firstDefect (first ++ second) = (firstDefect first).or (firstDefect second) :=
  List.findSome?_append ..

/-- The second list is reached only when the first one has no defect. -/
theorem edges_reached_append (first second : List Requirement) :
    edgesReached (first ++ second) =
      edgesReached first + if (firstDefect first).isSome then 0 else edgesReached second := by
  induction first with
  | nil => simp [edgesReached, firstDefect]
  | cons requirement requirements ih =>
      have hfirst : firstDefect (requirement :: requirements) =
          requirement.defect?.or (firstDefect requirements) := by
        cases h : requirement.defect? <;> simp [firstDefect, h]
      rw [List.cons_append, edgesReached, edgesReached, ih, hfirst]
      cases requirement.defect? with
      | none => cases firstDefect requirements <;> simp [Nat.add_assoc]
      | some error => simp

/-- Requirements that are all met reach every edge. -/
theorem edges_reached_of_met {requirements : List Requirement}
    (h : ∀ requirement ∈ requirements, requirement.defect? = none) :
    edgesReached requirements = requirements.countP Requirement.isBound := by
  induction requirements with
  | nil => rfl
  | cons requirement requirements ih =>
      have hmet := h requirement (List.mem_cons_self ..)
      rw [edgesReached, hmet, ih fun later hlater => h later (List.mem_cons_of_mem _ hlater),
        List.countP_cons]
      simp [Nat.add_comm]

/-- Up to a first defect, the edges reached are those before it and its own. -/
theorem edges_reached_of_unmet {met rest : List Requirement} {unmet : Requirement}
    (h : ∀ requirement ∈ met, requirement.defect? = none) (hunmet : unmet.defect?.isSome) :
    edgesReached (met ++ unmet :: rest) = (met ++ [unmet]).countP Requirement.isBound := by
  have hnone : firstDefect met = none := List.findSome?_eq_none_iff.mpr h
  rw [edges_reached_append, hnone, edges_reached_of_met h, List.countP_append, edgesReached, hunmet]
  simp

/-- Never more edges are reached than there are. -/
theorem edges_reached_le (requirements : List Requirement) :
    edgesReached requirements ≤ requirements.countP Requirement.isBound := by
  induction requirements with
  | nil => exact Nat.le_refl 0
  | cons requirement requirements ih =>
      rw [edgesReached, List.countP_cons]
      split <;> split <;> omega

/-- As long as the count does not wrap, it goes up by the variables taken. -/
theorem IndexVars.allocated_skip (vars : IndexVars) {count : Nat}
    (h : vars.allocated.toNat + count < 2 ^ 64) :
    (vars.skip count).allocated.toNat = vars.allocated.toNat + count := by
  have hcount : (UInt64.ofNat count).toNat = count := by
    rw [UInt64.toNat_ofNat']
    exact Nat.mod_eq_of_lt (by omega)
  have hskip : (vars.skip count).allocated = vars.allocated + UInt64.ofNat count := by
    rw [allocated, allocated, skip_next, UInt64.sub_eq_add_neg, UInt64.sub_eq_add_neg,
      UInt64.add_assoc, UInt64.add_comm (UInt64.ofNat count), UInt64.add_assoc]
  rw [hskip, UInt64.toNat_add, hcount]
  exact Nat.mod_eq_of_lt h

namespace Lowering

variable {α β : Type} {production : UInt32} {scope : Scope}

/-- A run that starts from a supply of variables fails with the first defect of a list of requirements,
or succeeds when there is none, and takes a variable for every edge that is reached. -/
structure Meets (start : IndexVars) (requirements : List Requirement)
    (outcome : Except LoweringError α × Scope) : Prop where
  failure : ∀ error, outcome.1 = .error error ↔ firstDefect requirements = some error
  vars : outcome.2.vars = start.skip (edgesReached requirements)

/-- A run that succeeds and takes no variable meets the empty list of requirements. -/
theorem Meets.nil {start : IndexVars} {value : α} {last : Scope} (h : last.vars = start) :
    Meets start [] ((.ok value, last) : Except LoweringError α × Scope) where
  failure error := by simp [firstDefect]
  vars := h

/-- A failed run meets requirements of which the first defect is its failure. -/
theorem Meets.error {start : IndexVars} {requirements : List Requirement} {error : LoweringError}
    {last : Scope} (hdefect : firstDefect requirements = some error)
    (hvars : last.vars = start.skip (edgesReached requirements)) :
    Meets start requirements ((.error error, last) : Except LoweringError α × Scope) where
  failure other := by
    rw [hdefect]
    simp
  vars := hvars

/-- An edge that is there makes no difference. -/
theorem Meets.cons_edge {start : IndexVars} {requirements : List Requirement} {alternative item : Nat}
    {side : Edge} {bound : Bound} {outcome : Except LoweringError α × Scope}
    (h : Meets start requirements outcome) :
    Meets start (.edge production alternative item side (some bound) :: requirements) outcome where
  failure := h.failure
  vars := by
    rw [h.vars, edgesReached]
    simp [Requirement.isBound, Requirement.defect?]

/-- A successful run has met all its requirements. -/
theorem Meets.first_defect_eq_none {start : IndexVars} {requirements : List Requirement}
    {value : α} {last : Scope}
    (h : Meets start requirements ((.ok value, last) : Except LoweringError α × Scope)) :
    firstDefect requirements = none := by
  cases hdefect : firstDefect requirements with
  | none => rfl
  | some error => exact absurd ((h.failure error).mpr hdefect) (by simp)

/-- Runs in sequence meet the requirements of the first and then those of the second. -/
theorem Meets.bind {first second : List Requirement} {x : Lowering α} {f : α → Lowering β}
    (hx : Meets scope.vars first (x.run scope))
    (hf : ∀ value next, x.run scope = (.ok value, next) → Meets next.vars second ((f value).run next)) :
    Meets scope.vars (first ++ second) ((x >>= f).run scope) := by
  rw [run_bind]
  rcases hrun : x.run scope with ⟨result, next⟩
  rw [hrun] at hx
  cases result with
  | error error =>
      have hdefect : firstDefect first = some error := (hx.failure error).mp rfl
      refine ⟨fun other => ?_, ?_⟩
      · rw [first_defect_append, hdefect]
        simp
      · rw [edges_reached_append, hdefect]
        exact hx.vars
  | ok value =>
      have hnone := hx.first_defect_eq_none
      have hsecond := hf value next hrun
      refine ⟨fun other => ?_, ?_⟩
      · rw [first_defect_append, hnone]
        exact hsecond.failure other
      · rw [edges_reached_append, hnone, IndexVars.skip_add, ← hx.vars]
        exact hsecond.vars

/-- Binding a bound demands a text of it. -/
theorem bind_meets (production : UInt32) (bound : Term) (scope : Scope) :
    Meets scope.vars [.bound production bound] ((bind production bound).run scope) := by
  rw [bind, run_bind, run_fresh]
  simp only [run_bind, run_write, Term.constant, Term.render, List.isEmpty_nil, Bool.and_self, if_true]
  cases hrender : bound.render with
  | ok text =>
      exact ⟨fun error => by simp [firstDefect, Requirement.defect?, hrender, run_modify],
        by simp [edgesReached, Requirement.isBound, Requirement.defect?, hrender, run_modify,
          IndexVars.skip]⟩
  | error cause =>
      exact ⟨fun error => by simp [firstDefect, Requirement.defect?, hrender],
        by simp [edgesReached, Requirement.isBound, Requirement.defect?, hrender,
          IndexVars.skip]⟩

/-- Binding an edge demands a text of the term of a symbolic one. -/
theorem bind_edge_meets (production : UInt32) (bound : Bound) (scope : Scope) :
    Meets scope.vars (bound.terms.map (.bound production)) ((bindEdge production bound).run scope) := by
  cases bound with
  | constant value => exact Meets.nil rfl
  | symbolic term => exact bind_meets production term scope

/-- Binding the edges of an interval demands both, and then a text for each symbolic one. -/
theorem bind_interval_meets (production : UInt32) (alternative item : Nat) (interval : Interval)
    (scope : Scope) :
    Meets scope.vars (interval.requirements production alternative item)
      ((bindInterval production alternative item interval).run scope) := by
  obtain ⟨first, last⟩ := interval
  cases first with
  | none => exact Meets.error rfl rfl
  | some first =>
      cases last with
      | none => exact Meets.error rfl rfl
      | some last =>
          have hbounds : (Interval.symbolicBounds ⟨some first, some last⟩).map
              (Requirement.bound production) =
                first.terms.map (.bound production) ++ last.terms.map (.bound production) := by
            simp [Interval.symbolicBounds]
          rw [Interval.requirements, hbounds]
          have hfirst := bind_edge_meets production first scope
          exact (hfirst.bind fun _ next _ => bind_edge_meets production last next).cons_edge.cons_edge

/-- Going through the items of an alternative demands what each of them does. -/
theorem conjoin_meets (production : UInt32) (alternative : Nat) (conjunction : List UInt32)
    (items : List (RhsItem × Nat)) (scope : Scope) :
    Meets scope.vars
      (items.flatMap fun (rhs, item) => rhs.requirements production alternative item)
      ((conjoin production alternative conjunction items).run scope) := by
  induction items generalizing conjunction scope with
  | nil => exact Meets.nil rfl
  | cons pair items ih =>
      obtain ⟨rhs, item⟩ := pair
      cases rhs with
      | production id => exact ih (conjunction ++ [id]) scope
      | interval range =>
          exact (bind_interval_meets production alternative item range scope).bind
            fun _ next _ => ih conjunction next

/-- Going through the alternatives of a production demands what each of their items does. -/
theorem alternate_meets (production : UInt32) (conjunctions : List (List UInt32))
    (alternatives : List (List RhsItem × Nat)) (scope : Scope) :
    Meets scope.vars
      (alternatives.flatMap fun (items, alternative) => items.zipIdx.flatMap fun (rhs, item) =>
        rhs.requirements production alternative item)
      ((alternate production conjunctions alternatives).run scope) := by
  induction alternatives generalizing conjunctions scope with
  | nil => exact Meets.nil rfl
  | cons pair alternatives ih =>
      obtain ⟨items, alternative⟩ := pair
      exact (conjoin_meets production alternative [] items.zipIdx scope).bind
        fun conjunction next _ => ih _ next

/-- Writing a conjunct demands a text of it. -/
theorem write_meets (production : UInt32) (term : Term) (scope : Scope) :
    Meets scope.vars [.guard production term] ((write production term).run scope) := by
  rw [run_write]
  cases hrender : term.render with
  | ok text =>
      have hmet : (Requirement.guard production term).defect? = none := by
        simp [Requirement.defect?, hrender]
      exact ⟨fun error => by simp [firstDefect, hmet], by simp [edgesReached, hmet,
        Requirement.isBound, IndexVars.skip]⟩
  | error cause =>
      have hunmet : (Requirement.guard production term).defect? =
          some (.render production cause) := by simp [Requirement.defect?, hrender]
      exact Meets.error (by simp [firstDefect, hunmet]) (by simp [edgesReached, hunmet,
        Requirement.isBound, IndexVars.skip])

/-- Writing the guards demands a text of every conjunct in terms of the table. -/
theorem guards_meets (production : UInt32) (conjuncts : List Term) (scope : Scope) :
    Meets scope.vars
      ((conjuncts.filter fun conjunct => !conjunct.isTrue).map fun conjunct =>
        .guard production (scope.table.apply conjunct))
      ((Lowering.guards production conjuncts).run scope) := by
  induction conjuncts generalizing scope with
  | nil => exact Meets.nil rfl
  | cons conjunct conjuncts ih =>
      rw [Lowering.guards]
      cases htrue : conjunct.isTrue with
      | true => simpa [htrue] using ih scope
      | false =>
          simp only [Bool.false_eq_true, if_false, htrue, Bool.not_false, List.filter_cons_of_pos,
            List.map_cons]
          show Meets scope.vars ([_] ++ _)
            ((write production (scope.table.apply conjunct) >>= fun text => _).run scope)
          refine (write_meets production (scope.table.apply conjunct) scope).bind
            fun text next htext => ?_
          -- Writing leaves the table alone, so the other conjuncts are projected by the same one.
          obtain ⟨-, hnext⟩ := write_ok htext
          have htable : next.table = scope.table := by rw [hnext]
          have hrest := ih next
          rw [htable] at hrest
          rw [← List.append_nil (List.map _ _)]
          exact hrest.bind fun texts last _ => Meets.nil rfl

end Lowering

variable {naming : Naming}

/-- Lowering a production demands what its intervals do, and then a text of every conjunct in terms of
the next variables. -/
theorem Production.lower_meets_recorded (production : Production) (scope : Scope) :
    Lowering.Meets scope.vars
      (production.edgeRequirements ++ production.conjuncts.map fun conjunct =>
        .guard production.id ((Substitution.ofList (production.symbolicBounds.zip
          (scope.vars.constants production.symbolicBounds.length))).apply conjunct))
      ((production.lower naming).run scope) := by
  rw [Production.lower, Lowering.run_bind, Lowering.run_modify]
  refine (Lowering.alternate_meets production.id [] production.alternatives.zipIdx
    { scope with table := .empty, bindings := [] }).bind fun conjunctions bound hbound => ?_
  -- The guards come only after every bound has been recorded, so the table is complete.
  have htable : bound.table = .ofList (production.symbolicBounds.zip
      (scope.vars.constants production.symbolicBounds.length)) :=
    (Production.alternate_ok hbound).2.table
  have hguards := Lowering.guards_meets production.id (conjunctsAll production.assertions) bound
  rw [htable] at hguards
  rw [← List.append_nil (List.map _ _)]
  exact hguards.bind fun guards last _ => Lowering.Meets.nil rfl

/-- Lowering a production demands what its requirements say. -/
theorem Production.lower_meets {production : Production} {before : Nat} {scope : Scope}
    (hnames : scope.vars.names production.symbolicBounds.length =
      Outline.variableNames naming before production.symbolicBounds.length) :
    Lowering.Meets scope.vars (production.requirements naming before)
      ((production.lower naming).run scope) := by
  have hmeets := @Production.lower_meets_recorded naming production scope
  have happly : (Substitution.ofList (production.symbolicBounds.zip
      (scope.vars.constants production.symbolicBounds.length))).apply =
        Term.replace (Outline.variableOf naming before production.symbolicBounds) := by
    funext term
    rw [Substitution.apply_eq_replace, Outline.get_of_bounds hnames]
  rw [happly] at hmeets
  exact hmeets

/-- Lowering a list of productions demands what each of them does, in order. The list stands behind
`earlier` productions, whose edges have taken the numbers before. -/
theorem lower_all_meets (earlier productions : List Production) {scope : Scope}
    (hstem : scope.vars.stem = naming.indexStem)
    (hnext : scope.vars.next = UInt64.ofNat (edgeCount earlier + 1))
    (hcount : edgeCount (earlier ++ productions) < 2 ^ 64) :
    Lowering.Meets scope.vars
      ((productions.zipIdx earlier.length).flatMap fun (production, place) =>
        production.requirements naming (edgeCount ((earlier ++ productions).take place)))
      ((lowerAll naming productions).run scope) := by
  induction productions generalizing earlier scope with
  | nil => exact Lowering.Meets.nil rfl
  | cons production productions ih =>
      have hsum : edgeCount (earlier ++ production :: productions) =
          edgeCount earlier + production.symbolicBounds.length + edgeCount productions := by
        simp [edgeCount, Nat.add_assoc]
      have hnames := IndexVars.names_eq_variable_names production.symbolicBounds.length hstem hnext
        (by omega)
      simp only [List.zipIdx_cons, List.flatMap_cons, List.take_left, lowerAll]
      refine (Production.lower_meets hnames).bind fun definition next hfirst => ?_
      have hlowers := Production.lowers_to_of_run hfirst
      have hlater := @ih (earlier ++ [production]) next
        (by rw [hlowers.vars, IndexVars.skip_stem, hstem])
        (by
          rw [hlowers.vars, IndexVars.skip_next, hnext, ← UInt64.ofNat_add]
          simp [edgeCount, Nat.add_right_comm])
        (by simpa using hcount)
      rw [List.length_append, List.append_assoc] at hlater
      rw [← List.append_nil (List.flatMap _ _)]
      exact hlater.bind fun definitions last _ => Lowering.Meets.nil rfl

/-- Lowering a document demands what its requirements say. -/
theorem lower_document_meets (productions : List Production)
    (hcount : edgeCount productions < 2 ^ 64) :
    Lowering.Meets { stem := naming.indexStem } (requirements naming productions)
      ((lowerDocument naming productions).run { vars := { stem := naming.indexStem } }) := by
  rw [lowerDocument, ← List.append_nil (requirements naming productions)]
  have hall := @lower_all_meets naming [] productions { vars := { stem := naming.indexStem } } rfl rfl
    hcount
  exact hall.bind fun definitions last _ => Lowering.Meets.nil rfl

/-- Counting in pieces that carry their places does not depend on the places. -/
theorem count_flat_map_zip_idx {α β : Type} {p : β → Bool} {f : α → Nat → List β} {size : α → Nat}
    (hpiece : ∀ a i, (f a i).countP p = size a) (items : List α) (start : Nat) :
    ((items.zipIdx start).flatMap fun (a, i) => f a i).countP p = (items.map size).sum := by
  induction items generalizing start with
  | nil => rfl
  | cons item items ih =>
      simp only [List.zipIdx_cons, List.flatMap_cons, List.countP_append, hpiece, ih, List.map_cons,
        List.sum_cons]

/-- The requirements of an interval ask for the text of each symbolic edge. -/
theorem RhsItem.count_bounds (production : UInt32) (alternative : Nat) (rhs : RhsItem) (item : Nat) :
    (rhs.requirements production alternative item).countP Requirement.isBound =
      rhs.symbolicBounds.length := by
  cases rhs with
  | production id => rfl
  | interval range =>
      simp [RhsItem.requirements, Interval.requirements, RhsItem.symbolicBounds,
        List.countP_map, Requirement.isBound, Function.comp_def]

/-- The requirements of the intervals of a production ask for the text of each symbolic edge. -/
theorem Production.count_edge_bounds (production : Production) :
    production.edgeRequirements.countP Requirement.isBound = production.symbolicBounds.length := by
  have hitems : ∀ (items : List RhsItem) (alternative : Nat),
      (items.zipIdx.flatMap fun (rhs, item) =>
        rhs.requirements production.id alternative item).countP Requirement.isBound =
          (items.flatMap RhsItem.symbolicBounds).length := by
    intro items alternative
    rw [List.length_flatMap]
    exact count_flat_map_zip_idx (RhsItem.count_bounds production.id alternative) items 0
  rw [Production.symbolicBounds, List.length_flatMap]
  exact count_flat_map_zip_idx hitems production.alternatives 0

/-- No guard asks for the text of a symbolic edge. -/
theorem count_guard_bounds (production : UInt32) (projection : Term → Term) (conjuncts : List Term) :
    (conjuncts.map fun conjunct => Requirement.guard production (projection conjunct)).countP
      Requirement.isBound = 0 := by
  simp [List.countP_map, Requirement.isBound, Function.comp_def]

/-- The requirements of a production ask for the text of each symbolic edge. -/
theorem Production.count_bounds (production : Production) (before : Nat) :
    (production.requirements naming before).countP Requirement.isBound =
      production.symbolicBounds.length := by
  rw [Production.requirements, List.countP_append, count_guard_bounds, Nat.add_zero,
    production.count_edge_bounds]

/-- The requirements of a document ask for the text of each symbolic edge. -/
theorem count_bounds (productions : List Production) :
    (requirements naming productions).countP Requirement.isBound = edgeCount productions :=
  count_flat_map_zip_idx (f := fun production place =>
    production.requirements naming (edgeCount (productions.take place)))
    (fun production _ => production.count_bounds _) productions 0

/-- Lowering a document reports exactly the first defect. It fails exactly when some requirement is not
met. The failure is then that of the first such requirement, and a variable has been taken for every
symbolic edge up to it, its own edge included. -/
theorem document_reports_first_defect (naming : Naming) (productions : List Production)
    (hcount : edgeCount productions < 2 ^ 64) :
    let run := (lowerDocument naming productions).run { vars := { stem := naming.indexStem } }
    (renderDocument naming productions).1 = run.1 ∧
      ((∃ error, run.1 = .error error) ↔
        ∃ requirement ∈ requirements naming productions, requirement.defect? ≠ none) ∧
      ∀ met unmet rest error, requirements naming productions = met ++ unmet :: rest →
        (∀ requirement ∈ met, requirement.defect? = none) → unmet.defect? = some error →
        run.1 = .error error ∧
          run.2.vars.allocated.toNat = (met ++ [unmet]).countP Requirement.isBound := by
  intro run
  have hmeets : Lowering.Meets { stem := naming.indexStem } (requirements naming productions) run :=
    lower_document_meets productions hcount
  refine ⟨rfl, ?_, ?_⟩
  · simp only [hmeets.failure]
    constructor
    · rintro ⟨error, herror⟩
      obtain ⟨requirement, hmem, hdefect⟩ := List.exists_of_findSome?_eq_some herror
      exact ⟨requirement, hmem, by rw [hdefect]; exact Option.some_ne_none error⟩
    · rintro ⟨requirement, hmem, hdefect⟩
      refine Option.ne_none_iff_exists'.mp fun hnone => hdefect ?_
      exact List.findSome?_eq_none_iff.mp hnone requirement hmem
  · intro met unmet rest error hrequirements hmet hunmet
    refine ⟨(hmeets.failure error).mpr ?_, ?_⟩
    · have hnone : firstDefect met = none := List.findSome?_eq_none_iff.mpr hmet
      rw [hrequirements, first_defect_append, hnone]
      simp [firstDefect, hunmet]
    · have hreached := @edges_reached_of_unmet met rest unmet hmet (by rw [hunmet]; rfl)
      have hle := edges_reached_le (requirements naming productions)
      rw [count_bounds, hrequirements, hreached] at hle
      have hstart : (IndexVars.mk naming.indexStem 1).allocated.toNat = 0 := by
        show ((1 : UInt64) - 1).toNat = 0
        decide
      rw [hmeets.vars, hrequirements, hreached, IndexVars.allocated_skip _ (by omega), hstart,
        Nat.zero_add]

/-- A bound without a text. -/
def malformedBound : Term :=
  .neg (.extract [] [])

/-- Two rules. The second one has a bound without a text, an interval without edges in a later
alternative, and an assertion without a text. -/
def brokenEdges : List Production := [
  { id := 0
    alternatives := [[.production 7, .interval ⟨some (.symbolic (.constant "n")), some (.constant 9)⟩]]
    assertions := [.all [.bool true, .ge (.constant "n") (.ofUnsigned 1)]] },
  { id := 7
    alternatives := [
      [.production 1, .interval ⟨some (.symbolic (.constant "n")), some (.symbolic malformedBound)⟩],
      [.interval ⟨none, none⟩]]
    assertions := [.extract [] []] }]

/-- What `brokenEdges` meets before its first defect. -/
def metByBrokenEdges : List Requirement := [
  .edge 0 0 1 .first (some (.symbolic (.constant "n"))),
  .edge 0 0 1 .last (some (.constant 9)),
  .bound 0 (.constant "n"),
  .guard 0 (.ge (.constant "ii1") (.ofUnsigned 1)),
  .edge 7 0 1 .first (some (.symbolic (.constant "n"))),
  .edge 7 0 1 .last (some (.symbolic malformedBound)),
  .bound 7 (.constant "n")]

/-- What is not looked at any more in `brokenEdges`. -/
def unseenOfBrokenEdges : List Requirement := [
  .edge 7 1 0 .first none,
  .edge 7 1 0 .last none,
  .guard 7 (.extract [] [])]

/-- The first defect of `brokenEdges` is the bound without a text, and its variable is the third one. -/
theorem first_defect_of_broken_edges :
    let run := (lowerDocument {} brokenEdges).run { vars := { stem := "ii" } }
    edgeCount brokenEdges < 2 ^ 64 ∧
      requirements {} brokenEdges =
        metByBrokenEdges ++ .bound 7 malformedBound :: unseenOfBrokenEdges ∧
      (∀ requirement ∈ metByBrokenEdges, requirement.defect? = none) ∧
      (renderDocument {} brokenEdges).1 = .error (.render 7 .malformedExtract) ∧
      run.2.vars.allocated.toNat = 3 := by
  intro run
  have hcount : edgeCount brokenEdges < 2 ^ 64 := by decide
  have hrequirements : requirements {} brokenEdges =
      metByBrokenEdges ++ .bound 7 malformedBound :: unseenOfBrokenEdges := by decide +kernel
  have hmet : ∀ requirement ∈ metByBrokenEdges, requirement.defect? = none := by decide +kernel
  obtain ⟨hrender, -, hfirst⟩ := document_reports_first_defect {} brokenEdges hcount
  obtain ⟨herror, hallocated⟩ := hfirst _ _ _ _ hrequirements hmet rfl
  exact ⟨hcount, hrequirements, hmet, hrender.trans herror, hallocated⟩

end ByteGrammar
