import ByteGrammar.Proofs.FirstDefect
import ByteGrammar.Proofs.GuardMeaning

/-!
# Fresh variables

Calls of lowering that share one supply of variables, in any order and past any failure, bind no name
twice. `lowerCalls` keeps what each call came to, and `variables_bound_once_and_in_scope` says so:
the numbers that the calls take from the supply count up without a gap, a call that succeeds binds exactly
its own numbers, and what it puts into its guards it has bound before.

A variable is fresh among the variables only. `captures_iff_shows_numbered` says which names a document
binds, and so which symbols of the grammar its lines capture.
-/

namespace ByteGrammar

namespace IndexVars

/-- The name of the variable with a number. -/
def nameOf (stem : String) (number : Nat) : String :=
  stem ++ toString number

/-- Different numbers give different names, whatever the stem. -/
theorem name_of_injective (stem : String) : Function.Injective (nameOf stem) := by
  intro first second h
  exact Nat.repr_injective ((String.append_right_inj stem).mp h)

/-- The next names carry the numbers after those that have been given away. -/
theorem names_eq_map_name_of (vars : IndexVars) {count : Nat}
    (h : vars.allocated.toNat + count < 2 ^ 64) :
    vars.names count = (List.range' (vars.allocated.toNat + 1) count).map (nameOf vars.stem) := by
  have hnext : vars.next = UInt64.ofNat (vars.allocated.toNat + 1) := by
    rw [UInt64.ofNat_add, UInt64.ofNat_toNat, allocated]
    exact (UInt64.sub_add_cancel vars.next 1).symm
  rw [vars.names_eq_map_range (vars.allocated.toNat + 1) count hnext (by omega),
    List.range'_eq_map_range, List.map_map]
  rfl

end IndexVars

namespace Production

/-- The number of variables that lowering a production takes from the supply. -/
def taken (production : Production) : Nat :=
  edgesReached production.edgeRequirements

variable {naming : Naming} {production : Production} {scope last : Scope}

/-- Lowering takes a variable for every symbolic edge that it reaches, also when it fails. -/
theorem lower_takes (naming : Naming) (production : Production) (scope : Scope) :
    ((production.lower naming).run scope).2.vars = scope.vars.skip production.taken := by
  have hmeets := @lower_meets_recorded naming production scope
  rw [hmeets.vars, edges_reached_append]
  have hguards : ∀ projection : Term → Term,
      edgesReached (production.conjuncts.map fun conjunct =>
        .guard production.id (projection conjunct)) = 0 := by
    intro projection
    have hle := edges_reached_le (production.conjuncts.map fun conjunct =>
      Requirement.guard production.id (projection conjunct))
    rw [count_guard_bounds] at hle
    exact Nat.le_zero.mp hle
  rw [hguards, ite_self, Nat.add_zero]
  rfl

/-- A production that lowers has all its symbolic edges reached. -/
theorem taken_of_run {definition : Definition}
    (h : (production.lower naming).run scope = (.ok definition, last)) :
    production.taken = production.symbolicBounds.length := by
  have hmeets := @lower_meets_recorded naming production scope
  rw [h] at hmeets
  have hnone := hmeets.first_defect_eq_none
  rw [first_defect_append, Option.or_eq_none_iff] at hnone
  rw [taken, edges_reached_of_met (List.findSome?_eq_none_iff.mp hnone.1), count_edge_bounds]

end Production

/-- A call of lowering. -/
structure Call where
  naming : Naming
  production : Production

/-- What a call came to: the supply before it, its result, and the state after it. -/
structure Outcome where
  call : Call
  start : IndexVars
  result : Except LoweringError Definition
  last : Scope

namespace Outcome

/-- The numbers that a call has taken from the supply. -/
def numbers (outcome : Outcome) : List Nat :=
  List.range' (outcome.start.allocated.toNat + 1)
    (outcome.last.vars.allocated.toNat - outcome.start.allocated.toNat)

/-- The names that a call has bound. A call that fails has bound none. -/
def boundNames (outcome : Outcome) : List String :=
  match outcome.result with
  | .ok definition => definition.bindings.map Binding.name
  | .error _ => []

end Outcome

/-- Calls of lowering one after the other, with one supply of variables and past any failure. -/
def lowerCalls : List Call → Scope → List Outcome
  | [], _ => []
  | call :: calls, scope =>
      let (result, last) := (call.production.lower call.naming).run scope
      ⟨call, scope.vars, result, last⟩ :: lowerCalls calls last

/-- Lowering each production of a list is a sequence of calls with one naming. -/
theorem lower_each_eq_lower_calls (naming : Naming) (productions : List Production) (scope : Scope) :
    (lowerEach naming productions scope).1 =
      (lowerCalls (productions.map (Call.mk naming)) scope).map fun outcome =>
        (outcome.result, outcome.last.vars.allocated) := by
  induction productions generalizing scope with
  | nil => rfl
  | cons production productions ih => exact congrArg (List.cons _) (ih _)

/-- The number of variables that a list of calls takes from the supply. -/
def takenByCalls (calls : List Call) : Nat :=
  (calls.map fun call => call.production.taken).sum

/-- Every outcome is that of a run that starts before the count wraps. -/
theorem run_of_mem_lower_calls {calls : List Call} {scope : Scope} {outcome : Outcome}
    (hcount : scope.vars.allocated.toNat + takenByCalls calls < 2 ^ 64)
    (h : outcome ∈ lowerCalls calls scope) :
    ∃ start : Scope, start.vars = outcome.start ∧ outcome.start.stem = scope.vars.stem ∧
      outcome.start.allocated.toNat + outcome.call.production.taken < 2 ^ 64 ∧
      (outcome.call.production.lower outcome.call.naming).run start =
        (outcome.result, outcome.last) := by
  induction calls generalizing scope with
  | nil => cases h
  | cons call calls ih =>
      have hsum : takenByCalls (call :: calls) = call.production.taken + takenByCalls calls := rfl
      have htakes := call.production.lower_takes call.naming scope
      rcases hrun : (call.production.lower call.naming).run scope with ⟨result, last⟩
      rw [hrun] at htakes
      simp only [lowerCalls, hrun, List.mem_cons] at h
      rcases h with rfl | h
      · have hbound : scope.vars.allocated.toNat + call.production.taken < 2 ^ 64 := by omega
        exact ⟨scope, rfl, rfl, hbound, hrun⟩
      · have hlast : last.vars.allocated.toNat =
            scope.vars.allocated.toNat + call.production.taken := by
          rw [htakes, IndexVars.allocated_skip _ (by omega)]
        obtain ⟨start, hstart, hstem, hbound, hthis⟩ := ih (by omega) h
        refine ⟨start, hstart, ?_, hbound, hthis⟩
        rw [hstem, htakes, IndexVars.skip_stem]

/-- The numbers that calls take from the supply count up without a gap. -/
theorem flat_map_numbers_lower_calls {calls : List Call} {scope : Scope}
    (hcount : scope.vars.allocated.toNat + takenByCalls calls < 2 ^ 64) :
    (lowerCalls calls scope).flatMap Outcome.numbers =
      List.range' (scope.vars.allocated.toNat + 1) (takenByCalls calls) := by
  induction calls generalizing scope with
  | nil => rfl
  | cons call calls ih =>
      have hsum : takenByCalls (call :: calls) = call.production.taken + takenByCalls calls := rfl
      have htakes := call.production.lower_takes call.naming scope
      rcases hrun : (call.production.lower call.naming).run scope with ⟨result, last⟩
      rw [hrun] at htakes
      have hlast : last.vars.allocated.toNat =
          scope.vars.allocated.toNat + call.production.taken := by
        rw [htakes, IndexVars.allocated_skip _ (by omega)]
      have hlater := @ih last (by omega)
      simp only [lowerCalls, hrun, List.flatMap_cons]
      rw [hlater, hsum, Outcome.numbers, hlast, Nat.add_sub_cancel_left, ← List.range'_append,
        Nat.one_mul, Nat.add_right_comm]

/-- A call that succeeds binds exactly the numbers that it takes. -/
theorem bound_names_eq_map_numbers {calls : List Call} {scope : Scope} {outcome : Outcome}
    {definition : Definition}
    (hcount : scope.vars.allocated.toNat + takenByCalls calls < 2 ^ 64)
    (h : outcome ∈ lowerCalls calls scope) (hresult : outcome.result = .ok definition) :
    definition.bindings.map Binding.name =
      outcome.numbers.map (IndexVars.nameOf scope.vars.stem) := by
  obtain ⟨start, hstart, hstem, hbound, hrun⟩ := run_of_mem_lower_calls hcount h
  rw [hresult] at hrun
  have hlowers := Production.lowers_to_of_run hrun
  have htaken := Production.taken_of_run hrun
  rw [htaken] at hbound
  have hlast : outcome.last.vars.allocated.toNat =
      outcome.start.allocated.toNat + outcome.call.production.symbolicBounds.length := by
    rw [hlowers.vars, hstart, IndexVars.allocated_skip _ hbound]
  rw [hlowers.names, hstart, IndexVars.names_eq_map_name_of _ hbound, hstem, Outcome.numbers, hlast,
    Nat.add_sub_cancel_left]

/-- `table.Puts term old new` says that applying a table to a term puts `new` in the place of `old`
somewhere in it. -/
inductive Substitution.Puts (table : Substitution) : Term → Term → Term → Prop where
  | here (old new) : table.get? old = some new → Puts table old old new
  | inside (term child old new) :
      table.get? term = none → child ∈ term.children → Puts table child old new →
      Puts table term old new

/-- What is put somewhere is recorded for what it replaces. -/
theorem Substitution.Puts.get_eq_some {table : Substitution} {term old new : Term}
    (h : table.Puts term old new) : table.get? old = some new := by
  induction h with
  | here old new hget => exact hget
  | inside term child old new hterm hchild hputs ih => exact ih

namespace Definition

/-- A definition binds a variable to a term when one of its lines does, before the line of
alternatives. -/
def Binds (definition : Definition) (var bound : Term) : Prop :=
  ∃ binding ∈ definition.bindings, var = .constant binding.name ∧ bound.render = .ok binding.text ∧
    ∃ before between after, definition.render =
      before ++ binding.render ++ between ++ definition.alternationLine ++ after

/-- The line of every binding comes before the line of alternatives. -/
theorem exists_render_eq {definition : Definition} {binding : Binding}
    (h : binding ∈ definition.bindings) :
    ∃ before between after, definition.render =
      before ++ binding.render ++ between ++ definition.alternationLine ++ after := by
  obtain ⟨earlier, later, hbindings⟩ := List.append_of_mem h
  refine ⟨"def " ++ definition.name ++ " = \n  block\n    let len = Len\n" ++
    String.join (earlier.map Binding.render), String.join (later.map Binding.render),
    String.join (definition.guards.map renderGuard) ++ "\n\n", ?_⟩
  rw [render, hbindings, alternationLine]
  simp [String.join_cons, String.append_assoc]

end Definition

/-- The text of a binding is that of the bound that it belongs to. -/
theorem Production.LowersTo.render_of_mem_zip {naming : Naming} {production : Production}
    {start : IndexVars} {definition : Definition} {last : Scope}
    (h : production.LowersTo naming start definition last) {bound : Term} {binding : Binding}
    (hpair : (bound, binding) ∈ production.symbolicBounds.zip definition.bindings) :
    bound.render = .ok binding.text := by
  have htexts := render_all_eq_ok_iff.mp h.bounds
  obtain ⟨place, hplace, hat⟩ := List.getElem_of_mem hpair
  rw [List.getElem_zip, Prod.mk.injEq] at hat
  obtain ⟨rfl, rfl⟩ := hat
  rw [List.length_zip] at hplace
  have hsame := congrArg (fun texts => texts[place]?) htexts
  simpa [List.getElem?_eq_getElem, Nat.lt_min.mp hplace] using hsame

/-- What projecting puts into a guard of a lowered production is bound before. -/
theorem Production.LowersTo.binds_of_puts {naming : Naming} {production : Production}
    {start : IndexVars} {definition : Definition} {last : Scope}
    (h : production.LowersTo naming start definition last) {term old new : Term}
    (hputs : last.table.Puts term old new) : definition.Binds new old := by
  obtain ⟨binding, hpair, hnew⟩ := h.mem_zip_of_get hputs.get_eq_some
  have hmem := (List.of_mem_zip hpair).2
  exact ⟨binding, hmem, hnew, h.render_of_mem_zip hpair, Definition.exists_render_eq hmem⟩

/-- The names that a call binds are among those with its numbers, in their order. -/
theorem bound_names_sublist {calls : List Call} {scope : Scope} {outcome : Outcome}
    (hcount : scope.vars.allocated.toNat + takenByCalls calls < 2 ^ 64)
    (h : outcome ∈ lowerCalls calls scope) :
    outcome.boundNames.Sublist (outcome.numbers.map (IndexVars.nameOf scope.vars.stem)) := by
  cases hresult : outcome.result with
  | error error =>
      have hnames : outcome.boundNames = [] := by rw [Outcome.boundNames, hresult]
      rw [hnames]
      exact List.nil_sublist _
  | ok definition =>
      have hnames : outcome.boundNames = definition.bindings.map Binding.name := by
        rw [Outcome.boundNames, hresult]
      rw [hnames, bound_names_eq_map_numbers hcount h hresult]

/-- Fresh variables are bound once and in scope. Take calls of lowering, each with its own naming, that
share one supply of variables and take fewer than `2 ^ 64` of them in all, whether they succeed or not.
The numbers that they take go up along the calls. A call that succeeds binds the names with exactly its own
numbers, so that no name is bound twice and none with a number of an earlier call, failed or not. What a
call puts into its guards in place of a bound, it has bound to the text of that bound. -/
theorem variables_bound_once_and_in_scope (calls : List Call) (scope : Scope)
    (hcount : scope.vars.allocated.toNat + takenByCalls calls < 2 ^ 64) :
    let outcomes := lowerCalls calls scope
    (outcomes.flatMap Outcome.numbers).Pairwise (· < ·) ∧
      (outcomes.flatMap Outcome.boundNames).Nodup ∧
      (outcomes.Pairwise fun earlier later => ∀ number ∈ earlier.numbers,
        IndexVars.nameOf scope.vars.stem number ∉ later.boundNames) ∧
      ∀ outcome ∈ outcomes,
        outcome.last.vars.allocated.toNat =
          outcome.start.allocated.toNat + outcome.call.production.taken ∧
        ∀ definition, outcome.result = .ok definition →
          definition.bindings.map Binding.name =
            outcome.numbers.map (IndexVars.nameOf scope.vars.stem) ∧
          renderAll (outcome.call.production.emitted outcome.last.table) = .ok definition.guards ∧
          ∀ conjunct ∈ outcome.call.production.conjuncts, ∀ old new,
            outcome.last.table.Puts conjunct old new → definition.Binds new old := by
  intro outcomes
  have hincreasing : (outcomes.flatMap Outcome.numbers).Pairwise (· < ·) := by
    rw [flat_map_numbers_lower_calls hcount]
    exact List.pairwise_lt_range' 1
  refine ⟨hincreasing, ?_, ?_, ?_⟩
  · have hnodup : ((outcomes.flatMap Outcome.numbers).map
        (IndexVars.nameOf scope.vars.stem)).Nodup :=
      List.Nodup.map (IndexVars.name_of_injective _) (hincreasing.imp Nat.ne_of_lt)
    rw [List.map_flatMap] at hnodup
    exact hnodup.sublist (List.Sublist.flatMap_right outcomes fun outcome houtcome =>
      bound_names_sublist hcount houtcome)
  · refine List.Pairwise.imp_of_mem ?_ (List.pairwise_flatMap.mp hincreasing).2
    intro earlier later _ hlater hlt number hnumber hname
    -- A bound name carries one of the numbers of its own call, and these are all greater.
    obtain ⟨other, hother, heq⟩ :=
      List.mem_map.mp ((bound_names_sublist hcount hlater).subset hname)
    have hless := hlt number hnumber other hother
    rw [IndexVars.name_of_injective _ heq] at hless
    exact Nat.lt_irrefl _ hless
  · intro outcome houtcome
    obtain ⟨start, hstart, -, hbound, hrun⟩ := run_of_mem_lower_calls hcount houtcome
    refine ⟨?_, ?_⟩
    · have htakes := outcome.call.production.lower_takes outcome.call.naming start
      rw [hrun, hstart] at htakes
      rw [htakes, IndexVars.allocated_skip _ hbound]
    · intro definition hresult
      rw [hresult] at hrun
      have hlowers := Production.lowers_to_of_run hrun
      exact ⟨bound_names_eq_map_numbers hcount houtcome hresult, hlowers.render_emitted,
        fun conjunct _ old new hputs => hlowers.binds_of_puts hputs⟩

/-- Three calls, of which the second one fails at the text of its second bound. -/
def callsPastFailure : List Call := [
  ⟨{}, lengthField⟩,
  ⟨{}, { id := 7
         alternatives := [[.interval ⟨some (.symbolic (.constant "n")),
          some (.symbolic malformedBound)⟩]] }⟩,
  ⟨{ entryName := "Packet" }, lengthField⟩]

/-- The failed call has used up two numbers, which the third call passes over. -/
theorem variables_of_calls_past_failure :
    let outcomes := lowerCalls callsPastFailure {}
    ({} : Scope).vars.allocated.toNat + takenByCalls callsPastFailure < 2 ^ 64 ∧
      outcomes.map Outcome.numbers = [[1, 2, 3], [4, 5], [6, 7, 8]] ∧
      outcomes.map Outcome.boundNames = [["ii1", "ii2", "ii3"], [], ["ii6", "ii7", "ii8"]] ∧
      (outcomes.flatMap Outcome.numbers).Pairwise (· < ·) ∧
      (outcomes.flatMap Outcome.boundNames).Nodup ∧
      ∀ outcome ∈ outcomes, ∀ definition, outcome.result = .ok definition →
        ∀ conjunct ∈ outcome.call.production.conjuncts, ∀ old new,
          outcome.last.table.Puts conjunct old new → definition.Binds new old := by
  intro outcomes
  have hcount : ({} : Scope).vars.allocated.toNat + takenByCalls callsPastFailure < 2 ^ 64 := by
    decide +kernel
  have hnumbers : outcomes.map Outcome.numbers = [[1, 2, 3], [4, 5], [6, 7, 8]] := by
    decide +kernel
  have hnames : outcomes.map Outcome.boundNames =
      [["ii1", "ii2", "ii3"], [], ["ii6", "ii7", "ii8"]] := by decide +kernel
  obtain ⟨hincreasing, hnodup, -, hbound⟩ :=
    variables_bound_once_and_in_scope callsPastFailure {} hcount
  refine ⟨hcount, hnumbers, hnames, hincreasing, hnodup, ?_⟩
  intro outcome houtcome definition hresult
  exact ((hbound outcome houtcome).2 definition hresult).2.2

/-! ## Symbols that variables capture -/

/-- The names of the next variables, with numbers that may wrap. -/
theorem IndexVars.names_eq_map_mod (vars : IndexVars) (count : Nat) :
    vars.names count = (List.range count).map fun place =>
      nameOf vars.stem ((vars.next.toNat + place) % 2 ^ 64) := by
  induction count generalizing vars with
  | zero => rfl
  | succ count ih =>
      have hnext : vars.advance.next.toNat = (vars.next.toNat + 1) % 2 ^ 64 :=
        UInt64.toNat_add vars.next 1
      have hfirst : (vars.next.toNat + 0) % 2 ^ 64 = vars.next.toNat :=
        Nat.mod_eq_of_lt vars.next.toNat_lt
      rw [names, ih, hnext, List.range_succ_eq_map, List.map_cons, List.map_map, hfirst]
      refine congrArg (List.cons _) (List.map_congr_left fun place _ => ?_)
      show nameOf vars.stem _ = nameOf vars.stem _
      rw [Nat.mod_add_mod, Nat.add_assoc, Nat.add_comm 1]

/-- The names that a list of definitions binds, in order. -/
def boundNames (definitions : List Definition) : List String :=
  definitions.flatMap fun definition => definition.bindings.map Binding.name

/-- Lowering a list of productions binds the next names, one for every symbolic edge. -/
theorem bound_names_lower_all {naming : Naming} {productions : List Production} {scope last : Scope}
    {definitions : List Definition}
    (h : (lowerAll naming productions).run scope = (.ok definitions, last)) :
    boundNames definitions = scope.vars.names (edgeCount productions) := by
  induction productions generalizing scope definitions last with
  | nil =>
      obtain ⟨rfl, -⟩ := Lowering.run_pure_eq_ok_iff.mp h
      rfl
  | cons production productions ih =>
      simp only [lowerAll, Lowering.run_bind_eq_ok_iff, Lowering.run_pure_eq_ok_iff] at h
      obtain ⟨definition, next, hfirst, rest, final, hrest, rfl, -⟩ := h
      have hlowers := Production.lowers_to_of_run hfirst
      have hcount : edgeCount (production :: productions) =
          production.symbolicBounds.length + edgeCount productions := rfl
      rw [hcount, IndexVars.names_add, ← hlowers.vars, ← ih hrest, ← hlowers.names]
      rfl

/-- `term.Shows name` says that a free constant of this name is written in the text of a term. -/
inductive Term.Shows : Term → String → Prop where
  | here (name) : Shows (.constant name) name
  | inside (term child name) : child ∈ term.writtenChildren → Shows child name → Shows term name

/-- A production shows a name when one of its bounds or of its conjuncts does, before projection. -/
def Production.Shows (production : Production) (name : String) : Prop :=
  ∃ term ∈ production.symbolicBounds ++ production.conjuncts, term.Shows name

/-- Definitions capture a symbol of productions when they bind a name that one of these shows. -/
def Captures (definitions : List Definition) (productions : List Production) : Prop :=
  ∃ name ∈ boundNames definitions, ∃ production ∈ productions, production.Shows name

/-- Which symbols a document captures. It is the text of the definitions that lowering gives, and these bind
the stem with the numbers of the symbolic edges, counted from one (and modulo the width of the counter). So
it captures a symbol exactly when one of these names is shown by a bound or a conjunct of its grammar. -/
theorem captures_iff_shows_numbered {naming : Naming} {productions : List Production} {text : String}
    (h : (renderDocument naming productions).1 = .ok text) :
    ∃ definitions last, (lowerAll naming productions).run { vars := { stem := naming.indexStem } } =
        (.ok definitions, last) ∧ text = documentText definitions ∧
      boundNames definitions = (List.range (edgeCount productions)).map (fun place =>
        naming.indexStem ++ toString ((place + 1) % 2 ^ 64)) ∧
      (Captures definitions productions ↔ ∃ number, 1 ≤ number ∧ number ≤ edgeCount productions ∧
        ∃ production ∈ productions,
          production.Shows (naming.indexStem ++ toString (number % 2 ^ 64))) := by
  obtain ⟨definitions, last, hdefinitions, htext⟩ := lower_all_of_render_document h
  have hnames : boundNames definitions = (List.range (edgeCount productions)).map fun place =>
      naming.indexStem ++ toString ((place + 1) % 2 ^ 64) := by
    rw [bound_names_lower_all hdefinitions, IndexVars.names_eq_map_mod]
    refine List.map_congr_left fun place _ => ?_
    rw [Nat.add_comm place 1]
    rfl
  refine ⟨definitions, last, hdefinitions, htext, hnames, ?_⟩
  constructor
  · rintro ⟨name, hname, hshows⟩
    rw [hnames] at hname
    obtain ⟨place, hplace, rfl⟩ := List.mem_map.mp hname
    exact ⟨place + 1, by omega, List.mem_range.mp hplace, hshows⟩
  · rintro ⟨number, hfirst, hlast, hshows⟩
    refine ⟨_, ?_, hshows⟩
    rw [hnames]
    refine List.mem_map.mpr ⟨number - 1, List.mem_range.mpr (by omega), ?_⟩
    rw [Nat.sub_add_cancel hfirst]

/-- The document of `sharedBounds` binds five names, so these are the symbols that it could capture. -/
theorem captures_of_shared_bounds :
    (renderDocument {} sharedBounds).1 = .ok sharedBoundsText ∧
      ∃ definitions last, (lowerAll {} sharedBounds).run { vars := { stem := "ii" } } =
          (.ok definitions, last) ∧ sharedBoundsText = documentText definitions ∧
        boundNames definitions = ["ii1", "ii2", "ii3", "ii4", "ii5"] ∧
        (Captures definitions sharedBounds ↔ ∃ number, 1 ≤ number ∧ number ≤ 5 ∧
          ∃ production ∈ sharedBounds, production.Shows ("ii" ++ toString (number % 2 ^ 64))) := by
  have htext : (renderDocument {} sharedBounds).1 = .ok sharedBoundsText := by decide +kernel
  obtain ⟨definitions, last, hrun, hdefinitions, hnames, hcaptures⟩ :=
    captures_iff_shows_numbered htext
  refine ⟨htext, definitions, last, hrun, hdefinitions, ?_, hcaptures⟩
  rw [hnames]
  decide +kernel

/-- A rule with a symbol whose name is also that of the first variable. -/
def symbolLikeVariable : Production where
  id := 0
  alternatives := [[.interval ⟨some (.constant 0), some (.symbolic (.constant "n"))⟩]]
  assertions := [.lt (.constant "n") (.constant "ii1")]

/-- The definition of `symbolLikeVariable`. Its guard never holds, but the assertion may. -/
def symbolLikeVariableDefinition : Definition where
  name := "Main"
  bindings := [⟨"ii1", "n"⟩]
  alternatives := []
  guards := ["(ii1 < ii1)"]

/-- A naming that is accepted does not keep the variables of a document apart from the symbols of its
grammar. -/
theorem variable_captures_symbol :
    ({} : Naming).validate = .ok () ∧
      (renderDocument {} [symbolLikeVariable]).1 =
        .ok (documentText [symbolLikeVariableDefinition]) ∧
      ((lowerAll {} [symbolLikeVariable]).run { vars := { stem := "ii" } }).1 =
        .ok [symbolLikeVariableDefinition] ∧
      Captures [symbolLikeVariableDefinition] [symbolLikeVariable] := by
  refine ⟨by decide +kernel, by decide +kernel, by decide +kernel, "ii1", by decide, symbolLikeVariable,
    List.mem_singleton_self _, .lt (.constant "n") (.constant "ii1"), by decide +kernel, ?_⟩
  exact .inside _ (.constant "ii1") _ (List.mem_cons_of_mem _ (List.mem_singleton_self _))
    (.here "ii1")

end ByteGrammar
