import ByteGrammar.Lowering
import ByteGrammar.Proofs.WrittenForm
import Mathlib

/-!
# Successful runs of lowering

Lowering threads a supply of variables, a table of replacements and lists of bindings and of references
through the items of a production. `Production.LowersTo` says what a success amounts to, without any of
that state: the references of each alternative, the symbolic bounds in order, a name from the supply for
each, the first name recorded for each distinct bound, and the texts of the projected conjuncts.
`lowers_to_of_run` says that every successful run is one. The lemmas before it follow the run, one for each
of its functions.
-/

namespace ByteGrammar

namespace IndexVars

/-- The supply after `count` variables have been taken. -/
def skip (vars : IndexVars) : Nat → IndexVars
  | 0 => vars
  | count + 1 => vars.advance.skip count

/-- The names of the next `count` variables. -/
def names (vars : IndexVars) : Nat → List String
  | 0 => []
  | count + 1 => vars.nextName :: vars.advance.names count

/-- The variables that stand for the next `count` bounds. -/
def constants (vars : IndexVars) (count : Nat) : List Term :=
  (vars.names count).map .constant

@[simp]
theorem length_names (vars : IndexVars) (count : Nat) : (vars.names count).length = count := by
  induction count generalizing vars with
  | zero => rfl
  | succ count ih => simp [names, ih]

@[simp]
theorem skip_stem (vars : IndexVars) (count : Nat) : (vars.skip count).stem = vars.stem := by
  induction count generalizing vars with
  | zero => rfl
  | succ count ih => exact ih vars.advance

/-- Taking variables in two goes is taking them at once. -/
theorem skip_add (vars : IndexVars) (first second : Nat) :
    vars.skip (first + second) = (vars.skip first).skip second := by
  induction first generalizing vars with
  | zero => rw [Nat.zero_add]; rfl
  | succ first ih => rw [Nat.succ_add]; exact ih vars.advance

/-- The names of variables that are taken in two goes are those of taking them at once. -/
theorem names_add (vars : IndexVars) (first second : Nat) :
    vars.names (first + second) = vars.names first ++ (vars.skip first).names second := by
  induction first generalizing vars with
  | zero => rw [Nat.zero_add]; rfl
  | succ first ih => rw [Nat.succ_add]; exact congrArg (List.cons _) (ih vars.advance)

/-- The variables that are taken in two goes are those of taking them at once. -/
theorem constants_add (vars : IndexVars) (first second : Nat) :
    vars.constants (first + second) = vars.constants first ++ (vars.skip first).constants second := by
  rw [constants, names_add, List.map_append]
  rfl

@[simp]
theorem length_constants (vars : IndexVars) (count : Nat) : (vars.constants count).length = count := by
  simp [constants]

/-- Taking variables moves the running number on, modulo its width. -/
theorem skip_next (vars : IndexVars) (count : Nat) :
    (vars.skip count).next = vars.next + UInt64.ofNat count := by
  induction count generalizing vars with
  | zero => simp [skip]
  | succ count ih =>
      rw [skip, ih, advance, UInt64.ofNat_add, UInt64.add_assoc]
      congr 1
      exact UInt64.add_comm ..

/-- As long as the number does not wrap, the names count up from it. -/
theorem names_eq_map_range (vars : IndexVars) (first count : Nat)
    (hnext : vars.next = UInt64.ofNat first) (hwrap : first + count ≤ 2 ^ 64) :
    vars.names count =
      (List.range count).map fun i => vars.stem ++ toString (first + i) := by
  induction count generalizing vars first with
  | zero => rfl
  | succ count ih =>
      have hfirst : vars.next.toNat = first := by
        rw [hnext, UInt64.toNat_ofNat']
        exact Nat.mod_eq_of_lt (by omega)
      have hadvance : vars.advance.next = UInt64.ofNat (first + 1) := by
        simp [advance, hnext, UInt64.ofNat_add]
      rw [names, ih vars.advance (first + 1) hadvance (by omega), List.range_succ_eq_map]
      simp only [nextName, hfirst, advance, List.map_cons, List.map_map, Nat.add_zero]
      refine congrArg _ (List.map_congr_left fun i _ => ?_)
      simp only [Function.comp, Nat.succ_eq_add_one]
      rw [show first + 1 + i = first + (i + 1) by omega]

end IndexVars

/-- The terms of a symbolic edge. -/
def Bound.terms : Bound → List Term
  | .constant _ => []
  | .symbolic term => [term]

/-- The terms of the symbolic edges of an interval, the first edge before the last. -/
def Interval.symbolicBounds (interval : Interval) : List Term :=
  (interval.first.toList ++ interval.last.toList).flatMap Bound.terms

/-- The terms of the symbolic edges of an element. -/
def RhsItem.symbolicBounds : RhsItem → List Term
  | .production _ => []
  | .interval range => range.symbolicBounds

/-- The production that an element refers to, if it is a reference. -/
def RhsItem.reference? : RhsItem → Option UInt32
  | .production id => some id
  | .interval _ => none

namespace Production

/-- The references of each alternative, in order. Alternatives that refer to nothing are left out. -/
def references (production : Production) : List (List UInt32) :=
  (production.alternatives.map (·.filterMap RhsItem.reference?)).filter (!·.isEmpty)

/-- The terms of all symbolic edges of a production: by alternative, by item, the first edge before the
last. -/
def symbolicBounds (production : Production) : List Term :=
  production.alternatives.flatMap fun items => items.flatMap RhsItem.symbolicBounds

/-- The conjuncts of the assertions of a production that constrain something. -/
def conjuncts (production : Production) : List Term :=
  (conjunctsAll production.assertions).filter fun conjunct => !conjunct.isTrue

/-- The conjuncts of a production in terms of the variables of a table. -/
def projected (production : Production) (table : Substitution) : List Term :=
  production.conjuncts.map table.apply

/-- What a successful lowering of a production comes to, given the supply that it starts from: the
definition and the last state follow from the production. -/
structure LowersTo (naming : Naming) (production : Production) (start : IndexVars)
    (definition : Definition) (last : Scope) : Prop where
  name : definition.name = naming.definitionName production
  alternatives : definition.alternatives = production.references.map (·.map naming.ruleName)
  bounds : renderAll production.symbolicBounds = .ok (definition.bindings.map Binding.text)
  names : definition.bindings.map Binding.name =
    start.names production.symbolicBounds.length
  vars : last.vars = start.skip production.symbolicBounds.length
  table : last.table = .ofList (production.symbolicBounds.zip
    (start.constants production.symbolicBounds.length))
  guards : ∃ texts, renderAll (production.projected last.table) = .ok texts ∧
    definition.guards = texts.filter fun text => !text.isEmpty

end Production

/-- How a state goes on when a fresh variable is bound to each of some bounds, one after the other: each
takes the next variable, which is recorded for it, and its text is kept. -/
structure Scope.BindsTo (scope : Scope) (bounds : List Term) (last : Scope) : Prop where
  vars : last.vars = scope.vars.skip bounds.length
  table : last.table = (bounds.zip (scope.vars.constants bounds.length)).foldl
    (fun table pair => table.push pair.1 pair.2) scope.table
  bindings : ∃ texts, renderAll bounds = .ok texts ∧ last.bindings = scope.bindings ++
    List.zipWith Binding.mk (scope.vars.names bounds.length) texts

/-- Without bounds, nothing changes. -/
theorem Scope.BindsTo.nil (scope : Scope) : scope.BindsTo [] scope where
  vars := rfl
  table := rfl
  bindings := ⟨[], rfl, by simp [IndexVars.names]⟩

/-- Binding to some bounds and then to others is binding to all of them. -/
theorem Scope.BindsTo.append {scope next last : Scope} {first second : List Term}
    (hfirst : scope.BindsTo first next) (hsecond : next.BindsTo second last) :
    scope.BindsTo (first ++ second) last := by
  obtain ⟨texts, htexts, hbindings⟩ := hfirst.bindings
  obtain ⟨more, hmore, hlast⟩ := hsecond.bindings
  rw [render_all_eq_ok_iff] at htexts hmore
  have hlength : (scope.vars.names first.length).length = texts.length := by
    simpa using congrArg List.length htexts
  constructor
  · rw [hsecond.vars, hfirst.vars, List.length_append, IndexVars.skip_add]
  · rw [hsecond.table, hfirst.table, hfirst.vars, List.length_append, IndexVars.constants_add,
      List.zip_append (by simp), List.foldl_append]
  · refine ⟨texts ++ more, ?_, ?_⟩
    · rw [render_all_eq_ok_iff, List.map_append, List.map_append, htexts, hmore]
    · rw [hlast, hbindings, hfirst.vars, List.length_append, IndexVars.names_add,
        List.zipWith_append hlength, List.append_assoc]

namespace Lowering

variable {α β : Type} {production : UInt32} {scope last : Scope}

/-- A sequence of two runs continues only after a success. -/
theorem run_bind (x : Lowering α) (f : α → Lowering β) (scope : Scope) :
    (x >>= f).run scope =
      match x.run scope with
      | (.ok value, next) => (f value).run next
      | (.error error, next) => (.error error, next) := by
  show StateT.bind x.run (ExceptT.bindCont f) scope = _
  unfold StateT.bind
  rcases x.run scope with ⟨result, next⟩
  cases result <;> rfl

/-- A sequence of two runs succeeds exactly when both succeed. -/
theorem run_bind_eq_ok_iff {x : Lowering α} {f : α → Lowering β} {result : β} :
    (x >>= f).run scope = (.ok result, last) ↔
      ∃ value next, x.run scope = (.ok value, next) ∧ (f value).run next = (.ok result, last) := by
  rw [run_bind]
  constructor
  · intro h
    rcases hx : x.run scope with ⟨outcome, next⟩
    rw [hx] at h
    cases outcome with
    | error error => cases (Prod.mk.inj h).1
    | ok value => exact ⟨value, next, rfl, h⟩
  · rintro ⟨value, next, hx, hf⟩
    rw [hx]
    exact hf

/-- Returning a value leaves the state alone. -/
theorem run_pure_eq_ok_iff {value result : α} :
    (pure value : Lowering α).run scope = (.ok result, last) ↔ value = result ∧ scope = last := by
  constructor
  · intro h
    obtain ⟨hvalue, hscope⟩ := Prod.mk.inj h
    exact ⟨Except.ok.inj hvalue, hscope⟩
  · rintro ⟨rfl, rfl⟩
    rfl

/-- Reading the state leaves it alone. -/
theorem run_get_eq_ok_iff {value : Scope} :
    (get : Lowering Scope).run scope = (.ok value, last) ↔ scope = value ∧ scope = last :=
  run_pure_eq_ok_iff

/-- Changing the state succeeds. -/
theorem run_modify (f : Scope → Scope) (scope : Scope) :
    (modify f : Lowering Unit).run scope = (.ok (), f scope) := rfl

/-- A report only adds to the log. -/
theorem run_report (events : List Event) (scope : Scope) :
    (report events).run scope = (.ok (), { scope with log := scope.log ++ events }) := rfl

/-- Writing a term gives its text or its failure, and only adds to the log. -/
theorem run_write (production : UInt32) (term : Term) (scope : Scope) :
    (write production term).run scope =
      (match term.render with
        | .ok text => .ok text
        | .error cause => .error (.render production cause),
        { scope with log := scope.log ++ term.fragments.map Event.rendered }) := by
  rw [write, run_bind, run_report]
  cases term.render <;> rfl

/-- Taking a variable advances the supply. -/
theorem run_fresh (scope : Scope) :
    fresh.run scope = (.ok (.constant scope.vars.nextName),
      { scope with
        vars := scope.vars.advance
        log := scope.log ++ [Event.allocated scope.vars.nextName] }) := rfl

/-- A written term has the text that was returned. -/
theorem write_ok {term : Term} {text : String}
    (h : (write production term).run scope = (.ok text, last)) :
    term.render = .ok text ∧ last = { scope with log := last.log } := by
  rw [run_write] at h
  obtain ⟨htext, hlast⟩ := Prod.mk.inj h
  refine ⟨?_, by rw [← hlast]⟩
  cases hterm : term.render with
  | error cause => simp [hterm] at htext
  | ok written => simpa [hterm] using htext

/-- Binding a bound takes one variable, records it for the bound, and keeps the text of the bound. -/
theorem bind_ok {bound : Term} (h : (bind production bound).run scope = (.ok (), last)) :
    scope.BindsTo [bound] last := by
  rw [bind, run_bind_eq_ok_iff] at h
  obtain ⟨var, first, hfresh, h⟩ := h
  rw [run_fresh] at hfresh
  obtain ⟨hvar, hfirst⟩ := Prod.mk.inj hfresh
  obtain rfl := Except.ok.inj hvar
  rw [run_bind_eq_ok_iff] at h
  obtain ⟨name, second, hname, h⟩ := h
  obtain ⟨hname, hsecond⟩ := write_ok hname
  rw [run_bind_eq_ok_iff] at h
  obtain ⟨text, third, htext, h⟩ := h
  obtain ⟨htext, hthird⟩ := write_ok htext
  obtain rfl : scope.vars.nextName = name := by simpa [Term.constant, Term.render] using hname
  have hlast : last = { scope with
      vars := scope.vars.advance
      log := last.log
      table := scope.table.push bound (.constant scope.vars.nextName)
      bindings := scope.bindings ++ [⟨scope.vars.nextName, text⟩] } := by
    rw [← (Prod.mk.inj h).2, hthird, hsecond, ← hfirst]
  exact {
    vars := by
      rw [hlast]
      rfl
    table := by
      rw [hlast]
      rfl
    bindings := ⟨[text], render_all_eq_ok_iff.mpr (by simp [htext]), by
      rw [hlast]
      rfl⟩ }

/-- Binding an edge binds the term of a symbolic one. -/
theorem bind_edge_ok {bound : Bound} (h : (bindEdge production bound).run scope = (.ok (), last)) :
    scope.BindsTo bound.terms last := by
  cases bound with
  | constant value =>
      obtain ⟨-, rfl⟩ := run_pure_eq_ok_iff.mp h
      exact .nil scope
  | symbolic term => exact bind_ok h

/-- Binding the edges of an interval succeeds only when none is missing. -/
theorem bind_interval_ok {alternative item : Nat} {interval : Interval}
    (h : (bindInterval production alternative item interval).run scope = (.ok (), last)) :
    scope.BindsTo interval.symbolicBounds last := by
  obtain ⟨first, last⟩ := interval
  cases first with
  | none => cases (Prod.mk.inj h).1
  | some first =>
      cases last with
      | none => cases (Prod.mk.inj h).1
      | some last =>
          rw [bindInterval, run_bind_eq_ok_iff] at h
          obtain ⟨⟨⟩, next, hfirst, hlast⟩ := h
          have hbounds : Interval.symbolicBounds ⟨some first, some last⟩ =
              first.terms ++ last.terms := by simp [Interval.symbolicBounds]
          rw [hbounds]
          exact (bind_edge_ok hfirst).append (bind_edge_ok hlast)

/-- Going through the items of an alternative gathers its references behind those of the conjunction, and
binds its symbolic edges. -/
theorem conjoin_ok {alternative start : Nat} {items : List RhsItem} {conjunction result : List UInt32}
    (h : (conjoin production alternative conjunction (items.zipIdx start)).run scope =
      (.ok result, last)) :
    result = conjunction ++ items.filterMap RhsItem.reference? ∧
      scope.BindsTo (items.flatMap RhsItem.symbolicBounds) last := by
  induction items generalizing conjunction start scope with
  | nil =>
      obtain ⟨rfl, rfl⟩ := run_pure_eq_ok_iff.mp h
      exact ⟨by simp, .nil scope⟩
  | cons rhs items ih =>
      cases rhs with
      | production id =>
          have hrest : (conjoin production alternative (conjunction ++ [id])
              (items.zipIdx (start + 1))).run scope = (.ok result, last) := h
          obtain ⟨hresult, hlater⟩ := ih hrest
          refine ⟨?_, hlater⟩
          rw [hresult, List.append_assoc]
          rfl
      | interval range =>
          rw [List.zipIdx_cons, conjoin, run_bind_eq_ok_iff] at h
          obtain ⟨⟨⟩, next, hrange, h⟩ := h
          obtain ⟨hresult, hlater⟩ := ih h
          exact ⟨by rw [hresult, List.filterMap_cons_none rfl],
            (bind_interval_ok hrange).append hlater⟩

/-- Going through alternatives gathers the references of each one that has some, and binds the symbolic
edges of all. -/
theorem alternate_ok {start : Nat} {alternatives : List (List RhsItem)}
    {conjunctions result : List (List UInt32)}
    (h : (alternate production conjunctions (alternatives.zipIdx start)).run scope =
      (.ok result, last)) :
    result = conjunctions ++
        (alternatives.map (·.filterMap RhsItem.reference?)).filter (!·.isEmpty) ∧
      scope.BindsTo (alternatives.flatMap fun items => items.flatMap RhsItem.symbolicBounds) last := by
  induction alternatives generalizing conjunctions start scope with
  | nil =>
      obtain ⟨rfl, rfl⟩ := run_pure_eq_ok_iff.mp h
      exact ⟨by simp, .nil scope⟩
  | cons items alternatives ih =>
      rw [List.zipIdx_cons, alternate, run_bind_eq_ok_iff] at h
      obtain ⟨conjunction, next, hitems, h⟩ := h
      obtain ⟨rfl, hbinds⟩ := conjoin_ok hitems
      obtain ⟨hresult, hlater⟩ := ih h
      refine ⟨?_, hbinds.append hlater⟩
      rw [hresult, List.nil_append, List.map_cons]
      cases hempty : (items.filterMap RhsItem.reference?).isEmpty <;> simp [hempty]

/-- The guards are the texts of the projected conjuncts, without the empty ones. -/
theorem guards_ok {conjuncts : List Term} {guards : List String}
    (h : (Lowering.guards production conjuncts).run scope = (.ok guards, last)) :
    last = { scope with log := last.log } ∧
      ∃ texts, renderAll ((conjuncts.filter fun conjunct => !conjunct.isTrue).map
          scope.table.apply) = .ok texts ∧
        guards = texts.filter fun text => !text.isEmpty := by
  induction conjuncts generalizing scope last guards with
  | nil =>
      obtain ⟨rfl, rfl⟩ := run_pure_eq_ok_iff.mp h
      exact ⟨rfl, [], rfl, rfl⟩
  | cons conjunct conjuncts ih =>
      rw [Lowering.guards] at h
      by_cases htrue : conjunct.isTrue = true
      · simp only [htrue, if_true] at h
        simpa [htrue] using ih h
      · simp only [htrue, Bool.false_eq_true, if_false, run_bind_eq_ok_iff] at h
        obtain ⟨read, first, hread, text, second, htext, texts, third, htexts, h⟩ := h
        obtain ⟨rfl, rfl⟩ := run_get_eq_ok_iff.mp hread
        obtain ⟨htext, hsecond⟩ := write_ok htext
        obtain ⟨hthird, rest, hrest, rfl⟩ := ih htexts
        obtain ⟨rfl, rfl⟩ := run_pure_eq_ok_iff.mp h
        have htable : second.table = scope.table := by rw [hsecond]
        refine ⟨by rw [hthird, hsecond], text :: rest, ?_, ?_⟩
        · rw [htable] at hrest
          simp [htrue, renderAll, htext, hrest, Bind.bind, Except.bind, Pure.pure, Except.pure]
        · cases hempty : text.isEmpty <;> simp [hempty]

end Lowering

/-- Bindings made of names and texts have these names and these texts. -/
theorem Binding.map_zip_with {names texts : List String} (h : names.length = texts.length) :
    (List.zipWith Binding.mk names texts).map Binding.name = names ∧
      (List.zipWith Binding.mk names texts).map Binding.text = texts := by
  have hnames : (names.zip texts).map Prod.fst = names := List.map_fst_zip (by omega)
  have htexts : (names.zip texts).map Prod.snd = texts := List.map_snd_zip (by omega)
  rw [List.map_zipWith, List.map_zipWith]
  exact ⟨List.map_zip_eq_zipWith.symm.trans hnames, List.map_zip_eq_zipWith.symm.trans htexts⟩

/-- Going through the alternatives of a production gathers its references and binds its symbolic edges. -/
theorem Production.alternate_ok {production : Production} {scope last : Scope}
    {conjunctions : List (List UInt32)}
    (h : (Lowering.alternate production.id [] production.alternatives.zipIdx).run scope =
      (.ok conjunctions, last)) :
    conjunctions = production.references ∧ scope.BindsTo production.symbolicBounds last :=
  Lowering.alternate_ok h

/-- Every successful run of lowering a production, from any state, is what `LowersTo` says. -/
theorem Production.lowers_to_of_run {naming : Naming} {production : Production}
    {scope last : Scope} {definition : Definition}
    (h : (production.lower naming).run scope = (.ok definition, last)) :
    production.LowersTo naming scope.vars definition last := by
  simp only [Production.lower, Lowering.run_bind_eq_ok_iff, Lowering.run_get_eq_ok_iff,
    Lowering.run_pure_eq_ok_iff] at h
  obtain ⟨⟨⟩, start, hstart, conjunctions, bound, halternate, guards, guarded, hguards, read, kept,
    ⟨rfl, rfl⟩, ⟨⟩, reported, hreport, rfl, rfl⟩ := h
  obtain rfl := (Prod.mk.inj hstart).2
  obtain rfl := (Prod.mk.inj hreport).2
  obtain ⟨rfl, hbinds⟩ := Production.alternate_ok halternate
  obtain ⟨texts, htexts, hbound⟩ := hbinds.bindings
  obtain ⟨hguarded, guardTexts, hguardTexts, rfl⟩ := Lowering.guards_ok hguards
  have hlength : (scope.vars.names production.symbolicBounds.length).length = texts.length := by
    simpa using congrArg List.length (render_all_eq_ok_iff.mp htexts)
  have hbindings : guarded.bindings =
      List.zipWith Binding.mk (scope.vars.names production.symbolicBounds.length) texts := by
    rw [hguarded, hbound]
    rfl
  have htable : guarded.table = bound.table := by rw [hguarded]
  exact {
    name := rfl
    alternatives := rfl
    bounds := by
      rw [htexts, hbindings, (Binding.map_zip_with hlength).2]
    names := by
      rw [hbindings, (Binding.map_zip_with hlength).1]
    vars := by
      rw [hguarded, hbinds.vars]
    table := htable.trans hbinds.table
    guards := ⟨guardTexts, by rw [htable]; exact hguardTexts, rfl⟩ }

end ByteGrammar
