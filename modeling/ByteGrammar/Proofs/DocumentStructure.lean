import ByteGrammar.Proofs.DefinitionReading
import ByteGrammar.Proofs.DocumentText
import ByteGrammar.Proofs.GuardMeaning

/-!
# The structure of a document

A text is written on one line when no name in its term has a line break in it, and projecting brings in no
name but those of variables. So the definitions of a grammar keep to their lines, and
`document_structure_determined` says that two grammars with the same document show the same: the same
numbers, bounds, references and guards, production by production.
-/

namespace ByteGrammar

/-! ## Texts on one line -/

/-- `term.Mentions name` says that an application of this name stands somewhere in a term. -/
inductive Term.Mentions : Term → String → Prop where
  | here (name args params) : Mentions (.app name args params) name
  | inside (term child name) : child ∈ term.children → Mentions child name → Mentions term name

/-- A term avoids a character when it mentions no name with it. -/
def Term.Avoids (c : Char) (term : Term) : Prop :=
  ∀ name, term.Mentions name → c ∉ name.toList

section Avoids

variable {c : Char} {term : Term}

/-- The children of a term avoid what it avoids. -/
theorem Term.Avoids.child {child : Term} (h : term.Avoids c) (hchild : child ∈ term.children) :
    child.Avoids c :=
  fun name hname => h name (.inside term child name hchild hname)

/-- A node avoids a character when its children do, with the name of an application. -/
theorem Term.avoids_of_children
    (hname : ∀ name args params, term = .app name args params → c ∉ name.toList)
    (hchildren : ∀ child ∈ term.children, child.Avoids c) : term.Avoids c := by
  intro name hmentions
  cases hmentions with
  | here name args params => exact hname name args params rfl
  | inside term child name hchild hmentions => exact hchildren child hchild name hmentions

/-- Putting other children that avoid a character into a node keeps avoiding it. -/
theorem Term.Avoids.map_children {f : Term → Term} (h : term.Avoids c)
    (hf : ∀ child ∈ term.children, (f child).Avoids c) : (term.mapChildren f).Avoids c := by
  refine Term.avoids_of_children ?_ ?_
  · intro name args params happ
    cases term with
    | app name' args' params' =>
        obtain ⟨rfl, -, -⟩ := Term.app.inj happ
        exact h _ (.here _ args' params')
    | _ => cases happ
  · rw [Term.map_children_children]
    exact List.forall_mem_map.mpr hf

/-- Projecting brings in no character that what the table puts in avoids. -/
theorem Term.Avoids.apply {table : Substitution} (h : term.Avoids c)
    (htable : ∀ old new, table.get? old = some new → new.Avoids c) :
    (table.apply term).Avoids c := by
  induction term using Term.induct_children with
  | node term ih =>
      rw [Substitution.apply_eq]
      cases hget : table.get? term with
      | some new => exact htable term new hget
      | none => exact h.map_children fun child hchild => ih child hchild (h.child hchild)

/-- The conjuncts of a term avoid what it avoids. -/
theorem Term.Avoids.conjunct {conjunct : Term} (h : term.Avoids c)
    (hconjunct : conjunct ∈ term.conjuncts) : conjunct.Avoids c := by
  induction term using Term.induct_children with
  | node term ih =>
      unfold Term.conjuncts at hconjunct
      split at hconjunct
      next args =>
        rw [conjuncts_all_eq_flat_map] at hconjunct
        obtain ⟨arg, harg, hconjunct⟩ := List.mem_flatMap.mp hconjunct
        exact ih arg harg (h.child harg) hconjunct
      next => exact List.mem_singleton.mp hconjunct ▸ h

/-- A constant avoids what its name does. -/
theorem Term.avoids_constant {name : String} (h : c ∉ name.toList) : (Term.constant name).Avoids c := by
  refine Term.avoids_of_children ?_ (by simp [Term.constant, Term.children])
  intro name' args params happ
  obtain ⟨rfl, -, -⟩ := Term.app.inj happ
  exact h

end Avoids

/-- Texts with a separator between them are on one line when the separator and each of them are. -/
theorem line_break_not_mem_intercalate {separator : String} {texts : List String}
    (hseparator : '\n' ∉ separator.toList) (htexts : ∀ text ∈ texts, '\n' ∉ text.toList) :
    '\n' ∉ (separator.intercalate texts).toList := by
  cases texts with
  | nil => simp
  | cons text texts =>
      rw [List.forall_mem_cons] at htexts
      rw [intercalate_eq_append_join]
      simpa [String.toList_join, htexts.1, hseparator] using htexts.2

/-- An integer is written with digits and perhaps a minus. -/
theorem not_mem_integer {c : Char} (hdigit : c.isDigit = false) (hminus : c ≠ '-') (value : Int) :
    c ∉ (toString value).toList := by
  intro hmem
  have hdigits (number : Nat) : c ∉ (toString number).toList := fun hmem => by
    simp [is_digit_of_mem_number hmem] at hdigit
  rw [Int.toString_eq_repr, Int.repr_eq_if] at hmem
  split at hmem
  next => exact hdigits _ hmem
  next =>
    rw [String.toList_append, List.mem_append] at hmem
    rcases hmem with hmem | hmem
    · simp [hminus] at hmem
    · exact hdigits _ hmem

/-- An integer is on one line. -/
theorem line_break_not_mem_integer (value : Int) : '\n' ∉ (toString value).toList :=
  not_mem_integer (by decide) (by decide) value

/-- Hexadecimal digits are on one line. -/
theorem line_break_not_mem_upper_digits (count value : Nat) :
    '\n' ∉ Text.upperDigits count value := by
  have hdigit : ∀ digit < 16, '\n' ≠ Text.upperDigit digit := by decide
  induction count generalizing value with
  | zero => simp [Text.upperDigits]
  | succ count ih =>
      rw [Text.upperDigits, List.mem_append, List.mem_singleton]
      rintro (hmem | hmem)
      · exact ih (value / 16) hmem
      · exact hdigit _ (Nat.mod_lt value (by decide)) hmem

/-- A parameter is on one line, whatever it holds. -/
theorem line_break_not_mem_param (param : Param) : '\n' ∉ param.render.toList := by
  cases param with
  | int value => exact line_break_not_mem_integer value.toInt
  | _ => simp [Param.render]

/-- Operands with a sign between them are on one line. -/
theorem line_break_not_mem_infixed {sign : String} {operands : List String}
    (hsign : '\n' ∉ sign.toList) (h : ∀ operand ∈ operands, '\n' ∉ operand.toList) :
    '\n' ∉ (infixed sign operands).toList := by
  have hbetween : '\n' ∉ (" " ++ sign ++ " ").toList := by simpa using hsign
  simpa [infixed] using line_break_not_mem_intercalate hbetween h

/-- A polynomial of bytes is on one line. -/
theorem line_break_not_mem_polynomial {bytes : List String}
    (h : ∀ byte ∈ bytes, '\n' ∉ byte.toList) : '\n' ∉ (polynomial bytes).toList := by
  have hweighted (bytes : List String) (h : ∀ byte ∈ bytes, '\n' ∉ byte.toList) :
      ∀ text ∈ weighted bytes, '\n' ∉ text.toList := by
    induction bytes with
    | nil => simp [weighted]
    | cons byte bytes ih =>
        rw [List.forall_mem_cons] at h
        have hfactors : '\n' ∉ (String.join (List.replicate bytes.length "256 * ")).toList := by
          simp [String.toList_join]
        refine List.forall_mem_cons.mpr ⟨?_, ih h.2⟩
        rw [String.toList_append, List.mem_append]
        exact fun hmem => hmem.elim hfactors h.1
  cases bytes with
  | nil => simp [polynomial]
  | cons byte bytes => exact line_break_not_mem_intercalate (by simp) (hweighted _ h)

/-- Every text of a list is that of some term of the list. -/
theorem exists_of_mem_render_all {terms : List Term} {texts : List String}
    (h : renderAll terms = .ok texts) {text : String} (htext : text ∈ texts) :
    ∃ term ∈ terms, term.render = .ok text := by
  have hmem : Except.ok text ∈ terms.map Term.render := by
    rw [render_all_eq_ok_iff.mp h]
    exact List.mem_map_of_mem htext
  exact List.mem_map.mp hmem

/-- A term that mentions no name with a line break is written on one line. -/
theorem Term.Avoids.line_break_not_mem_render {term : Term} {text : String} (h : term.Avoids '\n')
    (hrender : term.render = .ok text) : '\n' ∉ text.toList := by
  induction term using Term.induct_children generalizing text with
  | node term ih =>
      have hchild {child : Term} {text : String} (hmem : child ∈ term.children)
          (hrender : child.render = .ok text) : '\n' ∉ text.toList :=
        ih child hmem (h.child hmem) hrender
      have hall {terms : List Term} {texts : List String} (hsub : ∀ t ∈ terms, t ∈ term.children)
          (hrender : renderAll terms = .ok texts) : ∀ text ∈ texts, '\n' ∉ text.toList := by
        intro text htext
        obtain ⟨child, hmem, hchildText⟩ := exists_of_mem_render_all hrender htext
        exact hchild (hsub child hmem) hchildText
      cases Term.written_of_render hrender with
      | num value =>
          simpa [Numeral.hex] using line_break_not_mem_upper_digits 16 value.bits.toNat
      | bool value => cases value <;> simp
      | arith op args texts hargs =>
          exact line_break_not_mem_infixed (by cases op <;> simp [ArithOp.symbol])
            (hall (fun _ => id) hargs)
      | logic op args texts hargs =>
          exact line_break_not_mem_infixed (by cases op <;> simp [LogicOp.symbol])
            (hall (fun _ => id) hargs)
      | cmp op lhs rhs left right hleft hright =>
          have hboth : ∀ operand ∈ [left, right], '\n' ∉ operand.toList := by
            simpa using And.intro (hchild (by simp [Term.children]) hleft)
              (hchild (by simp [Term.children]) hright)
          exact line_break_not_mem_infixed (by cases op <;> simp [CmpOp.symbol]) hboth
      | naming lhs rhs => simp
      | eq lhs rhs left right hleft hright | distinct lhs rhs left right hleft hright =>
          simp [hchild (by simp [Term.children]) hleft, hchild (by simp [Term.children]) hright]
      | not arg inner harg | neg arg inner harg =>
          simp [hchild (by simp [Term.children]) harg]
      | byte array value => simpa using line_break_not_mem_integer value.toInt
      | select array index inner hindex hinner =>
          simp [hchild (by simp [Term.children]) hinner]
      | concat bytes texts htexts =>
          refine line_break_not_mem_polynomial (hall (fun byte hbyte => ?_) htexts)
          exact (List.dropWhile_sublist _).subset hbyte
      | extract args params texts hoperands hargs =>
          have hoperands : ∀ operand ∈ texts ++ params.map Param.render, '\n' ∉ operand.toList :=
            List.forall_mem_append.mpr ⟨hall (fun _ => id) hargs,
              List.forall_mem_map.mpr fun param _ => line_break_not_mem_param param⟩
          simpa using line_break_not_mem_intercalate (by simp : '\n' ∉ (" ").toList) hoperands
      | constant => exact h _ (.here _ [] [])
      | app name args params texts hoperands hargs =>
          have hoperands : ∀ operand ∈ texts ++ params.map Param.render, '\n' ∉ operand.toList :=
            List.forall_mem_append.mpr ⟨hall (fun _ => id) hargs,
              List.forall_mem_map.mpr fun param _ => line_break_not_mem_param param⟩
          have hlist := line_break_not_mem_intercalate (by simp : '\n' ∉ (", ").toList) hoperands
          have hname := h name (.here name args params)
          simpa [hname] using hlist

/-! ## Definitions on their lines -/

/-- The names of variables are those of the stem and a number. -/
theorem IndexVars.exists_of_mem_names {vars : IndexVars} {count : Nat} {name : String}
    (h : name ∈ vars.names count) : ∃ number : Nat, name = vars.stem ++ toString number := by
  induction count generalizing vars with
  | zero => simp [IndexVars.names] at h
  | succ count ih =>
      rcases List.mem_cons.mp h with rfl | h
      · exact ⟨vars.next.toNat, rfl⟩
      · exact @ih vars.advance h

/-- A production keeps its terms on one line when its bounds and its assertions mention no name with a line
break. -/
structure Production.KeepsLines (production : Production) : Prop where
  bounds : ∀ term ∈ production.symbolicBounds, term.Avoids '\n'
  assertions : ∀ term ∈ production.assertions, term.Avoids '\n'

/-- The conjuncts of a production that keeps its terms on one line mention no name with a line break. -/
theorem Production.KeepsLines.conjuncts {production : Production} (h : production.KeepsLines) :
    ∀ conjunct ∈ production.conjuncts, conjunct.Avoids '\n' := by
  intro conjunct hconjunct
  have hmem := (List.mem_filter.mp hconjunct).1
  rw [conjuncts_all_eq_flat_map] at hmem
  obtain ⟨assertion, hassertion, hconjunct⟩ := List.mem_flatMap.mp hmem
  exact (h.assertions assertion hassertion).conjunct hconjunct

/-- A production that keeps its terms on one line is lowered to a definition that keeps to its lines, under
an accepted naming. -/
theorem Production.LowersTo.lined {naming : Naming} {production : Production} {start : IndexVars}
    {definition : Definition} {last : Scope} (h : production.LowersTo naming start definition last)
    (hnaming : naming.validate = .ok ()) (hstem : start.stem = naming.indexStem)
    (hlines : production.KeepsLines) : definition.Lined := by
  have hvariables : ∀ binding ∈ definition.bindings, isIdentifier binding.name = true := by
    intro binding hbinding
    have hname : binding.name ∈ start.names production.symbolicBounds.length :=
      h.names ▸ List.mem_map_of_mem hbinding
    obtain ⟨number, hnumber⟩ := IndexVars.exists_of_mem_names hname
    obtain ⟨-, -, hindex, -⟩ := Naming.validate_eq_ok_iff.mp hnaming
    rw [hnumber, hstem]
    exact is_identifier_append_number hindex number
  have hprojected : ∀ conjunct ∈ production.conjuncts, (last.table.apply conjunct).Avoids '\n' := by
    intro conjunct hconjunct
    refine (hlines.conjuncts conjunct hconjunct).apply fun old new hget => ?_
    obtain ⟨binding, hpair, rfl⟩ := h.mem_zip_of_get hget
    have hidentifier := hvariables binding (List.of_mem_zip hpair).2
    exact Term.avoids_constant (not_mem_of_is_identifier hidentifier (by decide))
  constructor
  · rw [h.name]
    exact Naming.is_identifier_definition_name hnaming production
  · intro binding hbinding
    refine ⟨hvariables binding hbinding, ?_⟩
    obtain ⟨bound, hbound, htext⟩ := exists_of_mem_render_all h.bounds (List.mem_map_of_mem hbinding)
    exact (hlines.bounds bound hbound).line_break_not_mem_render htext
  · rw [h.alternatives]
    intro rules hrules rule hrule
    obtain ⟨ids, -, rfl⟩ := List.mem_map.mp hrules
    obtain ⟨id, -, rfl⟩ := List.mem_map.mp hrule
    exact Naming.is_identifier_rule_name hnaming id
  · intro guard hguard
    obtain ⟨texts, htexts, hguards⟩ := h.guards
    rw [hguards] at hguard
    obtain ⟨term, hterm, htext⟩ := exists_of_mem_render_all htexts (List.mem_filter.mp hguard).1
    obtain ⟨conjunct, hconjunct, rfl⟩ := List.mem_map.mp hterm
    exact (hprojected conjunct hconjunct).line_break_not_mem_render htext

/-- Lowering productions that keep their terms on one line gives definitions that keep to their lines. -/
theorem lower_all_lined {naming : Naming} {productions : List Production} {scope last : Scope}
    {definitions : List Definition} (hnaming : naming.validate = .ok ())
    (hlines : ∀ production ∈ productions, production.KeepsLines)
    (hstem : scope.vars.stem = naming.indexStem)
    (h : (lowerAll naming productions).run scope = (.ok definitions, last)) :
    ∀ definition ∈ definitions, definition.Lined := by
  induction productions generalizing scope last definitions with
  | nil =>
      obtain ⟨rfl, -⟩ := Lowering.run_pure_eq_ok_iff.mp h
      simp
  | cons production productions ih =>
      simp only [lowerAll, Lowering.run_bind_eq_ok_iff, Lowering.run_pure_eq_ok_iff] at h
      obtain ⟨definition, next, hfirst, rest, final, hrest, rfl, -⟩ := h
      rw [List.forall_mem_cons] at hlines
      have hlowers := Production.lowers_to_of_run hfirst
      have hnext : next.vars.stem = naming.indexStem := by
        rw [hlowers.vars, IndexVars.skip_stem, hstem]
      exact List.forall_mem_cons.mpr ⟨hlowers.lined hnaming hstem hlines.1, ih hlines.2 hnext hrest⟩

/-! ## What a document shows -/

/-- What a document shows of a production. -/
structure Shown where
  id : UInt32
  bounds : List String
  references : List (List UInt32)
  guards : List String
  deriving DecidableEq, Repr, Inhabited

/-- What is shown of a production that takes its variables from a supply: its number, the texts of its
symbolic bounds in the order of binding, its references without the empty lists, and the texts of its
guards. -/
def Production.shown (vars : IndexVars) (production : Production) : Except RenderError Shown := do
  let bounds ← renderAll production.symbolicBounds
  let guards ← renderAll (production.emitted (.ofList (production.symbolicBounds.zip
    (vars.constants production.symbolicBounds.length))))
  return ⟨production.id, bounds, production.references, guards⟩

/-- What is shown of a list of productions that share a supply. -/
def shownAll (vars : IndexVars) : List Production → Except RenderError (List Shown)
  | [] => return []
  | production :: productions => do
      let first ← production.shown vars
      let rest ← shownAll (vars.skip production.symbolicBounds.length) productions
      return first :: rest

/-- Something is shown of each production. -/
theorem length_of_shown_all {vars : IndexVars} {productions : List Production} {shown : List Shown}
    (h : shownAll vars productions = .ok shown) : shown.length = productions.length := by
  induction productions generalizing vars shown with
  | nil =>
      obtain rfl := pure_eq_ok_iff.mp h
      rfl
  | cons production productions ih =>
      simp only [shownAll, bind_eq_ok_iff, pure_eq_ok_iff] at h
      obtain ⟨first, -, rest, hrest, rfl⟩ := h
      rw [List.length_cons, List.length_cons, ih hrest]

/-- `definition.Shows naming shown` says that a definition has the name, the texts and the rules that
`shown` stands for. -/
structure Definition.Shows (naming : Naming) (definition : Definition) (shown : Shown) : Prop where
  name : definition.name = naming.definitionName { id := shown.id }
  bounds : definition.bindings.map Binding.text = shown.bounds
  references : definition.alternatives = shown.references.map (·.map naming.ruleName)
  guards : definition.guards = shown.guards

/-- A definition shows one thing only, under an accepted naming. -/
theorem Definition.Shows.unique {naming : Naming} {definition : Definition} {first second : Shown}
    (hnaming : naming.validate = .ok ()) (hfirst : definition.Shows naming first)
    (hsecond : definition.Shows naming second) : first = second := by
  have hid : first.id = second.id :=
    (Naming.definition_name_eq_iff hnaming).mp (hfirst.name.symm.trans hsecond.name)
  have hbounds : first.bounds = second.bounds := hfirst.bounds.symm.trans hsecond.bounds
  have hreferences : first.references = second.references := by
    have hrules : Function.Injective (List.map (List.map naming.ruleName)) :=
      (naming.rule_name_injective.list_map).list_map
    exact hrules (hfirst.references.symm.trans hsecond.references)
  have hguards : first.guards = second.guards := hfirst.guards.symm.trans hsecond.guards
  cases first
  cases second
  simp_all

/-- A lowered production shows what is in its definition. -/
theorem Production.LowersTo.shows {naming : Naming} {production : Production} {start : IndexVars}
    {definition : Definition} {last : Scope} (h : production.LowersTo naming start definition last) :
    ∃ shown, production.shown start = .ok shown ∧ definition.Shows naming shown := by
  have hguards := h.render_emitted
  rw [h.table] at hguards
  refine ⟨⟨production.id, definition.bindings.map Binding.text, production.references,
    definition.guards⟩, ?_, ?_⟩
  · simp only [Production.shown, bind_eq_ok_iff, pure_eq_ok_iff]
    exact ⟨_, h.bounds, _, hguards, rfl⟩
  · exact ⟨h.name, rfl, h.alternatives, rfl⟩

/-- Lowered productions show what is in their definitions. -/
theorem lower_all_shows {naming : Naming} {productions : List Production} {scope last : Scope}
    {definitions : List Definition}
    (h : (lowerAll naming productions).run scope = (.ok definitions, last)) :
    ∃ shown, shownAll scope.vars productions = .ok shown ∧
      List.Forall₂ (Definition.Shows naming) definitions shown := by
  induction productions generalizing scope last definitions with
  | nil =>
      obtain ⟨rfl, -⟩ := Lowering.run_pure_eq_ok_iff.mp h
      exact ⟨[], rfl, .nil⟩
  | cons production productions ih =>
      simp only [lowerAll, Lowering.run_bind_eq_ok_iff, Lowering.run_pure_eq_ok_iff] at h
      obtain ⟨definition, next, hfirst, rest, final, hrest, rfl, -⟩ := h
      have hlowers := Production.lowers_to_of_run hfirst
      obtain ⟨first, hshown, hshows⟩ := hlowers.shows
      obtain ⟨others, hothers, hall⟩ := ih hrest
      refine ⟨first :: others, ?_, .cons hshows hall⟩
      rw [hlowers.vars] at hothers
      simp only [shownAll, bind_eq_ok_iff, pure_eq_ok_iff]
      exact ⟨first, hshown, others, hothers, rfl⟩

/-- A grammar keeps its terms on one line when each of its productions does. -/
def Grammar.KeepsLines (grammar : Grammar) : Prop :=
  ∀ production ∈ grammar.productions, production.KeepsLines

/-- The structure of a document can be read back from its text. Two grammars that mention no name with a
line break and have the same document, under an accepted naming, have equally many productions, and at
each place these have the same number, the same texts of the symbolic bounds in the order of binding, the
same references without the empty lists and the same texts of the guards. -/
theorem document_structure_determined {naming : Naming} {first second : Grammar} {text : String}
    (hnaming : naming.validate = .ok ())
    (hfirstLines : first.KeepsLines) (hsecondLines : second.KeepsLines)
    (hfirst : (renderDocument naming first.productions).1 = .ok text)
    (hsecond : (renderDocument naming second.productions).1 = .ok text) :
    first.size = second.size ∧ ∃ shown,
      shownAll { stem := naming.indexStem } first.productions = .ok shown ∧
      shownAll { stem := naming.indexStem } second.productions = .ok shown := by
  obtain ⟨definitions, last, hrun, htext⟩ := lower_all_of_render_document hfirst
  obtain ⟨definitions', last', hrun', htext'⟩ := lower_all_of_render_document hsecond
  have hlined := lower_all_lined hnaming hfirstLines rfl hrun
  have hlined' := lower_all_lined hnaming hsecondLines rfl hrun'
  obtain rfl : definitions = definitions' :=
    document_text_injective hlined hlined' (htext.symm.trans htext')
  obtain ⟨shown, hshown, hshows⟩ := lower_all_shows hrun
  obtain ⟨shown', hshown', hshows'⟩ := lower_all_shows hrun'
  obtain rfl : shown = shown' :=
    List.right_unique_forall₂' (fun _ _ _ hleft hright => hleft.unique hnaming hright) hshows hshows'
  have hsize : first.size = second.size :=
    (length_of_shown_all hshown).symm.trans (length_of_shown_all hshown')
  exact ⟨hsize, shown, hshown, hshown'⟩

/-- A grammar whose document shows one bound and one guard, and lists of two references and of one. -/
def severalReferences : Grammar where
  productions := [
    { id := 0, alternatives := [[.production 7]] },
    { id := 7
      alternatives := [
        [.production 1, .interval ⟨some (.symbolic (.constant "n")), some (.constant 9)⟩,
          .production 2],
        [.interval ⟨some (.constant 0), some (.constant 4)⟩],
        [.production 3]]
      assertions := [.lt (.constant "n") (.constant "m"), .bool true] }]

/-- A grammar with the same document, although constant edges, the places of intervals, alternatives without
references and assertions that are not written are different. -/
def severalReferencesAgain : Grammar where
  productions := [
    { id := 0, alternatives := [[], [.production 7]] },
    { id := 7
      alternatives := [
        [.interval ⟨some (.constant 0), some (.symbolic (.constant "n"))⟩, .production 1,
          .production 2],
        [.production 3, .interval ⟨some (.constant 1), some (.constant 2)⟩],
        []]
      assertions := [.all [.lt (.constant "n") (.constant "m")],
        .names (.constant "n") (.constant "m")] }]

/-- The document of `severalReferences` and of `severalReferencesAgain`. -/
def severalReferencesText : String :=
  Outline.accessorBlock ++ "\n" ++
  "def Main = \n  block\n    let len = Len\n    \x7b L7; \x7d\n\n\n\n" ++
  "def L7 = \n  block\n    let len = Len\n    let ii1 = n\n" ++
  "    \x7b L1; L2; \x7d <| \x7b L3; \x7d\n\n    ((ii1 < m)) is true\n\n\n"

/-- What both grammars show. -/
def severalReferencesShown : List Shown := [
  ⟨0, [], [[7]], []⟩,
  ⟨7, ["n"], [[1, 2], [3]], ["(ii1 < m)"]⟩]

/-- The two grammars have one document, and so it shows the same of both. -/
theorem document_structure_of_several_references :
    severalReferences.KeepsLines ∧ severalReferencesAgain.KeepsLines ∧
      (renderDocument {} severalReferences.productions).1 = .ok severalReferencesText ∧
      (renderDocument {} severalReferencesAgain.productions).1 = .ok severalReferencesText ∧
      severalReferences.size = severalReferencesAgain.size ∧
      shownAll { stem := "ii" } severalReferences.productions = .ok severalReferencesShown ∧
      shownAll { stem := "ii" } severalReferencesAgain.productions = .ok severalReferencesShown := by
  have hn : (Term.constant "n").Avoids '\n' := Term.avoids_constant (by simp)
  have hm : (Term.constant "m").Avoids '\n' := Term.avoids_constant (by simp)
  have hless : (Term.lt (.constant "n") (.constant "m")).Avoids '\n' :=
    Term.avoids_of_children (by simp [Term.lt]) (by simp [Term.lt, Term.children, hn, hm])
  have hfirst : severalReferences.KeepsLines := by
    have htrue : (Term.bool true).Avoids '\n' :=
      Term.avoids_of_children (by simp) (by simp [Term.children])
    refine List.forall_mem_cons.mpr ⟨?_, List.forall_mem_singleton.mpr ?_⟩
    · constructor <;> simp [Production.symbolicBounds, RhsItem.symbolicBounds]
    · constructor
      · simp [Production.symbolicBounds, RhsItem.symbolicBounds, Interval.symbolicBounds,
          Bound.terms, hn]
      · simp [hless, htrue]
  have hsecond : severalReferencesAgain.KeepsLines := by
    have hall : (Term.all [.lt (.constant "n") (.constant "m")]).Avoids '\n' :=
      Term.avoids_of_children (by simp [Term.all]) (by simp [Term.all, Term.children, hless])
    have hnames : (Term.names (.constant "n") (.constant "m")).Avoids '\n' :=
      Term.avoids_of_children (by simp [Term.names]) (by simp [Term.names, Term.children, hn, hm])
    refine List.forall_mem_cons.mpr ⟨?_, List.forall_mem_singleton.mpr ?_⟩
    · constructor <;> simp [Production.symbolicBounds, RhsItem.symbolicBounds]
    · constructor
      · simp [Production.symbolicBounds, RhsItem.symbolicBounds, Interval.symbolicBounds,
          Bound.terms, hn]
      · simp [hall, hnames]
  have hnaming : ({} : Naming).validate = .ok () := by decide +kernel
  have htext : (renderDocument {} severalReferences.productions).1 = .ok severalReferencesText := by
    decide +kernel
  have htext' : (renderDocument {} severalReferencesAgain.productions).1 =
      .ok severalReferencesText := by decide +kernel
  obtain ⟨hsize, shown, hshown, hshown'⟩ :=
    document_structure_determined hnaming hfirst hsecond htext htext'
  have hexpected : shownAll { stem := "ii" } severalReferences.productions =
      .ok severalReferencesShown := by decide +kernel
  obtain rfl : shown = severalReferencesShown := Except.ok.inj (hshown.symm.trans hexpected)
  exact ⟨hfirst, hsecond, htext, htext', hsize, hshown, hshown'⟩

end ByteGrammar
