import ByteGrammar.Document.Basic
import ByteGrammar.Proofs.LoweringRun

/-!
# Documents without state

`Outline.document` says what the text of a document is, one production at a time and without a supply of
variables, a growing table or a buffer. The accessors are given line by line. A variable is numbered by the
symbolic edges before it, the alternatives are the lists of their references, and a guard is a conjunct in
which every distinct bound stands replaced by the variable of its first edge. `document_text_eq_outline`
says that every document that lowering produces is that text.
-/

namespace ByteGrammar

/-- The number of symbolic edges of a list of productions. -/
def edgeCount (productions : List Production) : Nat :=
  (productions.map fun production => production.symbolicBounds.length).sum

namespace Outline

/-- The lines that every document starts with. -/
def accessorLines : List String := [
  "def Select (N : uint 64) =",
  "  block",
  "    let cur = GetStream",
  "    let a = bytesOfStream cur",
  "    (Index a N) as uint 64",
  "",
  "def Len =",
  "  block",
  "    let cur = GetStream",
  "    let a = bytesOfStream cur",
  "    length a",
  "",
  "def Extract (High : uint 64) (Low : uint 64) (N : uint 64) =",
  "  block",
  "    let mask = (1 << (High - Low + 1)) - 1",
  "    (N >> Low) .&. mask",
  ""]

/-- The text that every document starts with. -/
def accessorBlock : String :=
  String.join (accessorLines.map (· ++ "\n"))

/-- The variable of the edge with a number, counted from one over the whole document. -/
def variableName (naming : Naming) (number : Nat) : String :=
  naming.indexStem ++ toString number

/-- The variables of the `count` edges that follow the first `before` ones. -/
def variableNames (naming : Naming) (before count : Nat) : List String :=
  (List.range count).map fun place => variableName naming (before + (place + 1))

/-- The variable of the first edge that has a term as its bound, with `before` edges in earlier
productions. -/
def variableOf (naming : Naming) (before : Nat) (bounds : List Term) (term : Term) : Option Term :=
  (bounds.idxOf? term).map fun place => .constant (variableName naming (before + (place + 1)))

/-- The line that binds the edge with a number. -/
def letLine (naming : Naming) (number : Nat) (bound : String) : String :=
  "    let " ++ variableName naming number ++ " = " ++ bound ++ "\n"

/-- The references of an alternative. -/
def alternative (naming : Naming) (ids : List UInt32) : String :=
  "\x7b " ++ String.join (ids.map fun id => naming.ruleName id ++ "; ") ++ "\x7d"

/-- The line of a guard, with the line break before it. -/
def guardLine (guard : String) : String :=
  "\n    (" ++ guard ++ ") is true"

/-- The text of a production that has `before` symbolic edges in the productions ahead of it. -/
def block (naming : Naming) (before : Nat) (production : Production) :
    Except RenderError String := do
  let bounds ← renderAll production.symbolicBounds
  let guards ← renderAll (production.conjuncts.map
    (Term.replace (variableOf naming before production.symbolicBounds)))
  return "def " ++ naming.definitionName production ++ " = \n  block\n    let len = Len\n" ++
    String.join (bounds.mapIdx fun place bound => letLine naming (before + (place + 1)) bound) ++
    "    " ++ " <| ".intercalate (production.references.map (alternative naming)) ++ "\n" ++
    String.join ((guards.filter fun guard => !guard.isEmpty).map guardLine) ++ "\n\n"

/-- The text of a document: the accessors, an empty line, then the productions in order. -/
def document (naming : Naming) (productions : List Production) : Except RenderError String := do
  let blocks ← productions.zipIdx.mapM fun (production, place) =>
    block naming (edgeCount (productions.take place)) production
  return accessorBlock ++ "\n" ++ String.join (blocks.map (· ++ "\n"))

end Outline

/-- The definitions of the accessors are the lines of the outline. -/
theorem accessors_eq_accessor_block : accessors = Outline.accessorBlock := by
  decide +kernel

/-- Looking a term up in a list of terms paired with others finds what stands at its first place. -/
theorem lookup_zip_eq (terms : List Term) (others : List Term) (term : Term)
    (h : terms.length ≤ others.length) :
    (terms.zip others).lookup term = (terms.idxOf? term).bind fun place => others[place]? := by
  induction terms generalizing others with
  | nil => rfl
  | cons first terms ih =>
      cases others with
      | nil => simp at h
      | cons other others =>
          rw [List.zip_cons_cons, List.lookup_cons, List.idxOf?_cons]
          by_cases hfirst : term = first
          · simp [hfirst]
          · rw [beq_eq_false_iff_ne.mpr hfirst, beq_eq_false_iff_ne.mpr (Ne.symm hfirst),
              if_neg Bool.false_ne_true, Option.bind_map]
            exact ih others (by simpa using h)

variable {naming : Naming} {production : Production} {vars : IndexVars} {before : Nat}
  {definition : Definition} {last : Scope}

/-- As long as the number does not wrap, the next names are those of the edges that follow the first
`before` ones. -/
theorem IndexVars.names_eq_variable_names (count : Nat) (hstem : vars.stem = naming.indexStem)
    (hnext : vars.next = UInt64.ofNat (before + 1)) (hcount : before + count < 2 ^ 64) :
    vars.names count = Outline.variableNames naming before count := by
  rw [vars.names_eq_map_range (before + 1) _ hnext (by omega), hstem]
  refine List.map_congr_left fun place _ => ?_
  rw [Outline.variableName, Nat.add_assoc, Nat.add_comm 1]

/-- The first variable recorded for a bound is the variable of its first edge. -/
theorem Outline.get_of_bounds {bounds : List Term}
    (hnames : vars.names bounds.length = Outline.variableNames naming before bounds.length) :
    (Substitution.ofList (bounds.zip (vars.constants bounds.length))).get? =
      Outline.variableOf naming before bounds := by
  funext term
  rw [Substitution.get_of_list, lookup_zip_eq _ _ _ (by simp), Outline.variableOf]
  cases hplace : bounds.idxOf? term with
  | none => rfl
  | some place =>
      obtain ⟨hlt, -⟩ := List.idxOf?_eq_some_iff.mp hplace
      simp [IndexVars.constants, hnames, Outline.variableNames, hlt]

/-- The table of a lowered production gives every bound the variable of its first edge. -/
theorem Production.LowersTo.get_table (h : production.LowersTo naming vars definition last)
    (hnames : vars.names production.symbolicBounds.length =
      Outline.variableNames naming before production.symbolicBounds.length) :
    last.table.get? = Outline.variableOf naming before production.symbolicBounds := by
  rw [h.table, Outline.get_of_bounds hnames]

/-- The bindings of a lowered production are the numbered lines of its bounds. -/
theorem Production.LowersTo.map_render_bindings
    (h : production.LowersTo naming vars definition last)
    (hnames : vars.names production.symbolicBounds.length =
      Outline.variableNames naming before production.symbolicBounds.length) :
    definition.bindings.map Binding.render =
      (definition.bindings.map Binding.text).mapIdx fun place bound =>
        Outline.letLine naming (before + (place + 1)) bound := by
  have hvariables := h.names.trans hnames
  have hlength : definition.bindings.length = production.symbolicBounds.length := by
    simpa [Outline.variableNames] using congrArg List.length hvariables
  refine List.ext_getElem (by simp) fun place hleft hright => ?_
  have hplace : place < definition.bindings.length := by simpa using hleft
  have hname : definition.bindings[place].name =
      Outline.variableName naming (before + (place + 1)) := by
    have hat := congrArg (fun names => names[place]?) hvariables
    simpa [Outline.variableNames, hplace, hlength ▸ hplace] using hat
  simp [Binding.render, Outline.letLine, hname]

/-- The text of a lowered production is its block in the outline. -/
theorem Production.LowersTo.block_eq (h : production.LowersTo naming vars definition last)
    (hnames : vars.names production.symbolicBounds.length =
      Outline.variableNames naming before production.symbolicBounds.length) :
    Outline.block naming before production = .ok definition.render := by
  obtain ⟨guards, hguards, hkept⟩ := h.guards
  have happly : last.table.apply =
      Term.replace (Outline.variableOf naming before production.symbolicBounds) := by
    funext term
    rw [Substitution.apply_eq_replace, h.get_table hnames]
  rw [Production.projected, happly] at hguards
  have halternatives : definition.alternatives.map Definition.renderSequence =
      production.references.map (Outline.alternative naming) := by
    rw [h.alternatives, List.map_map]
    exact List.map_congr_left fun ids _ => by
      simp [Definition.renderSequence, Outline.alternative, Function.comp_def]
  rw [Outline.block, h.bounds, hguards, Definition.render, h.name, h.map_render_bindings hnames,
    halternatives, hkept]
  rfl

/-- Lowering a list of productions gives their blocks, each numbered by the edges ahead of it. The list
stands behind `earlier` productions, whose edges have taken the numbers before. -/
theorem lower_all_blocks (earlier : List Production) {productions : List Production} {scope : Scope}
    {definitions : List Definition}
    (h : (lowerAll naming productions).run scope = (.ok definitions, last))
    (hstem : scope.vars.stem = naming.indexStem)
    (hnext : scope.vars.next = UInt64.ofNat (edgeCount earlier + 1))
    (hcount : edgeCount (earlier ++ productions) < 2 ^ 64) :
    (productions.zipIdx earlier.length).mapM (fun (production, place) =>
        Outline.block naming (edgeCount ((earlier ++ productions).take place)) production) =
      .ok (definitions.map Definition.render) := by
  induction productions generalizing earlier scope last definitions with
  | nil =>
      obtain ⟨rfl, -⟩ := Lowering.run_pure_eq_ok_iff.mp h
      rfl
  | cons production productions ih =>
      simp only [lowerAll, Lowering.run_bind_eq_ok_iff, Lowering.run_pure_eq_ok_iff] at h
      obtain ⟨definition, next, hfirst, rest, final, hrest, rfl, -⟩ := h
      have hlowers := Production.lowers_to_of_run hfirst
      have hsum : edgeCount (earlier ++ production :: productions) =
          edgeCount earlier + production.symbolicBounds.length + edgeCount productions := by
        simp [edgeCount, Nat.add_assoc]
      have hnames : scope.vars.names production.symbolicBounds.length =
          Outline.variableNames naming (edgeCount earlier) production.symbolicBounds.length :=
        IndexVars.names_eq_variable_names _ hstem hnext (by omega)
      have hlater := ih (earlier ++ [production]) hrest
        (by rw [hlowers.vars, IndexVars.skip_stem, hstem])
        (by
          rw [hlowers.vars, IndexVars.skip_next, hnext, ← UInt64.ofNat_add]
          simp [edgeCount, Nat.add_right_comm])
        (by simpa using hcount)
      rw [List.length_append, List.append_assoc] at hlater
      have hblock : Outline.block naming
          (edgeCount ((earlier ++ production :: productions).take earlier.length)) production =
            .ok definition.render := by
        rw [List.take_left]
        exact hlowers.block_eq hnames
      rw [List.zipIdx_cons, List.mapM_cons]
      simp only [hblock]
      exact congrArg (· >>= fun texts => pure (definition.render :: texts)) hlater

/-- A document is made of the definitions that lowering gives with a new supply of variables. -/
theorem lower_all_of_render_document {naming : Naming} {productions : List Production} {text : String}
    (h : (renderDocument naming productions).1 = .ok text) :
    ∃ definitions last, (lowerAll naming productions).run { vars := { stem := naming.indexStem } } =
      (.ok definitions, last) ∧ text = documentText definitions := by
  rcases hrun : (lowerDocument naming productions).run { vars := { stem := naming.indexStem } }
    with ⟨result, last⟩
  simp only [renderDocument, hrun] at h
  subst h
  simp only [lowerDocument, Lowering.run_bind_eq_ok_iff, Lowering.run_get_eq_ok_iff,
    Lowering.run_pure_eq_ok_iff] at hrun
  obtain ⟨definitions, next, hdefinitions, -, -, -, -, -, -, rfl, -⟩ := hrun
  exact ⟨definitions, next, hdefinitions, rfl⟩

/-- A document that lowering produces is the outline of its productions: every variable is numbered by the
edges before it, every guard is projected by the bounds of its own production, and nothing else of the
run is left in the text. -/
theorem document_text_eq_outline {naming : Naming} {productions : List Production} {text : String}
    (h : (renderDocument naming productions).1 = .ok text)
    (hcount : edgeCount productions < 2 ^ 64) :
    Outline.document naming productions = .ok text := by
  obtain ⟨definitions, last, hdefinitions, rfl⟩ := lower_all_of_render_document h
  have hblocks := lower_all_blocks [] hdefinitions rfl rfl hcount
  let assemble (blocks : List String) : Except RenderError String :=
    pure (Outline.accessorBlock ++ "\n" ++ String.join (blocks.map (· ++ "\n")))
  calc Outline.document naming productions
      = Except.ok (definitions.map Definition.render) >>= assemble :=
        congrArg (· >>= assemble) hblocks
    _ = .ok (Outline.accessorBlock ++ "\n" ++
          String.join ((definitions.map Definition.render).map (· ++ "\n"))) := rfl
    _ = .ok (documentText definitions) := by
        rw [List.map_map, documentText, accessors_eq_accessor_block]
        rfl

/-- Two rules with a bound that comes back in a second alternative and in the second rule, a nested
conjunction and a naming equality. -/
def sharedBounds : List Production :=
  let size := Term.constant "n"
  let offset := Term.select (.constant "B") (.ofUnsigned 3)
  [ { id := 0
      alternatives := [
        [.production 1, .interval ⟨some (.symbolic size), some (.symbolic offset)⟩],
        [.interval ⟨some (.constant 0), some (.symbolic size)⟩],
        [.production 1, .production 2]]
      assertions := [.names size (.constant "field"),
        .all [.bool true, .all [.ge size (.add offset size), .lt offset (.constant "len")]]] },
    { id := 1
      alternatives := [[.interval ⟨some (.symbolic (.add offset size)), some (.symbolic size)⟩]]
      assertions := [.lt (.add offset size) size] } ]

/-- The document of `sharedBounds`. -/
def sharedBoundsText : String :=
  Outline.accessorBlock ++ "\n" ++
  "def Main = \n  block\n    let len = Len\n    let ii1 = n\n    let ii2 = (Select 3)\n" ++
  "    let ii3 = n\n    \x7b L1; \x7d <| \x7b L1; L2; \x7d\n" ++
  "\n    ((ii1 >= (ii2 + ii1))) is true\n    ((ii2 < len)) is true\n\n\n" ++
  "def L1 = \n  block\n    let len = Len\n    let ii4 = ((Select 3) + n)\n    let ii5 = n\n    \n" ++
  "\n    ((ii4 < ii5)) is true\n\n\n"

/-- The document of `sharedBounds` is its outline. -/
theorem document_text_of_shared_bounds :
    (renderDocument {} sharedBounds).1 = .ok sharedBoundsText ∧
      edgeCount sharedBounds < 2 ^ 64 ∧
      Outline.document {} sharedBounds = .ok sharedBoundsText := by
  have htext : (renderDocument {} sharedBounds).1 = .ok sharedBoundsText := by decide +kernel
  have hcount : edgeCount sharedBounds < 2 ^ 64 := by decide
  exact ⟨htext, hcount, document_text_eq_outline htext hcount⟩

end ByteGrammar
