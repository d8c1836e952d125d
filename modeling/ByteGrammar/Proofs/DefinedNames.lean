import ByteGrammar.Proofs.DocumentStructure

/-!
# The names that a document defines

Under an accepted naming a production is found by the name that refers to it:
`names_tell_productions_apart` says which names are equal, and that all of them are identifiers. A document
also defines its accessors. `headerNames` reads the defined names off a text, and `defined_names_nodup_iff`
says when no name of a document is defined twice: numbered rules never meet an accessor, but an entry may
be called like one, which is not refused.
-/

namespace ByteGrammar

/-! ## Identifiers -/

/-- An ASCII letter. -/
def IsAsciiLetter (c : Char) : Prop :=
  ('a' ≤ c ∧ c ≤ 'z') ∨ ('A' ≤ c ∧ c ≤ 'Z')

/-- An ASCII digit. -/
def IsAsciiDigit (c : Char) : Prop :=
  '0' ≤ c ∧ c ≤ '9'

/-- A name that begins with a letter or underscore and goes on with letters, digits and underscores. -/
def AsciiIdentifier (name : String) : Prop :=
  ∃ first rest, name.toList = first :: rest ∧ (IsAsciiLetter first ∨ first = '_') ∧
    ∀ c ∈ rest, IsAsciiLetter c ∨ IsAsciiDigit c ∨ c = '_'

/-- The letters of identifiers are the ASCII letters. -/
theorem is_alpha_iff {c : Char} : c.isAlpha = true ↔ IsAsciiLetter c := by
  simp [Char.isAlpha, Char.isUpper, Char.isLower, IsAsciiLetter, Char.le_def, or_comm]

/-- The digits of identifiers are the ASCII digits. -/
theorem is_digit_iff {c : Char} : c.isDigit = true ↔ IsAsciiDigit c := by
  simp [Char.isDigit, IsAsciiDigit, Char.le_def]

/-- The test for identifiers accepts the ASCII identifiers and nothing else. -/
theorem is_identifier_iff {name : String} : isIdentifier name = true ↔ AsciiIdentifier name := by
  rw [isIdentifier, AsciiIdentifier]
  cases name.toList with
  | nil => simp
  | cons first rest =>
      simp [isIdentifierStart, isIdentifierRest, Char.isAlphanum, is_alpha_iff, is_digit_iff,
        or_assoc]

/-! ## Names of productions -/

namespace Naming

variable {naming : Naming}

/-- The name that refers to a number is that of the definition with this number, unless the number is that
of the entry. -/
theorem rule_name_eq_definition_name_iff (h : naming.validate = .ok ()) {id : UInt32}
    {production : Production} :
    naming.ruleName id = naming.definitionName production ↔ production.id = id ∧ id ≠ 0 := by
  rw [definitionName]
  by_cases hentry : production.isEntry = true
  · rw [if_pos hentry]
    have hzero : production.id = 0 := beq_iff_eq.mp hentry
    refine iff_of_false (entry_name_ne_rule_name h id).symm ?_
    rintro ⟨rfl, hid⟩
    exact hid hzero
  · rw [if_neg hentry, (rule_name_injective naming).eq_iff]
    have hid : production.id ≠ 0 := fun hzero => hentry (beq_iff_eq.mpr hzero)
    constructor
    · rintro rfl
      exact ⟨rfl, hid⟩
    · rintro ⟨rfl, -⟩
      rfl

end Naming

/-- Under an accepted naming, definitions have the same name exactly when their productions have the same
number. A reference has the name of a definition exactly when it has its number and does not refer to the
entry, to which no reference leads. The names of definitions, references and variables are identifiers. -/
theorem names_tell_productions_apart {naming : Naming}
    (h : naming.validate = .ok () ∨ ∃ source, Naming.ofJson? source = .ok naming) :
    (∀ first second : Production,
        naming.definitionName first = naming.definitionName second ↔ first.id = second.id) ∧
      (∀ (id : UInt32) (production : Production),
        naming.ruleName id = naming.definitionName production ↔ production.id = id ∧ id ≠ 0) ∧
      (∀ production : Production, AsciiIdentifier (naming.definitionName production)) ∧
      (∀ id : UInt32, AsciiIdentifier (naming.ruleName id)) ∧
      ∀ vars : IndexVars, vars.stem = naming.indexStem → AsciiIdentifier vars.nextName := by
  have hvalid : naming.validate = .ok () := by
    rcases h with h | ⟨source, h⟩
    · exact h
    · exact (Naming.of_json_eq_ok_iff.mp h).2
  obtain ⟨-, -, hindex, -⟩ := Naming.validate_eq_ok_iff.mp hvalid
  refine ⟨fun _ _ => Naming.definition_name_eq_iff hvalid,
    fun _ _ => Naming.rule_name_eq_definition_name_iff hvalid, fun production => ?_, fun id => ?_,
    fun vars hstem => ?_⟩
  · exact is_identifier_iff.mp (Naming.is_identifier_definition_name hvalid production)
  · exact is_identifier_iff.mp (Naming.is_identifier_rule_name hvalid id)
  · rw [IndexVars.nextName, hstem]
    exact is_identifier_iff.mp (is_identifier_append_number hindex _)

/-- A naming whose stem ends in a digit and begins the name of its entry is accepted, and still tells
productions 1 and 11 apart. -/
theorem names_with_digits_in_the_stem :
    let naming : Naming := { entryName := "L1x", ruleStem := "L1", indexStem := "L1" }
    naming.validate = .ok () ∧ naming.ruleName 1 = "L11" ∧ naming.ruleName 11 = "L111" ∧
      (naming.ruleName 11 ≠ naming.definitionName { id := 1 }) ∧
      naming.ruleName 0 ≠ naming.definitionName { id := 0 } := by
  intro naming
  have hvalid : naming.validate = .ok () := by decide +kernel
  obtain ⟨-, hrules, -⟩ := names_tell_productions_apart (.inl hvalid)
  refine ⟨hvalid, by decide +kernel, by decide +kernel, ?_, ?_⟩
  · rw [Ne, hrules]
    decide
  · rw [Ne, hrules]
    decide

/-! ## Headers -/

/-- The names of the accessors. -/
def accessorNames : List String :=
  ["Select", "Len", "Extract"]

/-- The name that a line introduces, if it is the header of a definition. -/
def headerName? (line : List Char) : Option String :=
  (afterStem? "def ".toList line).map fun rest => String.ofList (rest.takeWhile (· ≠ ' '))

/-- The names that the headers of a text introduce, from first to last. -/
def headerNames (text : String) : List String :=
  (text.toList.splitOn '\n').filterMap headerName?

/-- A text up to a line break and what is behind it introduce their names one after the other. -/
theorem header_names_append (text rest : String) :
    headerNames (text ++ ("\n" ++ rest)) = headerNames text ++ headerNames rest := by
  have hbreak : "\n".toList = ['\n'] := by simp
  rw [headerNames, String.toList_append, String.toList_append, hbreak, List.singleton_append,
    List.splitOn_append_cons_self, List.filterMap_append, headerNames, headerNames]

/-- A line introduces a name if it is a header. -/
theorem header_names_line {line : String} (hline : '\n' ∉ line.toList) :
    headerNames line = (headerName? line.toList).toList := by
  rw [headerNames, List.splitOn_eq_singleton hline, List.filterMap_cons, List.filterMap_nil]
  cases headerName? line.toList <;> rfl

/-- A text of whole lines none of which is a header. -/
def Silent (text : String) : Prop :=
  ∀ rest, headerNames (text ++ rest) = headerNames rest

namespace Silent

/-- A line that does not begin like a header introduces nothing. -/
theorem line {line : String} (hline : '\n' ∉ line.toList) (hhead : line.toList.head? ≠ some 'd') :
    Silent (line ++ "\n") := by
  have hname : headerName? line.toList = none := by
    have hkeyword : "def ".toList = 'd' :: "ef ".toList := by simp
    rw [headerName?, hkeyword]
    cases hchars : line.toList with
    | nil => rfl
    | cons c chars =>
        have hc : ¬ 'd' = c := by
          rintro rfl
          exact hhead (by rw [hchars]; rfl)
        simp [afterStem?, hc]
  intro rest
  rw [String.append_assoc, header_names_append, header_names_line hline, hname]
  rfl

/-- Silent texts one after the other are silent. -/
theorem append {first second : String} (hfirst : Silent first) (hsecond : Silent second) :
    Silent (first ++ second) := by
  intro rest
  rw [String.append_assoc, hfirst, hsecond]

/-- Any number of silent texts are silent. -/
theorem join {α : Type} {write : α → String} {values : List α}
    (h : ∀ value ∈ values, Silent (write value)) : Silent (String.join (values.map write)) := by
  induction values with
  | nil =>
      intro rest
      rw [List.map_nil, String.join_nil, String.empty_append]
  | cons value values ih =>
      rw [List.forall_mem_cons] at h
      rw [List.map_cons, String.join_cons]
      exact h.1.append (ih h.2)

end Silent

/-- The text of a definition that keeps to its lines introduces the name of the definition. -/
theorem header_names_definition {definition : Definition} (h : definition.Lined) (rest : String) :
    headerNames (definition.render ++ "\n" ++ rest) = definition.name :: headerNames rest := by
  have hname : '\n' ∉ definition.name.toList := not_mem_of_is_identifier h.name (by decide)
  have hspace : ' ' ∉ definition.name.toList := not_mem_of_is_identifier h.name (by decide)
  have hheader : headerName? ("def " ++ definition.name ++ " = ").toList = some definition.name := by
    have hafter : afterStem? "def ".toList ("def " ++ definition.name ++ " = ").toList =
        some (definition.name.toList ++ ' ' :: ['=', ' ']) := by
      rw [after_stem_eq_some_iff]
      simp
    have htake : (definition.name.toList ++ ' ' :: ['=', ' ']).takeWhile (· ≠ ' ') =
        definition.name.toList := by
      have hkept : ∀ c ∈ definition.name.toList, decide (c ≠ ' ') = true := fun c hc =>
        decide_eq_true (ne_of_mem_of_not_mem hc hspace)
      rw [List.takeWhile_append_of_pos hkept]
      simp
    rw [headerName?, hafter, Option.map_some, htake, String.ofList_toList]
  have hbindings : Silent (String.join (definition.bindings.map Binding.render)) := by
    refine Silent.join fun binding hbinding => ?_
    have hbindingName : '\n' ∉ binding.name.toList :=
      not_mem_of_is_identifier (h.bindings binding hbinding).name (by decide)
    exact Silent.line (by simpa using ⟨hbindingName, (h.bindings binding hbinding).text⟩) (by simp)
  have halternatives :
      Silent ("    " ++ " <| ".intercalate (definition.alternatives.map Definition.renderSequence) ++
        "\n") :=
    Silent.line (by simpa using line_break_not_mem_alternatives h.rules) (by simp)
  have hguards : Silent (String.join (definition.guards.map Definition.endedGuard)) :=
    Silent.join fun guard hguard => Silent.line (by simpa using h.guards guard hguard) (by simp)
  have hblock : Silent ("  block" ++ "\n") := Silent.line (by simp) (by simp)
  have hlength : Silent ("    let len = Len" ++ "\n") := Silent.line (by simp) (by simp)
  have hempty : Silent ("" ++ "\n") := Silent.line (by simp) (by simp)
  -- The line break before each guard is counted to the line before it.
  have htext : definition.render ++ "\n" ++ rest =
      ("def " ++ definition.name ++ " = ") ++ ("\n" ++ (("  block" ++ "\n") ++
        (("    let len = Len" ++ "\n") ++ (String.join (definition.bindings.map Binding.render) ++
        (("    " ++ " <| ".intercalate (definition.alternatives.map Definition.renderSequence) ++
          "\n") ++ (("" ++ "\n") ++
        (String.join (definition.guards.map Definition.endedGuard) ++
        (("" ++ "\n") ++ (("" ++ "\n") ++ rest))))))))) := by
    have hguardLines := join_guards_append definition.guards ("\n" ++ ("\n" ++ rest))
    have hbody : " = \n  block\n    let len = Len\n" =
        " = " ++ ("\n" ++ ("  block" ++ ("\n" ++ ("    let len = Len" ++ "\n")))) := rfl
    have hend : "\n\n" = "\n" ++ "\n" := rfl
    simp only [Definition.render, hbody, hend, String.append_assoc, String.empty_append, hguardLines]
  have hline : '\n' ∉ ("def " ++ definition.name ++ " = ").toList := by simpa using hname
  rw [htext, header_names_append, header_names_line hline, hheader, hblock, hlength, hbindings,
    halternatives, hempty, hguards, hempty, hempty]
  rfl

/-- A text that is a header and lines that do not begin like one introduces the name of the header. -/
theorem header_names_block {text : String} (header name : String) (lines : List String)
    (htext : text = header ++ ("\n" ++ String.join (lines.map (· ++ "\n"))))
    (hheader : '\n' ∉ header.toList) (hname : headerName? header.toList = some name)
    (hlines : ∀ line ∈ lines, '\n' ∉ line.toList ∧ line.toList.head? ≠ some 'd') (rest : String) :
    headerNames (text ++ rest) = name :: headerNames rest := by
  have hsilent : Silent (String.join (lines.map (· ++ "\n"))) :=
    Silent.join fun line hline => Silent.line (hlines line hline).1 (hlines line hline).2
  rw [htext, String.append_assoc, String.append_assoc, header_names_append,
    header_names_line hheader, hname, hsilent]
  rfl

/-- The accessors introduce their names. -/
theorem header_names_accessors : headerNames accessors = accessorNames := by
  have hselect (rest : String) :
      headerNames (selectAccessor ++ rest) = "Select" :: headerNames rest :=
    header_names_block "def Select (N : uint 64) =" "Select"
      ["  block", "    let cur = GetStream", "    let a = bytesOfStream cur",
        "    (Index a N) as uint 64", ""]
      (by decide +kernel) (by decide +kernel) (by decide +kernel) (by decide +kernel) rest
  have hlen (rest : String) : headerNames (lenAccessor ++ rest) = "Len" :: headerNames rest :=
    header_names_block "def Len =" "Len"
      ["  block", "    let cur = GetStream", "    let a = bytesOfStream cur", "    length a", ""]
      (by decide +kernel) (by decide +kernel) (by decide +kernel) (by decide +kernel) rest
  have hextract (rest : String) :
      headerNames (extractAccessor ++ rest) = "Extract" :: headerNames rest :=
    header_names_block "def Extract (High : uint 64) (Low : uint 64) (N : uint 64) =" "Extract"
      ["  block", "    let mask = (1 << (High - Low + 1)) - 1", "    (N >> Low) .&. mask", ""]
      (by decide +kernel) (by decide +kernel) (by decide +kernel) (by decide +kernel) rest
  have hempty : headerNames "" = [] := by decide
  have htext : accessors = selectAccessor ++ (lenAccessor ++ (extractAccessor ++ "")) := by
    rw [accessors, String.append_empty, String.append_assoc]
  rw [htext, hselect, hlen, hextract, hempty, accessorNames]

/-- A document whose definitions keep to their lines introduces the accessors and the definitions. -/
theorem header_names_document {definitions : List Definition}
    (h : ∀ definition ∈ definitions, definition.Lined) :
    headerNames (documentText definitions) = accessorNames ++ definitions.map Definition.name := by
  rw [documentText, String.append_assoc, header_names_append, header_names_accessors,
    List.append_right_inj]
  induction definitions with
  | nil => rfl
  | cons definition definitions ih =>
      rw [List.forall_mem_cons] at h
      rw [List.map_cons, String.join_cons, header_names_definition h.1, ih h.2, List.map_cons]

/-! ## Names defined twice -/

/-- Lowered productions are defined under their names, in order. -/
theorem lower_all_names {naming : Naming} {productions : List Production} {scope last : Scope}
    {definitions : List Definition}
    (h : (lowerAll naming productions).run scope = (.ok definitions, last)) :
    definitions.map Definition.name = productions.map naming.definitionName := by
  induction productions generalizing scope last definitions with
  | nil =>
      obtain ⟨rfl, -⟩ := Lowering.run_pure_eq_ok_iff.mp h
      rfl
  | cons production productions ih =>
      simp only [lowerAll, Lowering.run_bind_eq_ok_iff, Lowering.run_pure_eq_ok_iff] at h
      obtain ⟨definition, next, hfirst, rest, final, hrest, rfl, -⟩ := h
      rw [List.map_cons, List.map_cons, (Production.lowers_to_of_run hfirst).name, ih hrest]

/-- No accessor is called like a numbered rule, because no accessor ends in a digit. -/
theorem rule_name_not_mem_accessor_names (naming : Naming) (id : UInt32) :
    naming.ruleName id ∉ accessorNames := by
  intro hmem
  have hlast : ∀ name ∈ accessorNames, ∀ c ∈ name.toList.getLast?, c.isDigit = false := by
    simp [accessorNames]
  have hnumber := number_ne_nil id.toNat
  have hdigit : ((toString id.toNat).toList.getLast hnumber).isDigit = true :=
    is_digit_of_mem_number (List.getLast_mem hnumber)
  have hend : (naming.ruleName id).toList.getLast? =
      some ((toString id.toNat).toList.getLast hnumber) := by
    rw [Naming.ruleName, String.toList_append, List.getLast?_append_of_ne_nil _ hnumber,
      List.getLast?_eq_some_getLast hnumber]
  rw [hlast _ hmem _ hend] at hdigit
  cases hdigit

/-- The names that the accessors and the definitions of a grammar introduce are different exactly when the
entry, if there is one, is not called like an accessor. -/
theorem names_nodup_iff {naming : Naming} {productions : List Production}
    (hnaming : naming.validate = .ok ()) (hids : (productions.map Production.id).Nodup) :
    (accessorNames ++ productions.map naming.definitionName).Nodup ↔
      ∀ production ∈ productions, production.isEntry = true → naming.entryName ∉ accessorNames := by
  have haccessors : accessorNames.Nodup := by decide
  have hdefinitions : (productions.map naming.definitionName).Nodup := by
    rw [List.Nodup, List.pairwise_map] at hids ⊢
    exact hids.imp fun hne hname => hne ((Naming.definition_name_eq_iff hnaming).mp hname)
  rw [List.nodup_append]
  constructor
  · rintro ⟨-, -, hapart⟩ production hproduction hentry hmem
    have hname : naming.definitionName production = naming.entryName := if_pos hentry
    exact hapart _ hmem _ (List.mem_map_of_mem hproduction) hname.symm
  · intro h
    refine ⟨haccessors, hdefinitions, ?_⟩
    rintro accessor haccessor _ hdefined rfl
    obtain ⟨production, hproduction, hname⟩ := List.mem_map.mp hdefined
    rw [Naming.definitionName] at hname
    split at hname
    · next hentry => exact h production hproduction hentry (hname ▸ haccessor)
    · exact rule_name_not_mem_accessor_names naming production.id (hname ▸ haccessor)

/-- A document of productions with different numbers, under an accepted naming, defines the accessors and
one name per production, in this order; a document that keeps its terms on one line shows as much in its
headers. No name is defined twice exactly when the entry, if there is one, is not called like an accessor:
numbered rules are never called so, but the entry may be. -/
theorem defined_names_nodup_iff {naming : Naming} {productions : List Production} {text : String}
    (hnaming : naming.validate = .ok ()) (hids : (productions.map Production.id).Nodup)
    (hrender : (renderDocument naming productions).1 = .ok text) :
    ∃ definitions, text = documentText definitions ∧
      definitions.map Definition.name = productions.map naming.definitionName ∧
      ((accessorNames ++ definitions.map Definition.name).Nodup ↔
        ∀ production ∈ productions, production.isEntry = true → naming.entryName ∉ accessorNames) ∧
      ((∀ production ∈ productions, production.KeepsLines) →
        headerNames text = accessorNames ++ definitions.map Definition.name) := by
  obtain ⟨definitions, last, hrun, rfl⟩ := lower_all_of_render_document hrender
  have hnames := lower_all_names hrun
  refine ⟨definitions, rfl, hnames, ?_, fun hlines => ?_⟩
  · rw [hnames]
    exact names_nodup_iff hnaming hids
  · exact header_names_document (lower_all_lined hnaming hlines rfl hrun)

/-- The text of a definition without bindings, alternatives and guards. -/
def emptyDefinitionText (name : String) : String :=
  "def " ++ name ++ " = \n  block\n    let len = Len\n    \n\n\n"

/-- Names that begin like those of accessors are different from them. -/
theorem defined_names_like_accessors :
    let naming : Naming := { entryName := "Selects", ruleStem := "Len" }
    let productions : List Production := [{ id := 0 }, { id := 4 }]
    let text := accessors ++ "\n" ++ (emptyDefinitionText "Selects" ++ "\n") ++
      (emptyDefinitionText "Len4" ++ "\n")
    naming.validate = .ok () ∧ (productions.map Production.id).Nodup ∧
      (renderDocument naming productions).1 = .ok text ∧
      headerNames text = ["Select", "Len", "Extract", "Selects", "Len4"] ∧
      (headerNames text).Nodup := by
  intro naming productions text
  have hnaming : naming.validate = .ok () := by decide +kernel
  have hids : (productions.map Production.id).Nodup := by decide
  have hrender : (renderDocument naming productions).1 = .ok text := by decide +kernel
  have hlines : ∀ production ∈ productions, production.KeepsLines := by
    intro production hproduction
    simp only [productions, List.mem_cons, List.not_mem_nil, or_false] at hproduction
    obtain rfl | rfl := hproduction <;> exact ⟨by simp [Production.symbolicBounds], by simp⟩
  have hentry : ∀ production ∈ productions, production.isEntry = true →
      naming.entryName ∉ accessorNames := by
    intro _ _ _
    decide +kernel
  obtain ⟨definitions, -, hnames, hnodup, hheaders⟩ := defined_names_nodup_iff hnaming hids hrender
  rw [hheaders hlines, hnames]
  exact ⟨hnaming, hids, hrender, by decide +kernel, hnames ▸ hnodup.mpr hentry⟩

/-- An accepted naming can call the entry like an accessor, which is then defined twice. -/
theorem entry_defines_accessor_again :
    let naming : Naming := { entryName := "Select" }
    let productions : List Production := [{ id := 0 }]
    let text := accessors ++ "\n" ++ (emptyDefinitionText "Select" ++ "\n")
    naming.validate = .ok () ∧ (productions.map Production.id).Nodup ∧
      (renderDocument naming productions).1 = .ok text ∧
      headerNames text = ["Select", "Len", "Extract", "Select"] ∧ ¬ (headerNames text).Nodup ∧
      ¬ (accessorNames ++ productions.map naming.definitionName).Nodup := by
  intro naming productions text
  have hheaders : headerNames text = ["Select", "Len", "Extract", "Select"] := by
    have htext : text =
        accessors ++ ("\n" ++ (emptyDefinitionText "Select" ++ "\n")) := String.append_assoc
    rw [htext, header_names_append, header_names_accessors]
    decide +kernel
  refine ⟨by decide +kernel, by decide, by decide +kernel, hheaders, ?_, by decide +kernel⟩
  rw [hheaders]
  decide +kernel

end ByteGrammar
