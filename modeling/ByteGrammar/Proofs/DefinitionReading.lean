import ByteGrammar.Document.Basic
import ByteGrammar.Proofs.ValidNaming

/-!
# Definitions read back from their text

A document is a sequence of lines, and what a line holds is known from how it begins and from where the
character that ends a part comes first. `SelfDelimiting` says that of a writer: where its text stops can be
told from the text, whatever follows. Lines, sequences and definitions are self-delimiting as long as no
part holds the character that ends it (`Definition.Lined`), and so `document_text_injective` says that the
text of a document determines its definitions.
-/

namespace ByteGrammar

/-! ## Self-delimiting texts -/

/-- The values that fit are told, together with whatever follows, from the text that begins with theirs. -/
def SelfDelimiting {α : Type} (Fits : α → Prop) (write : α → String) : Prop :=
  ∀ first second : α, ∀ rest other : String, Fits first → Fits second →
    write first ++ rest = write second ++ other → first = second ∧ rest = other

/-- A text that does not go on with a value that fits. -/
def Stops {α : Type} (Fits : α → Prop) (write : α → String) (rest : String) : Prop :=
  ∀ value : α, ∀ other : String, Fits value → write value ++ other ≠ rest

/-- Two lists are cut at the first place of an item that is in neither part before it. -/
theorem list_cut_at_first {α : Type} {stop : α} {first second rest other : List α}
    (hfirst : stop ∉ first) (hsecond : stop ∉ second)
    (h : first ++ stop :: rest = second ++ stop :: other) : first = second ∧ rest = other := by
  induction first generalizing second with
  | nil =>
      cases second with
      | nil => exact ⟨rfl, (List.cons.inj h).2⟩
      | cons head second => exact absurd ((List.cons.inj h).1 ▸ List.mem_cons_self) hsecond
  | cons head first ih =>
      cases second with
      | nil => exact absurd ((List.cons.inj h).1.symm ▸ List.mem_cons_self) hfirst
      | cons head' second =>
          obtain ⟨rfl, htail⟩ := List.cons.inj h
          obtain ⟨rfl, hrest⟩ := ih (fun hmem => hfirst (List.mem_cons_of_mem _ hmem))
            (fun hmem => hsecond (List.mem_cons_of_mem _ hmem)) htail
          exact ⟨rfl, hrest⟩

/-- Two texts are cut at a mark whose first character is in neither part before it. -/
theorem cut_at_mark {mark : String} {c : Char} (hmark : mark.toList.head? = some c)
    {first second rest other : String} (hfirst : c ∉ first.toList) (hsecond : c ∉ second.toList)
    (h : first ++ (mark ++ rest) = second ++ (mark ++ other)) : first = second ∧ rest = other := by
  obtain ⟨tail, htail⟩ := List.head?_eq_some_iff.mp hmark
  have hchars := congrArg String.toList h
  simp only [String.toList_append, htail, List.cons_append] at hchars
  obtain ⟨hparts, hrests⟩ := list_cut_at_first hfirst hsecond hchars
  exact ⟨String.toList_inj.mp hparts, String.toList_inj.mp (List.append_cancel_left hrests)⟩

namespace SelfDelimiting

variable {α : Type} {Fits : α → Prop} {write : α → String}

/-- Values that fit one after the other are told from the text up to where no further one follows. -/
theorem join (h : SelfDelimiting Fits write) {values others : List α} {rest other : String}
    (hvalues : ∀ value ∈ values, Fits value) (hothers : ∀ value ∈ others, Fits value)
    (hrest : Stops Fits write rest) (hother : Stops Fits write other)
    (heq : String.join (values.map write) ++ rest = String.join (others.map write) ++ other) :
    values = others ∧ rest = other := by
  induction values generalizing others with
  | nil =>
      cases others with
      | nil => exact ⟨rfl, by simpa using heq⟩
      | cons value others =>
          rw [List.map_cons, String.join_cons, String.append_assoc] at heq
          exact absurd heq.symm (by
            simpa using hrest value _ (hothers value List.mem_cons_self))
  | cons value values ih =>
      have hvalue := hvalues value List.mem_cons_self
      cases others with
      | nil =>
          rw [List.map_cons, String.join_cons, String.append_assoc] at heq
          exact absurd heq (by simpa using hother value _ hvalue)
      | cons value' others =>
          simp only [List.map_cons, String.join_cons, String.append_assoc] at heq
          obtain ⟨rfl, htail⟩ := h value value' _ _ hvalue (hothers value' List.mem_cons_self) heq
          obtain ⟨rfl, hends⟩ := ih (fun v hv => hvalues v (List.mem_cons_of_mem _ hv))
            (fun v hv => hothers v (List.mem_cons_of_mem _ hv)) htail
          exact ⟨rfl, hends⟩

/-- Values whose texts are never empty are told from their texts put together. -/
theorem join_injective (h : SelfDelimiting Fits write)
    (hne : ∀ value, Fits value → write value ≠ "") {values others : List α}
    (hvalues : ∀ value ∈ values, Fits value) (hothers : ∀ value ∈ others, Fits value)
    (heq : String.join (values.map write) = String.join (others.map write)) : values = others := by
  have hstops : Stops Fits write "" := by
    intro value other hvalue hempty
    exact hne value hvalue (String.append_eq_empty_iff.mp hempty).1
  refine (h.join hvalues hothers hstops hstops ?_).1
  rw [heq]

end SelfDelimiting

/-! ## The parts of a definition -/

/-- An identifier has no character in it that cannot stand inside one. -/
theorem not_mem_of_is_identifier {name : String} (h : isIdentifier name = true) {c : Char}
    (hc : isIdentifierRest c = false) : c ∉ name.toList := by
  intro hmem
  rw [is_identifier_rest_of_mem h hmem] at hc
  cases hc

/-- A binding keeps to its line when its name is an identifier and its text has no line break. -/
structure Binding.Lined (binding : Binding) : Prop where
  name : isIdentifier binding.name = true
  text : '\n' ∉ binding.text.toList

/-- The line of a binding tells its name up to a space and its text up to the line break. -/
theorem binding_self_delimiting : SelfDelimiting Binding.Lined Binding.render := by
  intro first second rest other hfirst hsecond h
  obtain ⟨firstName, firstText⟩ := first
  obtain ⟨secondName, secondText⟩ := second
  simp only [Binding.render, String.append_assoc, String.append_right_inj] at h
  obtain ⟨rfl, htexts⟩ := cut_at_mark (c := ' ') (by simp)
    (not_mem_of_is_identifier hfirst.name (by decide))
    (not_mem_of_is_identifier hsecond.name (by decide)) h
  obtain ⟨rfl, hrests⟩ := cut_at_mark (c := '\n') (by simp) hfirst.text hsecond.text htexts
  exact ⟨rfl, hrests⟩

/-- The line of alternatives does not begin like that of a binding. -/
theorem stops_of_alternatives {line : String} (hline : line.toList.head? ≠ some 'l')
    (rest : String) : Stops Binding.Lined Binding.render ("    " ++ (line ++ ("\n" ++ rest))) := by
  intro binding other _ h
  rw [Binding.render, show "    let " = "    " ++ "let " from rfl] at h
  simp only [String.append_assoc, String.append_right_inj] at h
  have hhead := congrArg (fun text => text.toList.head?) h
  cases hchars : line.toList with
  | nil => simp [hchars] at hhead
  | cons c chars =>
      rw [hchars] at hline
      simp [hchars] at hhead
      exact hline (congrArg some hhead.symm)

/-- The rules of a sequence are told up to the semicolons and the closing brace. -/
theorem sequence_self_delimiting : SelfDelimiting (fun rules => ∀ rule ∈ rules, isIdentifier rule = true)
    Definition.renderSequence := by
  have hrule : SelfDelimiting (fun rule => isIdentifier rule = true) (· ++ "; ") := by
    intro first second rest other hfirst hsecond h
    simp only [String.append_assoc] at h
    exact cut_at_mark (c := ';') (by simp) (not_mem_of_is_identifier hfirst (by decide))
      (not_mem_of_is_identifier hsecond (by decide)) h
  have hstops (rest : String) :
      Stops (fun rule => isIdentifier rule = true) (· ++ "; ") ("\x7d" ++ rest) := by
    intro rule other hidentifier h
    have hbrace : '}' ∉ rule.toList := not_mem_of_is_identifier hidentifier (by decide)
    have hhead := congrArg (fun text => text.toList.head?) h
    cases hchars : rule.toList with
    | nil => simp [hchars] at hhead
    | cons c chars =>
        simp [hchars] at hhead
        exact hbrace (hchars ▸ hhead ▸ List.mem_cons_self)
  intro first second rest other hfirst hsecond h
  simp only [Definition.renderSequence, String.append_assoc, String.append_right_inj] at h
  obtain ⟨rfl, hends⟩ := hrule.join hfirst hsecond (hstops rest) (hstops other) h
  exact ⟨rfl, (String.append_right_inj _).mp hends⟩

/-- Texts with a separator between them begin with the first, and each further one has the separator in
front. -/
theorem intercalate_eq_append_join (separator text : String) (texts : List String) :
    separator.intercalate (text :: texts) = text ++ String.join (texts.map (separator ++ ·)) := by
  induction texts generalizing text with
  | nil => simp
  | cons next texts ih =>
      rw [String.intercalate_cons_cons, ih, List.map_cons, String.join_cons]
      simp only [String.append_assoc]

/-- The alternatives are told from their line. -/
theorem alternatives_injective {first second : List (List String)}
    (hfirst : ∀ rules ∈ first, ∀ rule ∈ rules, isIdentifier rule = true)
    (hsecond : ∀ rules ∈ second, ∀ rule ∈ rules, isIdentifier rule = true)
    (h : " <| ".intercalate (first.map Definition.renderSequence) =
      " <| ".intercalate (second.map Definition.renderSequence)) : first = second := by
  have hlater : SelfDelimiting (fun rules => ∀ rule ∈ rules, isIdentifier rule = true)
      (fun rules => " <| " ++ Definition.renderSequence rules) := by
    intro left right rest other hleft hright heq
    simp only [String.append_assoc, String.append_right_inj] at heq
    exact sequence_self_delimiting left right rest other hleft hright heq
  cases first with
  | nil =>
      cases second with
      | nil => rfl
      | cons rules second =>
          rw [List.map_cons, intercalate_eq_append_join] at h
          simp [Definition.renderSequence] at h
  | cons rules first =>
      cases second with
      | nil =>
          rw [List.map_cons, intercalate_eq_append_join] at h
          simp [Definition.renderSequence] at h
      | cons rules' second =>
          rw [List.forall_mem_cons] at hfirst hsecond
          simp only [List.map_cons, intercalate_eq_append_join, List.map_map] at h
          obtain ⟨rfl, hrest⟩ := sequence_self_delimiting rules rules' _ _ hfirst.1 hsecond.1 h
          obtain rfl := hlater.join_injective (by simp) hfirst.2 hsecond.2 hrest
          rfl

/-- A sequence has no line break in it. -/
theorem line_break_not_mem_sequence {rules : List String}
    (h : ∀ rule ∈ rules, isIdentifier rule = true) :
    '\n' ∉ (Definition.renderSequence rules).toList := by
  have hrules : ∀ rule ∈ rules, '\n' ∉ rule.toList := fun rule hrule =>
    not_mem_of_is_identifier (h rule hrule) (by decide)
  simpa [Definition.renderSequence, String.toList_join] using hrules

/-- The line of alternatives has no line break in it. -/
theorem line_break_not_mem_alternatives {alternatives : List (List String)}
    (h : ∀ rules ∈ alternatives, ∀ rule ∈ rules, isIdentifier rule = true) :
    '\n' ∉ (" <| ".intercalate (alternatives.map Definition.renderSequence)).toList := by
  cases alternatives with
  | nil => simp
  | cons rules alternatives =>
      rw [List.forall_mem_cons] at h
      have hfirst := line_break_not_mem_sequence h.1
      have hlater : ∀ rules ∈ alternatives, '\n' ∉ (Definition.renderSequence rules).toList :=
        fun rules hrules => line_break_not_mem_sequence (h.2 rules hrules)
      rw [List.map_cons, intercalate_eq_append_join]
      simpa [String.toList_join, hfirst] using hlater

/-- The line of a guard, ended by its own line break instead of that of the line before it. -/
def Definition.endedGuard (guard : String) : String :=
  "    (" ++ guard ++ ") is true" ++ "\n"

/-- Line breaks before the guards and after the last one are line breaks after each guard. -/
theorem join_guards_append (guards : List String) (rest : String) :
    String.join (guards.map Definition.renderGuard) ++ ("\n" ++ rest) =
      "\n" ++ (String.join (guards.map Definition.endedGuard) ++ rest) := by
  induction guards with
  | nil => simp
  | cons guard guards ih =>
      rw [List.map_cons, List.map_cons, String.join_cons, String.join_cons, String.append_assoc, ih,
        Definition.renderGuard, Definition.endedGuard]
      rw [show "\n    (" = "\n" ++ "    (" from rfl]
      simp only [String.append_assoc]

/-- A guard is told from its line, up to the line break. -/
theorem guard_self_delimiting :
    SelfDelimiting (fun guard => '\n' ∉ guard.toList) Definition.endedGuard := by
  intro first second rest other hfirst hsecond h
  have hline (guard : String) (hguard : '\n' ∉ guard.toList) :
      '\n' ∉ ("    (" ++ guard ++ ") is true").toList := by
    simpa using hguard
  have hcut : ("    (" ++ first ++ ") is true") ++ ("\n" ++ rest) =
      ("    (" ++ second ++ ") is true") ++ ("\n" ++ other) := by
    simpa only [Definition.endedGuard, String.append_assoc] using h
  obtain ⟨hlines, hrest⟩ := cut_at_mark (c := '\n') (by simp) (hline first hfirst)
    (hline second hsecond) hcut
  have hguards := (String.append_left_inj _).mp hlines
  exact ⟨(String.append_right_inj _).mp hguards, hrest⟩

/-- What follows the guards of a definition does not begin like one. -/
theorem stops_of_guards (rest : String) :
    Stops (fun guard => '\n' ∉ guard.toList) Definition.endedGuard ("\n" ++ rest) := by
  intro guard other _ h
  have hhead := congrArg (fun text => text.toList.head?) h
  simp [Definition.endedGuard] at hhead

/-! ## Definitions and documents -/

/-- A definition keeps to its lines when its names are identifiers and its texts have no line break. -/
structure Definition.Lined (definition : Definition) : Prop where
  name : isIdentifier definition.name = true
  bindings : ∀ binding ∈ definition.bindings, binding.Lined
  rules : ∀ rules ∈ definition.alternatives, ∀ rule ∈ rules, isIdentifier rule = true
  guards : ∀ guard ∈ definition.guards, '\n' ∉ guard.toList

/-- The line of alternatives begins with a brace, if it is not empty. -/
theorem head_of_alternatives (alternatives : List (List String)) :
    (" <| ".intercalate (alternatives.map Definition.renderSequence)).toList.head? ≠ some 'l' := by
  cases alternatives with
  | nil => simp
  | cons rules alternatives =>
      rw [List.map_cons, intercalate_eq_append_join]
      simp [Definition.renderSequence]

/-- A definition with an empty line behind it is told part by part from its text. -/
theorem definition_self_delimiting :
    SelfDelimiting Definition.Lined fun definition => definition.render ++ "\n" := by
  intro first second rest other hfirst hsecond h
  obtain ⟨firstName, firstBindings, firstAlternatives, firstGuards⟩ := first
  obtain ⟨secondName, secondBindings, secondAlternatives, secondGuards⟩ := second
  simp only [Definition.render, String.append_assoc, String.append_right_inj] at h
  obtain ⟨rfl, hbody⟩ := cut_at_mark (c := ' ') (by simp)
    (not_mem_of_is_identifier hfirst.name (by decide))
    (not_mem_of_is_identifier hsecond.name (by decide)) h
  obtain ⟨rfl, hlines⟩ := binding_self_delimiting.join hfirst.bindings hsecond.bindings
    (stops_of_alternatives (head_of_alternatives _) _)
    (stops_of_alternatives (head_of_alternatives _) _) hbody
  obtain ⟨halternatives, hguards⟩ := cut_at_mark (c := '\n') (by simp)
    (line_break_not_mem_alternatives hfirst.rules)
    (line_break_not_mem_alternatives hsecond.rules) ((String.append_right_inj _).mp hlines)
  obtain rfl := alternatives_injective hfirst.rules hsecond.rules halternatives
  rw [show "\n\n" = "\n" ++ "\n" from rfl, String.append_assoc, String.append_assoc,
    join_guards_append, join_guards_append] at hguards
  obtain ⟨rfl, hends⟩ := guard_self_delimiting.join hfirst.guards hsecond.guards
    (stops_of_guards _) (stops_of_guards _) ((String.append_right_inj _).mp hguards)
  exact ⟨rfl, (String.append_right_inj _).mp ((String.append_right_inj _).mp hends)⟩

/-- The text of a document determines its definitions, as long as these keep to their lines. -/
theorem document_text_injective {first second : List Definition}
    (hfirst : ∀ definition ∈ first, definition.Lined)
    (hsecond : ∀ definition ∈ second, definition.Lined)
    (h : documentText first = documentText second) : first = second := by
  rw [documentText, documentText, String.append_right_inj] at h
  have hne : ∀ definition : Definition, definition.Lined → definition.render ++ "\n" ≠ "" := by
    intro definition _ hempty
    simp at hempty
  exact definition_self_delimiting.join_injective hne hfirst hsecond h

end ByteGrammar
