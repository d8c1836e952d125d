import ByteGrammar.Grammar.File
import ByteGrammar.Proofs.JsonShapes
import Mathlib

/-!
# Reading grammars back

The text that is written for a grammar is read as that grammar, as long as its arrays and objects nest no
deeper than a reader allows. If they nest deeper, it is the nesting that is reported.
-/

namespace ByteGrammar

open Json

/-- A literal is read back. -/
theorem Numeral.decodes (value : Numeral) : Decodes Numeral.read value.toJson value := by
  cases value with
  | unsigned value =>
      exact decodes_tagged ⟨_, rfl⟩ (fun _ => ⟨_, _, rfl, rfl⟩)
        ((decodes_unsigned64 value).map Numeral.unsigned)
  | signed value =>
      exact decodes_tagged ⟨_, rfl⟩ (fun _ => ⟨_, _, rfl, rfl⟩)
        ((decodes_signed64 value).map Numeral.signed)

/-- The parts of a rational parameter are read back. -/
theorem Param.decodes_rational (num den : Int64) :
    Decodes Param.readRational (.object [("num", .int num.toInt), ("den", .int den.toInt)])
      (.rational num den) := by
  exact decodes_record ⟨_, rfl⟩ (fun _ => rfl) (fun _ => rfl)
    (.field (fun _ => rfl) (decodes_signed64 num) (.field (fun _ => rfl) (decodes_signed64 den) (.nil _)))
    (fun _ => rfl)

/-- A list of values is read back if each of them is. -/
theorem decodes_map {α : Type} {item : Nat → Reader α} {toJson : α → Json} {values : List α}
    (h : ∀ value ∈ values, Decodes item (toJson value) value) :
    Decodes (fun nesting => Reader.list (Reader.within item nesting)) (.array (values.map toJson))
      values :=
  decodes_list (List.forall₂_map_left_iff.mpr (List.forall₂_same.mpr h))

section Parts

/-! What stands behind the tag of a term is read back if the terms and parameters in it are. -/

variable {lhs rhs : Term} {args : List Term} {params : List Param}

/-- A list of terms is read back. -/
theorem decodes_terms (hargs : ∀ arg ∈ args, Decodes Term.read arg.toJson arg) :
    Decodes readTerms (.array (termsToJson args)) args := by
  rw [terms_to_json_eq_map]
  exact (decodes_map hargs).congr fun nesting => by cases nesting <;> rfl

/-- A list of parameters is read back. -/
theorem decodes_params (hparams : ∀ param ∈ params, Decodes Param.read param.toJson param) :
    Decodes readParams (.array (paramsToJson params)) params := by
  rw [params_to_json_eq_map]
  exact (decodes_map hparams).congr fun nesting => by cases nesting <;> rfl

/-- An arithmetic operator with its operands is read back. -/
theorem decodes_arith (op : ArithOp) (hargs : ∀ arg ∈ args, Decodes Term.read arg.toJson arg) :
    Decodes readArith (.array [.ofName op, .array (termsToJson args)]) (op, args) :=
  (decodes_pair "tuple variant Term::Arith" (decodes_bare_tag op) (decodes_terms hargs)).congr
    fun nesting => by cases nesting <;> rfl

/-- A connective with its operands is read back. -/
theorem decodes_logic (op : LogicOp) (hargs : ∀ arg ∈ args, Decodes Term.read arg.toJson arg) :
    Decodes readLogic (.array [.ofName op, .array (termsToJson args)]) (op, args) :=
  (decodes_pair "tuple variant Term::Logic" (decodes_bare_tag op) (decodes_terms hargs)).congr
    fun nesting => by cases nesting <;> rfl

/-- A comparison with its two sides is read back. -/
theorem decodes_cmp (op : CmpOp) (hlhs : Decodes Term.read lhs.toJson lhs)
    (hrhs : Decodes Term.read rhs.toJson rhs) :
    Decodes readCmp (.array [.ofName op, lhs.toJson, rhs.toJson]) (op, lhs, rhs) :=
  (decodes_triple "tuple variant Term::Cmp" (decodes_bare_tag op) hlhs hrhs).congr
    fun nesting => by cases nesting <;> rfl

/-- The two sides of an inequality are read back. -/
theorem decodes_distinct (hlhs : Decodes Term.read lhs.toJson lhs)
    (hrhs : Decodes Term.read rhs.toJson rhs) :
    Decodes readDistinct (.array [lhs.toJson, rhs.toJson]) (lhs, rhs) :=
  (decodes_pair "tuple variant Term::Distinct" hlhs hrhs).congr fun nesting => by cases nesting <;> rfl

/-- The fields of an equality are read back. -/
theorem decodes_eq (naming : Bool) (hlhs : Decodes Term.read lhs.toJson lhs)
    (hrhs : Decodes Term.read rhs.toJson rhs) :
    Decodes readEq (.object [("lhs", lhs.toJson), ("rhs", rhs.toJson), ("naming", .bool naming)])
      (.eq lhs rhs naming) :=
  decodes_record ⟨_, rfl⟩ (fun _ => rfl) (fun _ => rfl)
    (.field (fun _ => rfl) hlhs <| .field (fun _ => rfl) hrhs <|
      .field (fun _ => rfl) (decodes_boolean naming) (.nil _))
    (fun _ => rfl)

/-- The fields of a byte read are read back. -/
theorem decodes_select (hlhs : Decodes Term.read lhs.toJson lhs)
    (hrhs : Decodes Term.read rhs.toJson rhs) :
    Decodes readSelect (.object [("array", lhs.toJson), ("index", rhs.toJson)]) (.select lhs rhs) :=
  decodes_record ⟨_, rfl⟩ (fun _ => rfl) (fun _ => rfl)
    (.field (fun _ => rfl) hlhs <| .field (fun _ => rfl) hrhs (.nil _)) (fun _ => rfl)

/-- The fields of a bit range are read back. -/
theorem decodes_extract (hargs : ∀ arg ∈ args, Decodes Term.read arg.toJson arg)
    (hparams : ∀ param ∈ params, Decodes Param.read param.toJson param) :
    Decodes readExtract
      (.object [("args", .array (termsToJson args)), ("params", .array (paramsToJson params))])
      (.extract args params) :=
  decodes_record ⟨_, rfl⟩ (fun _ => rfl) (fun _ => rfl)
    (.field (fun _ => rfl) (decodes_terms hargs) <|
      .field (fun _ => rfl) (decodes_params hparams) (.nil _))
    (fun _ => rfl)

/-- The fields of any other operator are read back. -/
theorem decodes_app (name : String) (hargs : ∀ arg ∈ args, Decodes Term.read arg.toJson arg)
    (hparams : ∀ param ∈ params, Decodes Param.read param.toJson param) :
    Decodes readApp
      (.object [("name", .string name), ("args", .array (termsToJson args)),
        ("params", .array (paramsToJson params))])
      (.app name args params) :=
  decodes_record ⟨_, rfl⟩ (fun _ => rfl) (fun _ => rfl)
    (.field (fun _ => rfl) (decodes_string name) <| .field (fun _ => rfl) (decodes_terms hargs) <|
      .field (fun _ => rfl) (decodes_params hparams) (.nil _))
    (fun _ => rfl)

end Parts

mutual
/-- A parameter is read back. -/
theorem Param.decodes : (param : Param) → Decodes Param.read param.toJson param
  | .int value =>
      decodes_tagged ⟨_, rfl⟩ (fun _ => ⟨_, _, rfl, rfl⟩) ((decodes_signed64 value).map Param.int)
  | .double pattern =>
      decodes_tagged ⟨_, rfl⟩ (fun _ => ⟨_, _, rfl, rfl⟩) ((decodes_unsigned64 pattern).map Param.double)
  | .rational num den =>
      decodes_tagged ⟨_, rfl⟩ (fun _ => ⟨_, _, rfl, rfl⟩) (Param.decodes_rational num den)
  | .symbol name =>
      decodes_tagged ⟨_, rfl⟩ (fun _ => ⟨_, _, rfl, rfl⟩) ((decodes_string name).map Param.symbol)
  | .sort name =>
      decodes_tagged ⟨_, rfl⟩ (fun _ => ⟨_, _, rfl, rfl⟩) ((decodes_string name).map Param.sort)
  | .term value =>
      decodes_tagged ⟨_, rfl⟩ (fun _ => ⟨_, _, rfl, rfl⟩) (value.decodes.map Param.term)
  | .funcDecl name =>
      decodes_tagged ⟨_, rfl⟩ (fun _ => ⟨_, _, rfl, rfl⟩) ((decodes_string name).map Param.funcDecl)

/-- The parameters of a list are read back. -/
theorem decodes_of_mem_params : (params : List Param) →
    ∀ param ∈ params, Decodes Param.read param.toJson param
  | [] => List.forall_mem_nil _
  | first :: params => List.forall_mem_cons.mpr ⟨first.decodes, decodes_of_mem_params params⟩

/-- A term is read back. -/
theorem Term.decodes : (term : Term) → Decodes Term.read term.toJson term
  | .num value => decodes_tagged ⟨_, rfl⟩ (fun _ => ⟨_, _, rfl, rfl⟩) (value.decodes.map Term.num)
  | .bool value =>
      decodes_tagged ⟨_, rfl⟩ (fun _ => ⟨_, _, rfl, rfl⟩) ((decodes_boolean value).map Term.bool)
  | .arith op args =>
      decodes_tagged ⟨_, rfl⟩ (fun _ => ⟨_, _, rfl, rfl⟩)
        ((decodes_arith op (decodes_of_mem_terms args)).map fun (op, args) => Term.arith op args)
  | .logic op args =>
      decodes_tagged ⟨_, rfl⟩ (fun _ => ⟨_, _, rfl, rfl⟩)
        ((decodes_logic op (decodes_of_mem_terms args)).map fun (op, args) => Term.logic op args)
  | .cmp op lhs rhs =>
      decodes_tagged ⟨_, rfl⟩ (fun _ => ⟨_, _, rfl, rfl⟩)
        ((decodes_cmp op lhs.decodes rhs.decodes).map fun (op, lhs, rhs) => Term.cmp op lhs rhs)
  | .eq lhs rhs naming =>
      decodes_tagged ⟨_, rfl⟩ (fun _ => ⟨_, _, rfl, rfl⟩) (decodes_eq naming lhs.decodes rhs.decodes)
  | .distinct lhs rhs =>
      decodes_tagged ⟨_, rfl⟩ (fun _ => ⟨_, _, rfl, rfl⟩)
        ((decodes_distinct lhs.decodes rhs.decodes).map fun (lhs, rhs) => Term.distinct lhs rhs)
  | .not arg => decodes_tagged ⟨_, rfl⟩ (fun _ => ⟨_, _, rfl, rfl⟩) (arg.decodes.map Term.not)
  | .neg arg => decodes_tagged ⟨_, rfl⟩ (fun _ => ⟨_, _, rfl, rfl⟩) (arg.decodes.map Term.neg)
  | .select source index =>
      decodes_tagged ⟨_, rfl⟩ (fun _ => ⟨_, _, rfl, rfl⟩) (decodes_select source.decodes index.decodes)
  | .concat bytes =>
      decodes_tagged ⟨_, rfl⟩ (fun _ => ⟨_, _, rfl, rfl⟩)
        ((decodes_terms (decodes_of_mem_terms bytes)).map Term.concat)
  | .extract args params =>
      decodes_tagged ⟨_, rfl⟩ (fun _ => ⟨_, _, rfl, rfl⟩)
        (decodes_extract (decodes_of_mem_terms args) (decodes_of_mem_params params))
  | .app name args params =>
      decodes_tagged ⟨_, rfl⟩ (fun _ => ⟨_, _, rfl, rfl⟩)
        (decodes_app name (decodes_of_mem_terms args) (decodes_of_mem_params params))

/-- The terms of a list are read back. -/
theorem decodes_of_mem_terms : (terms : List Term) →
    ∀ term ∈ terms, Decodes Term.read term.toJson term
  | [] => List.forall_mem_nil _
  | first :: terms => List.forall_mem_cons.mpr ⟨first.decodes, decodes_of_mem_terms terms⟩
end

/-- A bound is read back. -/
theorem Bound.decodes (bound : Bound) : Decodes Bound.read bound.toJson bound := by
  cases bound with
  | constant value =>
      exact decodes_tagged ⟨_, rfl⟩ (fun _ => ⟨_, _, rfl, rfl⟩)
        ((decodes_signed64 value).map Bound.constant)
  | symbolic term =>
      exact decodes_tagged ⟨_, rfl⟩ (fun _ => ⟨_, _, rfl, rfl⟩) (term.decodes.map Bound.symbolic)

/-- An edge is read back, also a missing one. -/
theorem Bound.decodes_edge (edge : Option Bound) :
    Decodes (fun nesting => Reader.optional (Bound.read nesting)) (Bound.edgeToJson edge) edge := by
  cases edge with
  | none => exact decodes_optional_none Bound.read
  | some bound =>
      have h := bound.decodes
      cases bound with
      | constant value => exact decodes_optional_some h
      | symbolic term => exact decodes_optional_some h

/-- An interval is read back. -/
theorem Interval.decodes (interval : Interval) : Decodes Interval.read interval.toJson interval :=
  decodes_record ⟨_, rfl⟩ (fun _ => rfl) (fun _ => rfl)
    (.field (fun _ => rfl) (Bound.decodes_edge interval.first)
      (.field (fun _ => rfl) (Bound.decodes_edge interval.last) (.nil _)))
    (fun _ => rfl)

/-- An item is read back. -/
theorem RhsItem.decodes (item : RhsItem) : Decodes RhsItem.read item.toJson item := by
  cases item with
  | production id =>
      exact decodes_tagged ⟨_, rfl⟩ (fun _ => ⟨_, _, rfl, rfl⟩)
        ((decodes_unsigned32 id).map RhsItem.production)
  | interval range =>
      exact decodes_tagged ⟨_, rfl⟩ (fun _ => ⟨_, _, rfl, rfl⟩) (range.decodes.map RhsItem.interval)

/-- The alternatives of a production are read back. -/
theorem Production.decodes_alternatives (alternatives : List (List RhsItem)) :
    Decodes Production.readAlternatives
      (.array (alternatives.map fun rhs => .array (rhs.map RhsItem.toJson))) alternatives := by
  have hitems (rhs : List RhsItem) := decodes_map fun item (_ : item ∈ rhs) => item.decodes
  exact (decodes_map fun rhs _ => hitems rhs).congr fun nesting => by
    rcases nesting with _ | _ | nesting <;> rfl

/-- A production is read back. -/
theorem Production.decodes (production : Production) :
    Decodes Production.read production.toJson production :=
  decodes_record ⟨_, rfl⟩ (fun _ => rfl) (fun _ => rfl)
    (.field (fun _ => rfl) (decodes_unsigned32 production.id)
      (.field (fun _ => rfl) (Production.decodes_alternatives production.alternatives)
        (.field (fun _ => rfl)
          (by
            have h := decodes_terms fun term (_ : term ∈ production.assertions) => term.decodes
            rwa [terms_to_json_eq_map] at h) (.nil _))))
    (fun _ => rfl)

/-- A grammar is read back. -/
theorem Grammar.decodes (grammar : Grammar) : Decodes Grammar.read grammar.toJson grammar := by
  have hproductions := decodes_map fun production (_ : production ∈ grammar.productions) =>
    production.decodes
  have hread : Decodes Grammar.readProductions _ grammar.productions :=
    hproductions.congr fun nesting => by cases nesting <;> rfl
  exact decodes_record ⟨_, rfl⟩ (fun _ => rfl) (fun _ => rfl)
    (.field (fun _ => (bind_pure _).symm) hread (.nil _)) (fun _ => rfl)

/-- What is written for a grammar is read as that grammar exactly if its arrays and objects nest at most 127
deep. If and only if they nest deeper, the report is that the limit of the nesting is exceeded, with its
wording and a position. -/
theorem parse_json_text_iff (grammar : Grammar) (file : String) :
    (Grammar.parse grammar.jsonText file = .ok grammar ↔ grammar.toJson.depth ≤ 127) ∧
      ((∃ error, Grammar.parse grammar.jsonText file =
            .error (.malformed file grammar.jsonText error) ∧
          error.cause = .recursionLimit ∧
          error.message = "recursion limit exceeded" ++ " at line " ++ toString error.position.line ++
            " column " ++ toString error.position.column) ↔
        127 < grammar.toJson.depth) := by
  have hsource : grammar.jsonText.toList = [] ++ grammar.toJson.pretty 0 ++ [] := by
    rw [Grammar.jsonText, Json.text, String.toList_ofList, List.nil_append, List.append_nil]
  obtain ⟨haccepts, hrefuses⟩ := run_decodes grammar.decodes hsource (spells_pretty 0 grammar.toJson)
    blank_nil blank_nil nestingLimit
  rcases Nat.lt_or_ge nestingLimit grammar.toJson.depth with hdeep | hfits
  · obtain ⟨position, hposition⟩ := hrefuses hdeep
    have hparse : Grammar.parse grammar.jsonText file =
        .error (.malformed file grammar.jsonText ⟨.recursionLimit, position⟩) := by
      rw [Grammar.parse, Grammar.ofJson?, hposition]
    rw [hparse]
    exact ⟨iff_of_false (by simp) (Nat.not_le.mpr hdeep), iff_of_true ⟨_, rfl, rfl, rfl⟩ hdeep⟩
  · have hparse : Grammar.parse grammar.jsonText file = .ok grammar := by
      rw [Grammar.parse, Grammar.ofJson?, haccepts hfits]
    rw [hparse]
    exact ⟨iff_of_true rfl hfits, iff_of_false (by simp) (Nat.not_lt.mpr hfits)⟩

/-- The least number of negations over a literal that a grammar cannot be read back with. -/
example : (Grammar.mk [{ id := 0, assertions := [Nat.repeat Term.neg 123 (.bool true)] }]).toJson.depth =
    128 := by
  decide +kernel

end ByteGrammar
