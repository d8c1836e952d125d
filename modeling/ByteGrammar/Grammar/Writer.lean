import ByteGrammar.Grammar.Tags
import ByteGrammar.Json.Basic

/-!
# Grammars as JSON

The JSON tree of a grammar, with every field present and in a fixed order, and its indented text.
-/

namespace ByteGrammar

/-- A tagged value: an object whose only key is the tag. -/
def Json.ofTag {α : Type} [Tag α] (tag : α) (value : Json) : Json :=
  .object [(Tag.name tag, value)]

/-- An operator as its name. -/
def Json.ofName {α : Type} [Tag α] (tag : α) : Json :=
  .string (Tag.name tag)

/-- The tree of a literal. -/
def Numeral.toJson : Numeral → Json
  | .unsigned value => .ofTag NumeralTag.unsigned (.int value.toNat)
  | .signed value => .ofTag NumeralTag.signed (.int value.toInt)

mutual
/-- The tree of a parameter. -/
def Param.toJson : Param → Json
  | .int value => .ofTag ParamTag.int (.int value.toInt)
  | .double pattern => .ofTag ParamTag.double (.int pattern.toNat)
  | .rational num den =>
      .ofTag ParamTag.rational (.object [("num", .int num.toInt), ("den", .int den.toInt)])
  | .symbol name => .ofTag ParamTag.symbol (.string name)
  | .sort name => .ofTag ParamTag.sort (.string name)
  | .term value => .ofTag ParamTag.term value.toJson
  | .funcDecl name => .ofTag ParamTag.funcDecl (.string name)

/-- The tree of a term. -/
def Term.toJson : Term → Json
  | .num value => .ofTag TermTag.num value.toJson
  | .bool value => .ofTag TermTag.bool (.bool value)
  | .arith op args => .ofTag TermTag.arith (.array [.ofName op, .array (termsToJson args)])
  | .logic op args => .ofTag TermTag.logic (.array [.ofName op, .array (termsToJson args)])
  | .cmp op lhs rhs => .ofTag TermTag.cmp (.array [.ofName op, lhs.toJson, rhs.toJson])
  | .eq lhs rhs naming =>
      .ofTag TermTag.eq
        (.object [("lhs", lhs.toJson), ("rhs", rhs.toJson), ("naming", .bool naming)])
  | .distinct lhs rhs => .ofTag TermTag.distinct (.array [lhs.toJson, rhs.toJson])
  | .not arg => .ofTag TermTag.not arg.toJson
  | .neg arg => .ofTag TermTag.neg arg.toJson
  | .select array index =>
      .ofTag TermTag.select (.object [("array", array.toJson), ("index", index.toJson)])
  | .concat bytes => .ofTag TermTag.concat (.array (termsToJson bytes))
  | .extract args params =>
      .ofTag TermTag.extract
        (.object [("args", .array (termsToJson args)), ("params", .array (paramsToJson params))])
  | .app name args params =>
      .ofTag TermTag.app
        (.object [("name", .string name), ("args", .array (termsToJson args)),
          ("params", .array (paramsToJson params))])

/-- The trees of a list of terms. -/
def termsToJson : List Term → List Json
  | [] => []
  | term :: terms => term.toJson :: termsToJson terms

/-- The trees of a list of parameters. -/
def paramsToJson : List Param → List Json
  | [] => []
  | param :: params => param.toJson :: paramsToJson params
end

/-- The trees of a list of terms are those of its members. -/
theorem terms_to_json_eq_map (terms : List Term) : termsToJson terms = terms.map Term.toJson := by
  induction terms with
  | nil => rfl
  | cons term terms ih => simp [termsToJson, ih]

/-- The trees of a list of parameters are those of its members. -/
theorem params_to_json_eq_map (params : List Param) :
    paramsToJson params = params.map Param.toJson := by
  induction params with
  | nil => rfl
  | cons param params ih => simp [paramsToJson, ih]

/-- The tree of a bound. -/
def Bound.toJson : Bound → Json
  | .constant value => .ofTag BoundTag.constant (.int value.toInt)
  | .symbolic term => .ofTag BoundTag.symbolic term.toJson

/-- The tree of an edge. A missing one is `null`. -/
def Bound.edgeToJson : Option Bound → Json
  | none => .null
  | some bound => bound.toJson

/-- The tree of an interval. -/
def Interval.toJson (interval : Interval) : Json :=
  .object [("from", Bound.edgeToJson interval.first), ("to", Bound.edgeToJson interval.last)]

/-- The tree of an item. -/
def RhsItem.toJson : RhsItem → Json
  | .production id => .ofTag ItemTag.production (.int id.toNat)
  | .interval range => .ofTag ItemTag.interval range.toJson

/-- The tree of a production. -/
def Production.toJson (production : Production) : Json :=
  .object [("id", .int production.id.toNat),
    ("alternatives", .array (production.alternatives.map fun rhs => .array (rhs.map RhsItem.toJson))),
    ("assertions", .array (production.assertions.map Term.toJson))]

/-- The tree of a grammar. -/
def Grammar.toJson (grammar : Grammar) : Json :=
  .object [("productions", .array (grammar.productions.map Production.toJson))]

/-- The indented text of a grammar. -/
def Grammar.jsonText (grammar : Grammar) : String :=
  grammar.toJson.text

end ByteGrammar
