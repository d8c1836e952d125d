import ByteGrammar.Proofs.GrammarRoundTrip
import ByteGrammar.Proofs.JsonLayout

/-!
# Grammars in other words

The layout of a grammar marks which objects of its tree are records, and which of their fields hold their
default. Every text of this layout is read as the grammar (`parse_of_spells`): the order of fields, fields
that are left out, members with other names and blanks make no difference.
-/

namespace ByteGrammar

open Json (Blank Reader quote)
open Json.Reader (within)
open Layout

/-! ## Layouts -/

mutual
/-- The layout of a parameter. -/
def Param.layout : Param → Layout
  | .int value => .ofTag ParamTag.int (.leaf (.int value.toInt))
  | .double pattern => .ofTag ParamTag.double (.leaf (.int pattern.toNat))
  | .rational num den =>
      .ofTag ParamTag.rational (.record [⟨"num", .leaf (.int num.toInt), false⟩,
        ⟨"den", .leaf (.int den.toInt), false⟩])
  | .symbol name => .ofTag ParamTag.symbol (.leaf (.string name))
  | .sort name => .ofTag ParamTag.sort (.leaf (.string name))
  | .term value => .ofTag ParamTag.term value.layout
  | .funcDecl name => .ofTag ParamTag.funcDecl (.leaf (.string name))

/-- The layout of a term. -/
def Term.layout : Term → Layout
  | .num value => .ofTag TermTag.num (.leaf value.toJson)
  | .bool value => .ofTag TermTag.bool (.leaf (.bool value))
  | .arith op args =>
      .ofTag TermTag.arith (.array [.leaf (.ofName op), .array (termLayouts args)])
  | .logic op args =>
      .ofTag TermTag.logic (.array [.leaf (.ofName op), .array (termLayouts args)])
  | .cmp op lhs rhs => .ofTag TermTag.cmp (.array [.leaf (.ofName op), lhs.layout, rhs.layout])
  | .eq lhs rhs naming =>
      .ofTag TermTag.eq (.record [⟨"lhs", lhs.layout, false⟩, ⟨"rhs", rhs.layout, false⟩,
        ⟨"naming", .leaf (.bool naming), !naming⟩])
  | .distinct lhs rhs => .ofTag TermTag.distinct (.array [lhs.layout, rhs.layout])
  | .not arg => .ofTag TermTag.not arg.layout
  | .neg arg => .ofTag TermTag.neg arg.layout
  | .select source index =>
      .ofTag TermTag.select
        (.record [⟨"array", source.layout, false⟩, ⟨"index", index.layout, false⟩])
  | .concat bytes => .ofTag TermTag.concat (.array (termLayouts bytes))
  | .extract args params =>
      .ofTag TermTag.extract (.record [⟨"args", .array (termLayouts args), false⟩,
        ⟨"params", .array (paramLayouts params), false⟩])
  | .app name args params =>
      .ofTag TermTag.app (.record [⟨"name", .leaf (.string name), false⟩,
        ⟨"args", .array (termLayouts args), args.isEmpty⟩,
        ⟨"params", .array (paramLayouts params), params.isEmpty⟩])

/-- The layouts of a list of terms. -/
def termLayouts : List Term → List Layout
  | [] => []
  | term :: terms => term.layout :: termLayouts terms

/-- The layouts of a list of parameters. -/
def paramLayouts : List Param → List Layout
  | [] => []
  | param :: params => param.layout :: paramLayouts params
end

/-- The layout of a bound. -/
def Bound.layout : Bound → Layout
  | .constant value => .ofTag BoundTag.constant (.leaf (.int value.toInt))
  | .symbolic term => .ofTag BoundTag.symbolic term.layout

/-- The layout of an edge. -/
def Bound.edgeLayout : Option Bound → Layout
  | none => .leaf .null
  | some bound => bound.layout

/-- The layout of an interval. A missing edge is a default. -/
def Interval.layout (interval : Interval) : Layout :=
  .record [⟨"from", Bound.edgeLayout interval.first, interval.first.isNone⟩,
    ⟨"to", Bound.edgeLayout interval.last, interval.last.isNone⟩]

/-- The layout of an item. -/
def RhsItem.layout : RhsItem → Layout
  | .production id => .ofTag ItemTag.production (.leaf (.int id.toNat))
  | .interval range => .ofTag ItemTag.interval range.layout

/-- The layout of a production. Having no alternatives and no assertions are defaults. -/
def Production.layout (production : Production) : Layout :=
  .record [⟨"id", .leaf (.int production.id.toNat), false⟩,
    ⟨"alternatives", .array (production.alternatives.map fun rhs => .array (rhs.map RhsItem.layout)),
      production.alternatives.isEmpty⟩,
    ⟨"assertions", .array (production.assertions.map Term.layout), production.assertions.isEmpty⟩]

/-- The layout of a grammar. -/
def Grammar.layout (grammar : Grammar) : Layout :=
  .record [⟨"productions", .array (grammar.productions.map Production.layout), false⟩]

/-! ## Their trees -/

/-- The trees of layouts are those of the values that they are layouts of. -/
theorem trees_of_map {α : Type} {layout : α → Layout} {toJson : α → Json} {values : List α}
    (h : ∀ value ∈ values, (layout value).tree = toJson value) :
    treesOf (values.map layout) = values.map toJson := by
  induction values with
  | nil => rfl
  | cons value values ih =>
      rw [List.forall_mem_cons] at h
      rw [List.map_cons, List.map_cons, treesOf, h.1, ih h.2]

mutual
/-- The layout of a parameter is one of its tree. -/
theorem Param.tree_layout : (param : Param) → param.layout.tree = param.toJson
  | .int _ | .double _ | .symbol _ | .sort _ | .funcDecl _ => rfl
  | .rational _ _ => rfl
  | .term value => congrArg (Json.ofTag ParamTag.term) value.tree_layout

/-- The layout of a term is one of its tree. -/
theorem Term.tree_layout : (term : Term) → term.layout.tree = term.toJson
  | .num _ | .bool _ => rfl
  | .arith _ args | .logic _ args | .concat args => by
      simp [Term.layout, Term.toJson, ofTag, Json.ofTag, tree, treesOf, trees_of_terms args]
  | .cmp _ lhs rhs | .eq lhs rhs _ | .distinct lhs rhs | .select lhs rhs => by
      simp [Term.layout, Term.toJson, ofTag, Json.ofTag, tree, treesOf, membersOf, lhs.tree_layout,
        rhs.tree_layout]
  | .not arg => congrArg (Json.ofTag TermTag.not) arg.tree_layout
  | .neg arg => congrArg (Json.ofTag TermTag.neg) arg.tree_layout
  | .extract args params | .app _ args params => by
      simp [Term.layout, Term.toJson, ofTag, Json.ofTag, tree, membersOf, trees_of_terms args,
        trees_of_params params]

/-- The layouts of a list of terms are those of their trees. -/
theorem trees_of_terms : (terms : List Term) → treesOf (termLayouts terms) = termsToJson terms
  | [] => rfl
  | term :: terms => by
      rw [termLayouts, treesOf, termsToJson, term.tree_layout, trees_of_terms terms]

/-- The layouts of a list of parameters are those of their trees. -/
theorem trees_of_params : (params : List Param) →
    treesOf (paramLayouts params) = paramsToJson params
  | [] => rfl
  | param :: params => by
      rw [paramLayouts, treesOf, paramsToJson, param.tree_layout, trees_of_params params]
end

/-- The layout of a bound is one of its tree. -/
theorem Bound.tree_layout (bound : Bound) : bound.layout.tree = bound.toJson := by
  cases bound with
  | constant value => rfl
  | symbolic term => exact congrArg (Json.ofTag BoundTag.symbolic) term.tree_layout

/-- The layout of an edge is one of its tree. -/
theorem Bound.tree_edge_layout (edge : Option Bound) :
    (Bound.edgeLayout edge).tree = Bound.edgeToJson edge := by
  cases edge with
  | none => rfl
  | some bound => exact bound.tree_layout

/-- The layout of an interval is one of its tree. -/
theorem Interval.tree_layout (interval : Interval) : interval.layout.tree = interval.toJson := by
  simp [Interval.layout, Interval.toJson, tree, membersOf, Bound.tree_edge_layout]

/-- The layout of an item is one of its tree. -/
theorem RhsItem.tree_layout (item : RhsItem) : item.layout.tree = item.toJson := by
  cases item with
  | production id => rfl
  | interval range => exact congrArg (Json.ofTag ItemTag.interval) range.tree_layout

/-- The layout of a production is one of its tree. -/
theorem Production.tree_layout (production : Production) :
    production.layout.tree = production.toJson := by
  have halternatives : treesOf (production.alternatives.map fun rhs =>
      Layout.array (rhs.map RhsItem.layout)) =
        production.alternatives.map fun rhs => Json.array (rhs.map RhsItem.toJson) :=
    trees_of_map fun rhs _ => by rw [tree, trees_of_map fun item _ => item.tree_layout]
  have hassertions : treesOf (production.assertions.map Term.layout) =
      production.assertions.map Term.toJson :=
    trees_of_map fun term _ => term.tree_layout
  simp [Production.layout, Production.toJson, tree, membersOf, halternatives, hassertions]

/-- The layout of a grammar is one of the tree that is written for it. -/
theorem Grammar.tree_layout (grammar : Grammar) : grammar.layout.tree = grammar.toJson := by
  rw [Grammar.layout, Grammar.toJson, tree, membersOf, membersOf, tree,
    trees_of_map fun production _ => production.tree_layout]

/-! ## Reading -/

/-- The fields of a rational parameter are accepted. -/
theorem accepts_rational (num den : Int64) :
    Accepts Param.readRational (.record [⟨"num", .leaf (.int num.toInt), false⟩,
      ⟨"den", .leaf (.int den.toInt), false⟩]) (.rational num den) := by
  refine accepts_two_fields _ _ (fun _ => rfl) (by simp) (fun _ => rfl) (fun _ _ _ => rfl)
    (fun _ _ _ => rfl) ?_ ?_ (accepts_leaf (Json.decodes_signed64 num))
    (accepts_leaf (Json.decodes_signed64 den))
  · intro name hnum hden nesting state
    dsimp only
    split <;> first | contradiction | rfl
  · intro nesting _ _ hnum hden
    obtain rfl := hnum.eq_some
    obtain rfl := hden.eq_some
    rfl

section Parts

/-! What stands behind the tag of a term is accepted if the terms and parameters in it are. -/

variable {lhs rhs : Term} {args : List Term} {params : List Param}

/-- A list of terms is accepted. -/
theorem accepts_terms (hargs : List.Forall₂ (Accepts Term.read) (termLayouts args) args) :
    Accepts readTerms (.array (termLayouts args)) args :=
  (accepts_list hargs).congr fun nesting => by cases nesting <;> rfl

/-- A list of parameters is accepted. -/
theorem accepts_params (hparams : List.Forall₂ (Accepts Param.read) (paramLayouts params) params) :
    Accepts readParams (.array (paramLayouts params)) params :=
  (accepts_list hparams).congr fun nesting => by cases nesting <;> rfl

/-- An arithmetic operator with its operands is accepted. -/
theorem accepts_arith (op : ArithOp)
    (hargs : List.Forall₂ (Accepts Term.read) (termLayouts args) args) :
    Accepts readArith (.array [.leaf (.ofName op), .array (termLayouts args)]) (op, args) :=
  (accepts_pair "tuple variant Term::Arith" (accepts_leaf (Json.decodes_bare_tag op))
    (accepts_terms hargs)).congr fun nesting => by cases nesting <;> rfl

/-- A connective with its operands is accepted. -/
theorem accepts_logic (op : LogicOp)
    (hargs : List.Forall₂ (Accepts Term.read) (termLayouts args) args) :
    Accepts readLogic (.array [.leaf (.ofName op), .array (termLayouts args)]) (op, args) :=
  (accepts_pair "tuple variant Term::Logic" (accepts_leaf (Json.decodes_bare_tag op))
    (accepts_terms hargs)).congr fun nesting => by cases nesting <;> rfl

/-- A comparison with its two sides is accepted. -/
theorem accepts_cmp (op : CmpOp) (hlhs : Accepts Term.read lhs.layout lhs)
    (hrhs : Accepts Term.read rhs.layout rhs) :
    Accepts readCmp (.array [.leaf (.ofName op), lhs.layout, rhs.layout]) (op, lhs, rhs) :=
  (accepts_triple "tuple variant Term::Cmp" (accepts_leaf (Json.decodes_bare_tag op)) hlhs hrhs).congr
    fun nesting => by cases nesting <;> rfl

/-- The two sides of an inequality are accepted. -/
theorem accepts_distinct (hlhs : Accepts Term.read lhs.layout lhs)
    (hrhs : Accepts Term.read rhs.layout rhs) :
    Accepts readDistinct (.array [lhs.layout, rhs.layout]) (lhs, rhs) :=
  (accepts_pair "tuple variant Term::Distinct" hlhs hrhs).congr fun nesting => by
    cases nesting <;> rfl

/-- The fields of an equality are accepted. Only its flag may be missing. -/
theorem accepts_eq (naming : Bool) (hlhs : Accepts Term.read lhs.layout lhs)
    (hrhs : Accepts Term.read rhs.layout rhs) :
    Accepts readEq (.record [⟨"lhs", lhs.layout, false⟩, ⟨"rhs", rhs.layout, false⟩,
      ⟨"naming", .leaf (.bool naming), !naming⟩]) (.eq lhs rhs naming) := by
  refine accepts_three_fields _ _ _ (fun _ => rfl) (by simp) (fun _ => rfl) (fun _ _ _ _ => rfl)
    (fun _ _ _ _ => rfl) (fun _ _ _ _ => rfl) ?_ ?_ hlhs hrhs
    (accepts_leaf (Json.decodes_boolean naming))
  · intro name hlhs hrhs hnaming nesting state
    dsimp only
    split <;> first | contradiction | rfl
  · intro nesting _ _ given hlhs hrhs hnaming
    obtain rfl := hlhs.eq_some
    obtain rfl := hrhs.eq_some
    show (pure (.eq lhs rhs (given.getD false)) : Reader Term) = _
    rw [hnaming.get_eq (by simp)]

/-- The fields of a byte read are accepted. -/
theorem accepts_select (hlhs : Accepts Term.read lhs.layout lhs)
    (hrhs : Accepts Term.read rhs.layout rhs) :
    Accepts readSelect (.record [⟨"array", lhs.layout, false⟩, ⟨"index", rhs.layout, false⟩])
      (.select lhs rhs) := by
  refine accepts_two_fields _ _ (fun _ => rfl) (by simp) (fun _ => rfl) (fun _ _ _ => rfl)
    (fun _ _ _ => rfl) ?_ ?_ hlhs hrhs
  · intro name hlhs hrhs nesting state
    dsimp only
    split <;> first | contradiction | rfl
  · intro nesting _ _ hlhs hrhs
    obtain rfl := hlhs.eq_some
    obtain rfl := hrhs.eq_some
    rfl

/-- The fields of a bit range are accepted. -/
theorem accepts_extract (hargs : List.Forall₂ (Accepts Term.read) (termLayouts args) args)
    (hparams : List.Forall₂ (Accepts Param.read) (paramLayouts params) params) :
    Accepts readExtract (.record [⟨"args", .array (termLayouts args), false⟩,
      ⟨"params", .array (paramLayouts params), false⟩]) (.extract args params) := by
  refine accepts_two_fields _ _ (fun _ => rfl) (by simp) (fun _ => rfl) (fun _ _ _ => rfl)
    (fun _ _ _ => rfl) ?_ ?_ (accepts_terms hargs) (accepts_params hparams)
  · intro name hargs hparams nesting state
    dsimp only
    split <;> first | contradiction | rfl
  · intro nesting _ _ hargs hparams
    obtain rfl := hargs.eq_some
    obtain rfl := hparams.eq_some
    rfl

/-- The fields of any other operator are accepted. No arguments and no parameters may be missing. -/
theorem accepts_app (name : String)
    (hargs : List.Forall₂ (Accepts Term.read) (termLayouts args) args)
    (hparams : List.Forall₂ (Accepts Param.read) (paramLayouts params) params) :
    Accepts readApp (.record [⟨"name", .leaf (.string name), false⟩,
      ⟨"args", .array (termLayouts args), args.isEmpty⟩,
      ⟨"params", .array (paramLayouts params), params.isEmpty⟩]) (.app name args params) := by
  refine accepts_three_fields _ _ _ (fun _ => rfl) (by simp) (fun _ => rfl) (fun _ _ _ _ => rfl)
    (fun _ _ _ _ => rfl) (fun _ _ _ _ => rfl) ?_ ?_ (accepts_leaf (Json.decodes_string name))
    (accepts_terms hargs) (accepts_params hparams)
  · intro key hname hargs hparams nesting state
    dsimp only
    split <;> first | contradiction | rfl
  · intro nesting _ givenArgs givenParams hname hargs hparams
    obtain rfl := hname.eq_some
    show (pure (.app name (givenArgs.getD []) (givenParams.getD [])) : Reader Term) = _
    rw [hargs.get_eq List.isEmpty_iff.mp, hparams.get_eq List.isEmpty_iff.mp]

end Parts

mutual
/-- A parameter is accepted. -/
theorem Param.accepts : (param : Param) → Accepts Param.read param.layout param
  | .int value =>
      accepts_tagged (fun _ => ⟨_, _, rfl, rfl⟩) ((accepts_leaf (Json.decodes_signed64 value)).map Param.int)
  | .double pattern =>
      accepts_tagged (fun _ => ⟨_, _, rfl, rfl⟩)
        ((accepts_leaf (Json.decodes_unsigned64 pattern)).map Param.double)
  | .rational num den => accepts_tagged (fun _ => ⟨_, _, rfl, rfl⟩) (accepts_rational num den)
  | .symbol name =>
      accepts_tagged (fun _ => ⟨_, _, rfl, rfl⟩) ((accepts_leaf (Json.decodes_string name)).map Param.symbol)
  | .sort name =>
      accepts_tagged (fun _ => ⟨_, _, rfl, rfl⟩) ((accepts_leaf (Json.decodes_string name)).map Param.sort)
  | .term value => accepts_tagged (fun _ => ⟨_, _, rfl, rfl⟩) (value.accepts.map Param.term)
  | .funcDecl name =>
      accepts_tagged (fun _ => ⟨_, _, rfl, rfl⟩)
        ((accepts_leaf (Json.decodes_string name)).map Param.funcDecl)

/-- The parameters of a list are accepted. -/
theorem accepts_each_param : (params : List Param) →
    List.Forall₂ (Accepts Param.read) (paramLayouts params) params
  | [] => .nil
  | first :: params => .cons first.accepts (accepts_each_param params)

/-- A term is accepted. -/
theorem Term.accepts : (term : Term) → Accepts Term.read term.layout term
  | .num value =>
      accepts_tagged (fun _ => ⟨_, _, rfl, rfl⟩) ((accepts_leaf value.decodes).map Term.num)
  | .bool value =>
      accepts_tagged (fun _ => ⟨_, _, rfl, rfl⟩) ((accepts_leaf (Json.decodes_boolean value)).map Term.bool)
  | .arith op args =>
      accepts_tagged (fun _ => ⟨_, _, rfl, rfl⟩)
        ((accepts_arith op (accepts_each_term args)).map fun (op, args) => Term.arith op args)
  | .logic op args =>
      accepts_tagged (fun _ => ⟨_, _, rfl, rfl⟩)
        ((accepts_logic op (accepts_each_term args)).map fun (op, args) => Term.logic op args)
  | .cmp op lhs rhs =>
      accepts_tagged (fun _ => ⟨_, _, rfl, rfl⟩)
        ((accepts_cmp op lhs.accepts rhs.accepts).map fun (op, lhs, rhs) => Term.cmp op lhs rhs)
  | .eq lhs rhs naming =>
      accepts_tagged (fun _ => ⟨_, _, rfl, rfl⟩) (accepts_eq naming lhs.accepts rhs.accepts)
  | .distinct lhs rhs =>
      accepts_tagged (fun _ => ⟨_, _, rfl, rfl⟩)
        ((accepts_distinct lhs.accepts rhs.accepts).map fun (lhs, rhs) => Term.distinct lhs rhs)
  | .not arg => accepts_tagged (fun _ => ⟨_, _, rfl, rfl⟩) (arg.accepts.map Term.not)
  | .neg arg => accepts_tagged (fun _ => ⟨_, _, rfl, rfl⟩) (arg.accepts.map Term.neg)
  | .select source index =>
      accepts_tagged (fun _ => ⟨_, _, rfl, rfl⟩) (accepts_select source.accepts index.accepts)
  | .concat bytes =>
      accepts_tagged (fun _ => ⟨_, _, rfl, rfl⟩)
        ((accepts_terms (accepts_each_term bytes)).map Term.concat)
  | .extract args params =>
      accepts_tagged (fun _ => ⟨_, _, rfl, rfl⟩)
        (accepts_extract (accepts_each_term args) (accepts_each_param params))
  | .app name args params =>
      accepts_tagged (fun _ => ⟨_, _, rfl, rfl⟩)
        (accepts_app name (accepts_each_term args) (accepts_each_param params))

/-- The terms of a list are accepted. -/
theorem accepts_each_term : (terms : List Term) →
    List.Forall₂ (Accepts Term.read) (termLayouts terms) terms
  | [] => .nil
  | first :: terms => .cons first.accepts (accepts_each_term terms)
end

/-- A bound is accepted. -/
theorem Bound.accepts (bound : Bound) : Accepts Bound.read bound.layout bound := by
  cases bound with
  | constant value =>
      exact accepts_tagged (fun _ => ⟨_, _, rfl, rfl⟩)
        ((accepts_leaf (Json.decodes_signed64 value)).map Bound.constant)
  | symbolic term =>
      exact accepts_tagged (fun _ => ⟨_, _, rfl, rfl⟩) (term.accepts.map Bound.symbolic)

/-- An edge is accepted, also a missing one. -/
theorem Bound.accepts_edge (edge : Option Bound) :
    Accepts (fun nesting => Reader.optional (Bound.read nesting)) (Bound.edgeLayout edge) edge := by
  cases edge with
  | none => exact accepts_leaf (Json.decodes_optional_none Bound.read)
  | some bound =>
      have h := bound.accepts
      cases bound with
      | constant value => exact accepts_optional_some h
      | symbolic term => exact accepts_optional_some h

/-- An edge that is missing in the text is missing. -/
theorem join_of_filled {edge : Option Bound} {state : Option (Option Bound)}
    (h : Filled edge.isNone edge state) : state.join = edge := by
  rcases h with rfl | ⟨rfl, hnone⟩
  · rfl
  · exact (Option.isNone_iff_eq_none.mp hnone).symm

/-- An interval is accepted. -/
theorem Interval.accepts (interval : Interval) : Accepts Interval.read interval.layout interval := by
  refine accepts_two_fields _ _ (fun _ => rfl) (by simp) (fun _ => rfl) (fun _ _ _ => rfl)
    (fun _ _ _ => rfl) ?_ ?_ (Bound.accepts_edge interval.first) (Bound.accepts_edge interval.last)
  · intro name hfirst hlast nesting state
    dsimp only
    split <;> first | contradiction | rfl
  · intro nesting first last hfirst hlast
    show (pure ⟨first.join, last.join⟩ : Reader Interval) = _
    rw [join_of_filled hfirst, join_of_filled hlast]

/-- An item is accepted. -/
theorem RhsItem.accepts (item : RhsItem) : Accepts RhsItem.read item.layout item := by
  cases item with
  | production id =>
      exact accepts_tagged (fun _ => ⟨_, _, rfl, rfl⟩)
        ((accepts_leaf (Json.decodes_unsigned32 id)).map RhsItem.production)
  | interval range =>
      exact accepts_tagged (fun _ => ⟨_, _, rfl, rfl⟩) (range.accepts.map RhsItem.interval)

/-- A list of values is accepted if each of them is. -/
theorem accepts_map {α : Type} {item : Nat → Reader α} {layout : α → Layout} {values : List α}
    (h : ∀ value ∈ values, Accepts item (layout value) value) :
    Accepts (fun nesting => Reader.list (within item nesting)) (.array (values.map layout)) values :=
  accepts_list (List.forall₂_map_left_iff.mpr (List.forall₂_same.mpr h))

/-- The alternatives of a production are accepted. -/
theorem Production.accepts_alternatives (alternatives : List (List RhsItem)) :
    Accepts Production.readAlternatives
      (.array (alternatives.map fun rhs => .array (rhs.map RhsItem.layout))) alternatives := by
  have hitems (rhs : List RhsItem) := accepts_map fun item (_ : item ∈ rhs) => item.accepts
  exact (accepts_map fun rhs _ => hitems rhs).congr fun nesting => by
    rcases nesting with _ | _ | nesting <;> rfl

/-- The assertions of a production are accepted. -/
theorem Production.accepts_assertions (assertions : List Term) :
    Accepts readTerms (.array (assertions.map Term.layout)) assertions :=
  (accepts_map fun term _ => term.accepts).congr fun nesting => by cases nesting <;> rfl

/-- A production is accepted. -/
theorem Production.accepts (production : Production) :
    Accepts Production.read production.layout production := by
  refine accepts_three_fields _ _ _ (fun _ => rfl) (by simp) (fun _ => rfl) (fun _ _ _ _ => rfl)
    (fun _ _ _ _ => rfl) (fun _ _ _ _ => rfl) ?_ ?_
    (accepts_leaf (Json.decodes_unsigned32 production.id))
    (Production.accepts_alternatives production.alternatives)
    (Production.accepts_assertions production.assertions)
  · intro name hid halternatives hassertions nesting state
    dsimp only
    split <;> first | contradiction | rfl
  · intro nesting _ alternatives assertions hid halternatives hassertions
    obtain rfl := hid.eq_some
    show (pure ⟨production.id, alternatives.getD [], assertions.getD []⟩ : Reader Production) = _
    rw [halternatives.get_eq List.isEmpty_iff.mp, hassertions.get_eq List.isEmpty_iff.mp]

/-- A grammar is accepted. -/
theorem Grammar.accepts (grammar : Grammar) : Accepts Grammar.read grammar.layout grammar := by
  have hproductions : Accepts Grammar.readProductions _ grammar.productions :=
    (accepts_map fun production _ => production.accepts).congr fun nesting => by cases nesting <;> rfl
  refine accepts_record (slot "productions" grammar.productions) (fun _ => rfl) (by simp)
    ⟨fun _ => rfl, ?_, ?_, ?_⟩
  · intro field hfield seen hseen
    obtain rfl := List.mem_singleton.mp hfield
    rw [slot_of_not_mem hseen, slot_cons_self]
    exact takes_once id (fun _ => (bind_pure _).symm) hproductions
  · intro name hname nesting seen
    rw [List.map_singleton, List.mem_singleton] at hname
    dsimp only
    split <;> first | contradiction | rfl
  · intro seen hseen nesting
    have hfilled := filled_slot grammar.productions (hseen _ List.mem_cons_self)
    rw [hfilled.eq_some]
    rfl

/-! ## Short texts -/

/-- The text of a constant without its operands. -/
def bareText (name : String) : List Char :=
  '\x7b' :: (quote "app".toList ++ ':' ::
    (('\x7b' :: (quote "name".toList ++ ':' :: (quote name.toList ++ ['\x7d']))) ++ ['\x7d']))

/-- A constant may be written without its operands. -/
theorem spells_bare (name : String) : (Term.constant name).layout.Spells 2 (bareText name) := by
  have hblank := Json.blank_nil
  have hname : SpellsMembers ["name", "args", "params"] true
      [⟨"name", .leaf (.string name), false⟩] _ _ :=
    .field _ true _ [] [] [] [] [] _ _ _ _ hblank hblank hblank hblank (.leaf _ _ (.string name))
      (.close _ _ [] hblank)
  have hfields := Spells.record
    [⟨"name", .leaf (.string name), false⟩, ⟨"args", .array [], true⟩, ⟨"params", .array [], true⟩] _
    [⟨"args", .array [], true⟩, ⟨"params", .array [], true⟩] _ _ (.refl _) (by simp) hname
  refine spells_of_tag TermTag.app ?_
  simpa [Json.separator, Json.depth, termLayouts, paramLayouts] using hfields

/-- The text of a negation around that of its operand. -/
def notText (text : List Char) : List Char :=
  '\x7b' :: (quote "not".toList ++ ':' :: (text ++ ['\x7d']))

/-- A negation is written around its operand. -/
theorem spells_not {term : Term} {depth : Nat} {text : List Char} (h : term.layout.Spells depth text) :
    (Term.not term).layout.Spells (depth + 1) (notText text) :=
  spells_of_tag TermTag.not h

/-! ## Whole texts -/

/-- A whole text of the layout of a grammar is read as the grammar, with blanks in front and behind, if its
brackets nest no deeper than a file may. -/
theorem Grammar.parse_of_layout {grammar : Grammar} {source : String} (file : String) {depth : Nat}
    {before text behind : List Char} (hsource : source.toList = before ++ text ++ behind)
    (hbefore : Blank before) (hbehind : Blank behind) (htext : grammar.layout.Spells depth text)
    (hdepth : depth ≤ nestingLimit) : Grammar.parse source file = .ok grammar := by
  have hread : Grammar.ofJson? source = .ok grammar :=
    run_accepts grammar.accepts hsource htext hbefore hbehind hdepth
  rw [Grammar.parse, hread]

/-- All texts of the tree that is written for a grammar are texts of its layout. Every text of the layout
is read as the grammar, with blanks in front and behind, if its brackets nest at most 127 deep. -/
theorem parse_of_spells (grammar : Grammar) :
    (∀ text, grammar.toJson.Spells text → grammar.layout.Spells grammar.toJson.depth text) ∧
      ∀ (source file : String) (depth : Nat) (before text behind : List Char),
        source.toList = before ++ text ++ behind → Blank before → Blank behind →
        grammar.layout.Spells depth text → depth ≤ 127 → Grammar.parse source file = .ok grammar := by
  constructor
  · intro text htext
    rw [← grammar.tree_layout] at htext ⊢
    exact spells_of_tree grammar.layout htext
  · intro source file depth before text behind hsource hbefore hbehind htext hdepth
    exact Grammar.parse_of_layout file hsource hbefore hbehind htext hdepth

/-- A text with its fields in another order, without defaults, and with a member that is no field. -/
theorem parse_reworded :
    Grammar.parse ("\x7b\"\\/\":[1.5e3],\"productions\":[\x7b\"assertions\":[\x7b\"not\":\x7b\"app\":" ++
      "\x7b\"name\":\"x\"\x7d\x7d\x7d], \"id\":7\x7d]\x7d\n") "grammar.json" =
        .ok ⟨[{ id := 7, assertions := [.not (.constant "x")] }]⟩ := by
  have hblank := Json.blank_nil
  have hassertions : (Layout.array [Term.layout (.not (.constant "x"))]).Spells _ _ :=
    .array _ _ _ (.next true _ _ [] [] _ _ _ _ hblank hblank (spells_not (spells_bare "x"))
      (.close _ [] hblank))
  have hproduction : (Production.layout { id := 7, assertions := [.not (.constant "x")] }).Spells _ _ :=
    .record _ [⟨"assertions", .array [Term.layout (.not (.constant "x"))], false⟩,
        ⟨"id", .leaf (.int 7), false⟩] [⟨"alternatives", .array [], true⟩] _ _
        (List.perm_append_comm : ([_] ++ [_, _]).Perm _) (by simp) <|
      .field _ true _ _ [] [] [] [] _ _ _ _ hblank hblank hblank hblank hassertions <|
        .field _ false _ _ [] [' '] [] [] _ _ _ _ hblank Json.blank_space hblank hblank
          (.leaf _ _ (.int 7)) (.close _ _ [] hblank)
  have hdigit (c : Char) (hc : c.isDigit = true) : Json.Digits [c] := ⟨by simp, by simpa⟩
  have hnumber : Json.NumberText (['1'] ++ (['.', '5'] ++ ['e', '3'])) :=
    .parts _ _ _ (.digits _ (hdigit '1' (by decide)) (by decide)) (.digits _ (hdigit '5' (by decide)))
      (.digits 'e' [] _ (by decide) (by decide) (hdigit '3' (by decide)))
  have hnote : Json.WellFormed _ _ :=
    .bracket .square _ _ <| .next _ true [] [] [] _ _ _ _ hblank hblank .item (.number _ hnumber)
      (.close _ _ [] hblank)
  have hkey : Json.Denotes ['\\', '/'] "/".toList := .escape '/' '/' [] [] (by decide) .nil
  have hgrammar : (Grammar.layout ⟨[{ id := 7, assertions := [.not (.constant "x")] }]⟩).Spells _ _ :=
    .record _ _ [] _ _ (.refl _) (by simp) <|
      .other _ true _ [] [] "/" _ [] [] _ _ _ _ hblank hblank hblank hblank hkey (by decide) hnote <|
        .field _ false _ _ [] [] [] [] _ _ _ _ hblank hblank hblank hblank
          (.array _ _ _ (.next true _ _ [] [] _ _ _ _ hblank hblank hproduction (.close _ [] hblank)))
          (.close _ _ [] hblank)
  exact (parse_of_spells _).2 _ _ _ [] _ ['\n'] (by decide) hblank (Json.blank_line_break 0) hgrammar
    (by decide)

end ByteGrammar
