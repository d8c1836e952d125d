import ByteGrammar.Document.Definition
import ByteGrammar.Event
import ByteGrammar.Naming.Basic
import ByteGrammar.Term.IndexVars
import ByteGrammar.Term.Render
import ByteGrammar.Term.Substitution

/-!
# Lowering productions to definitions

Every symbolic edge of an interval is bound to a fresh index variable, the references of each alternative
become a conjunction, and the assertions of the production become guards in which the bound terms are
replaced by their variables. `Production.lower` goes through the alternatives item by item, and through the
assertions afterwards. A failure keeps the variables taken so far, because the supply is shared by all
productions of a document.
-/

namespace ByteGrammar

/-- One of the two edges of an interval. -/
inductive Edge where
  | first
  | last
  deriving DecidableEq, Repr, Inhabited

/-- The name of an edge in messages. -/
def Edge.name : Edge → String
  | first => "from"
  | last => "to"

/-- Why a production has no definition. -/
inductive LoweringError where
  /-- An interval lacks an edge. Alternatives and items are counted from zero. -/
  | missingBound (production : UInt32) (alternative item : Nat) (edge : Edge)
  /-- A bound or a guard has no written form. -/
  | render (production : UInt32) (cause : RenderError)
  deriving DecidableEq, Repr, Inhabited

/-- The wording of a `LoweringError`. -/
def LoweringError.message : LoweringError → String
  | missingBound production alternative item edge =>
      "production " ++ toString production.toNat ++ ", alternative " ++ toString alternative ++
      ", item " ++ toString item ++ ": interval has no '" ++ edge.name ++ "' bound"
  | render production cause => "production " ++ toString production.toNat ++ ": " ++ cause.message

/-- The state of lowering: the shared supply of variables and the log, and what the current production
has bound. -/
structure Scope where
  vars : IndexVars := {}
  log : Array Event := #[]
  table : Substitution := .empty
  bindings : List Binding := []
  deriving Inhabited

/-- Lowering can fail, and its state outlives a failure. -/
abbrev Lowering := ExceptT LoweringError (StateM Scope)

namespace Lowering

/-- Appends to the log. -/
def report (events : List Event) : Lowering Unit :=
  modify fun scope => { scope with log := scope.log ++ events }

/-- Writes a term on behalf of a production. -/
def write (production : UInt32) (term : Term) : Lowering String := do
  report (term.fragments.map .rendered)
  match term.render with
  | .ok text => return text
  | .error cause => throw (.render production cause)

/-- Takes a fresh variable. -/
def fresh : Lowering Term := do
  let name := (← get).vars.nextName
  modify fun scope => { scope with vars := scope.vars.advance }
  report [.allocated name]
  return .constant name

/-- Binds a fresh variable to a bound. -/
def bind (production : UInt32) (bound : Term) : Lowering Unit := do
  let var ← fresh
  let name ← write production var
  let text ← write production bound
  modify fun scope => { scope with
    table := scope.table.push bound var
    bindings := scope.bindings ++ [⟨name, text⟩] }

/-- Binds a fresh variable to a symbolic edge. A constant edge is fixed and needs none. -/
def bindEdge (production : UInt32) : Bound → Lowering Unit
  | .constant _ => return ()
  | .symbolic term => bind production term

/-- Binds the edges of the interval at a place, the first one before the last. With an edge missing, the
other one is not looked at. -/
def bindInterval (production : UInt32) (alternative item : Nat) (interval : Interval) :
    Lowering Unit :=
  match interval.first, interval.last with
  | none, _ => throw (.missingBound production alternative item .first)
  | some _, none => throw (.missingBound production alternative item .last)
  | some first, some last => do
      bindEdge production first
      bindEdge production last

/-- Goes through the items of an alternative, each with its place. A reference is added to the conjunction,
and the edges of an interval are bound. -/
def conjoin (production : UInt32) (alternative : Nat) (conjunction : List UInt32) :
    List (RhsItem × Nat) → Lowering (List UInt32)
  | [] => return conjunction
  | (.production id, _) :: items => conjoin production alternative (conjunction ++ [id]) items
  | (.interval range, item) :: items => do
      bindInterval production alternative item range
      conjoin production alternative conjunction items

/-- Goes through alternatives, each with its place, and adds their conjunctions to those before. An empty
conjunction is left out. -/
def alternate (production : UInt32) (conjunctions : List (List UInt32)) :
    List (List RhsItem × Nat) → Lowering (List (List UInt32))
  | [] => return conjunctions
  | (items, alternative) :: alternatives => do
      let conjunction ← conjoin production alternative [] items.zipIdx
      alternate production
        (if conjunction.isEmpty then conjunctions else conjunctions ++ [conjunction]) alternatives

/-- The guards for a list of conjuncts, in terms of the bound variables. A literal `true` and a conjunct
with an empty text give none. -/
def guards (production : UInt32) : List Term → Lowering (List String)
  | [] => return []
  | conjunct :: conjuncts =>
      if conjunct.isTrue then guards production conjuncts
      else do
        let text ← write production ((← get).table.apply conjunct)
        let texts ← guards production conjuncts
        return if text.isEmpty then texts else text :: texts

end Lowering

/-- The definition of a production. -/
def Production.lower (naming : Naming) (production : Production) : Lowering Definition := do
  modify fun scope => { scope with table := .empty, bindings := [] }
  let conjunctions ← Lowering.alternate production.id [] production.alternatives.zipIdx
  let guards ← Lowering.guards production.id (conjunctsAll production.assertions)
  let scope ← get
  let definition : Definition := {
    name := naming.definitionName production
    bindings := scope.bindings
    alternatives := conjunctions.map (·.map naming.ruleName)
    guards }
  Lowering.report [.lowered definition.render production.id scope.table.size
    definition.alternatives.length]
  return definition

/-- The definitions of a list of productions, up to the first failure. -/
def lowerAll (naming : Naming) : List Production → Lowering (List Definition)
  | [] => return []
  | production :: productions => do
      let definition ← production.lower naming
      let definitions ← lowerAll naming productions
      return definition :: definitions

/-- What lowering each production of a list gives, one after the other with one supply of variables and
past any failure, with the number of variables taken by then. -/
def lowerEach (naming : Naming) :
    List Production → Scope → List (Except LoweringError Definition × UInt64) × Scope
  | [], scope => ([], scope)
  | production :: productions, scope =>
      let (result, scope) := (production.lower naming).run scope
      let (results, last) := lowerEach naming productions scope
      ((result, scope.vars.allocated) :: results, last)

end ByteGrammar
