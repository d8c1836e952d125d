import ByteGrammar.Grammar.Tags
import ByteGrammar.Json.Shape

/-!
# Grammars from JSON

Readers of terms and grammars. Each takes the number of brackets that may still be opened and reads its
parts with one less for every bracket around them. A whole grammar may nest `nestingLimit` brackets.
-/

namespace ByteGrammar

open Json (Reader)

/-- How deep brackets may nest in a file. -/
def nestingLimit : Nat := 127

/-- A literal. -/
def Numeral.read (nesting : Nat) : Reader Numeral :=
  Reader.tagged (fun _ : NumeralTag => Reader.failPending (.unitVariant Shape.single.describe)) <|
    match nesting with
    | 0 => none
    | _ + 1 => some fun
      | .unsigned => Numeral.unsigned <$> Reader.unsigned64
      | .signed => Numeral.signed <$> Reader.signed64

/-- The two parts of a rational parameter. -/
def Param.readRational (nesting : Nat) : Reader Param :=
  let expected := "struct variant Param::Rational"
  Reader.record expected <|
    match nesting with
    | 0 => none
    | _ + 1 => some {
        start := ((none, none) : Option Int64 × Option Int64)
        step := fun key (num, den) =>
          match key with
          | "num" => do return (← Reader.once key num Reader.signed64, den)
          | "den" => do return (num, ← Reader.once key den Reader.signed64)
          | _ => Reader.unknown (num, den)
        finish := fun (num, den) => do
          return .rational (← Reader.required "num" num) (← Reader.required "den" den)
        positional := do
          let num ← Reader.itemAt 0 (expected ++ " with 2 elements") Reader.signed64
          let den ← Reader.itemAt 1 (expected ++ " with 2 elements") Reader.signed64
          return .rational num den }

mutual
/-- A term. -/
def Term.read : (nesting : Nat) → Reader Term
  | 0 => Reader.tagged (fun tag : TermTag => Reader.failPending (.unitVariant tag.shape.describe)) none
  | nesting + 1 =>
      Reader.tagged (fun tag : TermTag => Reader.failPending (.unitVariant tag.shape.describe)) <|
      some fun
      | .num => Term.num <$> Numeral.read nesting
      | .bool => Term.bool <$> Reader.boolean
      | .arith => (fun (op, args) => Term.arith op args) <$> readArith nesting
      | .logic => (fun (op, args) => Term.logic op args) <$> readLogic nesting
      | .cmp => (fun (op, lhs, rhs) => Term.cmp op lhs rhs) <$> readCmp nesting
      | .eq => readEq nesting
      | .distinct => (fun (lhs, rhs) => Term.distinct lhs rhs) <$> readDistinct nesting
      | .not => Term.not <$> Term.read nesting
      | .neg => Term.neg <$> Term.read nesting
      | .select => readSelect nesting
      | .concat => Term.concat <$> readTerms nesting
      | .extract => readExtract nesting
      | .app => readApp nesting

/-- A list of terms. -/
def readTerms : (nesting : Nat) → Reader (List Term)
  | 0 => Reader.list none
  | nesting + 1 => Reader.list (some (Term.read nesting))

/-- A parameter. -/
def Param.read : (nesting : Nat) → Reader Param
  | 0 => Reader.tagged (fun tag : ParamTag => Reader.failPending (.unitVariant tag.shape.describe)) none
  | nesting + 1 =>
      Reader.tagged (fun tag : ParamTag => Reader.failPending (.unitVariant tag.shape.describe)) <|
      some fun
      | .int => Param.int <$> Reader.signed64
      | .double => Param.double <$> Reader.unsigned64
      | .rational => Param.readRational nesting
      | .symbol => Param.symbol <$> Reader.string
      | .sort => Param.sort <$> Reader.string
      | .term => Param.term <$> Term.read nesting
      | .funcDecl => Param.funcDecl <$> Reader.string

/-- A list of parameters. -/
def readParams : (nesting : Nat) → Reader (List Param)
  | 0 => Reader.list none
  | nesting + 1 => Reader.list (some (Param.read nesting))

/-- An arithmetic operator with its operands. -/
def readArith : (nesting : Nat) → Reader (ArithOp × List Term)
  | 0 => Reader.pair "tuple variant Term::Arith" none
  | nesting + 1 =>
      Reader.pair "tuple variant Term::Arith" (some (Reader.bareTag nesting, readTerms nesting))

/-- A connective with its operands. -/
def readLogic : (nesting : Nat) → Reader (LogicOp × List Term)
  | 0 => Reader.pair "tuple variant Term::Logic" none
  | nesting + 1 =>
      Reader.pair "tuple variant Term::Logic" (some (Reader.bareTag nesting, readTerms nesting))

/-- A comparison with its two sides. -/
def readCmp : (nesting : Nat) → Reader (CmpOp × Term × Term)
  | 0 => Reader.triple "tuple variant Term::Cmp" none
  | nesting + 1 =>
      Reader.triple "tuple variant Term::Cmp"
        (some (Reader.bareTag nesting, Term.read nesting, Term.read nesting))

/-- The two sides of an inequality. -/
def readDistinct : (nesting : Nat) → Reader (Term × Term)
  | 0 => Reader.pair "tuple variant Term::Distinct" none
  | nesting + 1 =>
      Reader.pair "tuple variant Term::Distinct" (some (Term.read nesting, Term.read nesting))

/-- The fields of an equality. -/
def readEq : (nesting : Nat) → Reader Term
  | 0 => Reader.record "struct variant Term::Eq" (none : Option (Reader.Fields Unit Term))
  | nesting + 1 =>
      Reader.record "struct variant Term::Eq" <| some {
        start := ((none, none, none) : Option Term × Option Term × Option Bool)
        step := fun key (lhs, rhs, naming) =>
          match key with
          | "lhs" => do return (← Reader.once key lhs (Term.read nesting), rhs, naming)
          | "rhs" => do return (lhs, ← Reader.once key rhs (Term.read nesting), naming)
          | "naming" => do return (lhs, rhs, ← Reader.once key naming Reader.boolean)
          | _ => Reader.unknown (lhs, rhs, naming)
        finish := fun (lhs, rhs, naming) => do
          return .eq (← Reader.required "lhs" lhs) (← Reader.required "rhs" rhs) (naming.getD false)
        positional := do
          let lhs ← Reader.itemAt 0 "struct variant Term::Eq with 3 elements" (Term.read nesting)
          let rhs ← Reader.itemAt 1 "struct variant Term::Eq with 3 elements" (Term.read nesting)
          let naming ← Reader.itemAtOr 2 false Reader.boolean
          return .eq lhs rhs naming }

/-- The fields of a byte read. -/
def readSelect : (nesting : Nat) → Reader Term
  | 0 => Reader.record "struct variant Term::Select" (none : Option (Reader.Fields Unit Term))
  | nesting + 1 =>
      Reader.record "struct variant Term::Select" <| some {
        start := ((none, none) : Option Term × Option Term)
        step := fun key (array, index) =>
          match key with
          | "array" => do return (← Reader.once key array (Term.read nesting), index)
          | "index" => do return (array, ← Reader.once key index (Term.read nesting))
          | _ => Reader.unknown (array, index)
        finish := fun (array, index) => do
          return .select (← Reader.required "array" array) (← Reader.required "index" index)
        positional := do
          let array ←
            Reader.itemAt 0 "struct variant Term::Select with 2 elements" (Term.read nesting)
          let index ←
            Reader.itemAt 1 "struct variant Term::Select with 2 elements" (Term.read nesting)
          return .select array index }

/-- The fields of a bit range. -/
def readExtract : (nesting : Nat) → Reader Term
  | 0 => Reader.record "struct variant Term::Extract" (none : Option (Reader.Fields Unit Term))
  | nesting + 1 =>
      Reader.record "struct variant Term::Extract" <| some {
        start := ((none, none) : Option (List Term) × Option (List Param))
        step := fun key (args, params) =>
          match key with
          | "args" => do return (← Reader.once key args (readTerms nesting), params)
          | "params" => do return (args, ← Reader.once key params (readParams nesting))
          | _ => Reader.unknown (args, params)
        finish := fun (args, params) => do
          return .extract (← Reader.required "args" args) (← Reader.required "params" params)
        positional := do
          let args ← Reader.itemAt 0 "struct variant Term::Extract with 2 elements" (readTerms nesting)
          let params ←
            Reader.itemAt 1 "struct variant Term::Extract with 2 elements" (readParams nesting)
          return .extract args params }

/-- The fields of any other operator. -/
def readApp : (nesting : Nat) → Reader Term
  | 0 => Reader.record "struct variant Term::App" (none : Option (Reader.Fields Unit Term))
  | nesting + 1 =>
      Reader.record "struct variant Term::App" <| some {
        start := ((none, none, none) : Option String × Option (List Term) × Option (List Param))
        step := fun key (name, args, params) =>
          match key with
          | "name" => do return (← Reader.once key name Reader.string, args, params)
          | "args" => do return (name, ← Reader.once key args (readTerms nesting), params)
          | "params" => do return (name, args, ← Reader.once key params (readParams nesting))
          | _ => Reader.unknown (name, args, params)
        finish := fun (name, args, params) => do
          return .app (← Reader.required "name" name) (args.getD []) (params.getD [])
        positional := do
          let name ← Reader.itemAt 0 "struct variant Term::App with 3 elements" Reader.string
          let args ← Reader.itemAtOr 1 [] (readTerms nesting)
          let params ← Reader.itemAtOr 2 [] (readParams nesting)
          return .app name args params }
end

/-- A bound. -/
def Bound.read (nesting : Nat) : Reader Bound :=
  Reader.tagged (fun _ : BoundTag => Reader.failPending (.unitVariant Shape.single.describe)) <|
    match nesting with
    | 0 => none
    | nesting + 1 => some fun
      | .constant => Bound.constant <$> Reader.signed64
      | .symbolic => Bound.symbolic <$> Term.read nesting

/-- An interval. A missing edge may also be left out, but not in the array notation. -/
def Interval.read (nesting : Nat) : Reader Interval :=
  Reader.record "struct Interval" <|
    match nesting with
    | 0 => none
    | nesting + 1 => some {
        start := ((none, none) : Option (Option Bound) × Option (Option Bound))
        step := fun key (first, last) =>
          match key with
          | "from" => do
              return (← Reader.once key first (Reader.optional (Bound.read nesting)), last)
          | "to" => do
              return (first, ← Reader.once key last (Reader.optional (Bound.read nesting)))
          | _ => Reader.unknown (first, last)
        finish := fun (first, last) => return ⟨first.join, last.join⟩
        positional := do
          let edge := Reader.optional (Bound.read nesting)
          let first ← Reader.itemAt 0 "struct Interval with 2 elements" edge
          let last ← Reader.itemAt 1 "struct Interval with 2 elements" edge
          return ⟨first, last⟩ }

/-- An item of an alternative. -/
def RhsItem.read (nesting : Nat) : Reader RhsItem :=
  Reader.tagged (fun _ : ItemTag => Reader.failPending (.unitVariant Shape.single.describe)) <|
    match nesting with
    | 0 => none
    | nesting + 1 => some fun
      | .production => RhsItem.production <$> Reader.unsigned32
      | .interval => RhsItem.interval <$> Interval.read nesting

/-- The alternatives of a production. -/
def Production.readAlternatives (nesting : Nat) : Reader (List (List RhsItem)) :=
  Reader.list <|
    match nesting with
    | 0 => none
    | nesting + 1 => some <| Reader.list <|
        match nesting with
        | 0 => none
        | nesting + 1 => some (RhsItem.read nesting)

/-- A production. -/
def Production.read (nesting : Nat) : Reader Production :=
  Reader.record "struct Production" <|
    match nesting with
    | 0 => none
    | nesting + 1 => some {
        start := ((none, none, none) :
          Option UInt32 × Option (List (List RhsItem)) × Option (List Term))
        step := fun key (id, alternatives, assertions) =>
          match key with
          | "id" => do return (← Reader.once key id Reader.unsigned32, alternatives, assertions)
          | "alternatives" => do
              return (id, ← Reader.once key alternatives (readAlternatives nesting), assertions)
          | "assertions" => do
              return (id, alternatives, ← Reader.once key assertions (readTerms nesting))
          | _ => Reader.unknown (id, alternatives, assertions)
        finish := fun (id, alternatives, assertions) => do
          return ⟨← Reader.required "id" id, alternatives.getD [], assertions.getD []⟩
        positional := do
          let id ← Reader.itemAt 0 "struct Production with 3 elements" Reader.unsigned32
          let alternatives ← Reader.itemAtOr 1 [] (readAlternatives nesting)
          let assertions ← Reader.itemAtOr 2 [] (readTerms nesting)
          return ⟨id, alternatives, assertions⟩ }

/-- The productions of a grammar. -/
def Grammar.readProductions (nesting : Nat) : Reader (List Production) :=
  Reader.list <|
    match nesting with
    | 0 => none
    | nesting + 1 => some (Production.read nesting)

/-- A grammar. -/
def Grammar.read (nesting : Nat) : Reader Grammar :=
  Reader.record "struct Grammar" <|
    match nesting with
    | 0 => none
    | nesting + 1 => some {
        start := (none : Option (List Production))
        step := fun key productions =>
          match key with
          | "productions" => Reader.once key productions (readProductions nesting)
          | _ => Reader.unknown productions
        finish := fun productions => do
          return ⟨← Reader.required "productions" productions⟩
        positional := do
          let productions ←
            Reader.itemAt 0 "struct Grammar with 1 element" (readProductions nesting)
          return ⟨productions⟩ }

/-- Reads a grammar from its text. -/
def Grammar.ofJson? (source : String) : Except Json.ReadError Grammar :=
  (Grammar.read nestingLimit).run source

end ByteGrammar
