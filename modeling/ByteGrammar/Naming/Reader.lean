import ByteGrammar.Json.Shape
import ByteGrammar.Naming.Basic

/-!
# Namings from JSON

A naming file is a record whose fields all have defaults, and which has no other fields.
-/

namespace ByteGrammar

open Json (Reader)

/-- The keys of a naming file. -/
def Naming.keys : List String :=
  ["entry_name", "rule_prefix", "index_var_prefix"]

/-- The fields of a naming. What is left out has its default. -/
def Naming.fields : Reader.Fields (Option String × Option String × Option String) Naming where
  start := (none, none, none)
  step key := fun (entryName, ruleStem, indexStem) =>
    match key with
    | "entry_name" => do
        return (← Reader.once key entryName Reader.string, ruleStem, indexStem)
    | "rule_prefix" => do
        return (entryName, ← Reader.once key ruleStem Reader.string, indexStem)
    | "index_var_prefix" => do
        return (entryName, ruleStem, ← Reader.once key indexStem Reader.string)
    | _ => Reader.failPending (.unknownField key keys)
  finish := fun (entryName, ruleStem, indexStem) =>
    let default : Naming := {}
    return ⟨entryName.getD default.entryName, ruleStem.getD default.ruleStem,
      indexStem.getD default.indexStem⟩
  positional := do
    let default : Naming := {}
    let entryName ← Reader.itemAtOr 0 default.entryName Reader.string
    let ruleStem ← Reader.itemAtOr 1 default.ruleStem Reader.string
    let indexStem ← Reader.itemAtOr 2 default.indexStem Reader.string
    return ⟨entryName, ruleStem, indexStem⟩

/-- A naming. -/
def Naming.read : Reader Naming :=
  Reader.record "struct LoweringConfig" (some fields)

/-- Why the text of a naming file is refused. -/
inductive Naming.TextError where
  | malformed (error : Json.ReadError)
  | invalid (error : NamingError)
  deriving DecidableEq, Repr, Inhabited

/-- The wording of a `Naming.TextError`. -/
def Naming.TextError.message : Naming.TextError → String
  | malformed error => "malformed config: " ++ error.message
  | invalid error => "invalid config: " ++ error.message

/-- Reads a naming from its text and accepts it only if it is valid. -/
def Naming.ofJson? (source : String) : Except Naming.TextError Naming :=
  match Naming.read.run source with
  | .error error => .error (.malformed error)
  | .ok naming =>
      match naming.validate with
      | .error error => .error (.invalid error)
      | .ok () => .ok naming

end ByteGrammar
