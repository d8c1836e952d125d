import ByteGrammar.Grammar.Basic

/-!
# Names in the output

A `Naming` says how the entry definition, the other definitions and the index variables are called.
`Naming.validate` accepts it when every part is an identifier and the entry cannot be taken for a numbered
rule.
-/

namespace ByteGrammar

/-- How definitions and index variables are named. -/
structure Naming where
  entryName : String := "Main"
  ruleStem : String := "L"
  indexStem : String := "ii"
  deriving DecidableEq, Repr, Inhabited

/-- Why a naming is refused. -/
inductive NamingError where
  /-- The part under `key` is no identifier. -/
  | notIdentifier (key value : String)
  /-- The entry name is the rule stem followed by a number. -/
  | shadowsRule (entryName ruleStem : String)
  deriving DecidableEq, Repr, Inhabited

/-- The wording of a `NamingError`. -/
def NamingError.message : NamingError → String
  | notIdentifier key value =>
      key ++ " must be a non-empty ASCII identifier, got '" ++ value ++ "'"
  | shadowsRule entryName ruleStem =>
      "entry_name '" ++ entryName ++ "' collides with rule names '" ++ ruleStem ++ "<id>'"

/-- Whether a character may start an identifier: an ASCII letter or the underscore. -/
def isIdentifierStart (c : Char) : Bool :=
  c.isAlpha || c == '_'

/-- Whether a character may stand inside an identifier: an ASCII letter, digit or the underscore. -/
def isIdentifierRest (c : Char) : Bool :=
  c.isAlphanum || c == '_'

/-- Whether a text is a non-empty ASCII identifier. -/
def isIdentifier (text : String) : Bool :=
  match text.toList with
  | [] => false
  | c :: cs => isIdentifierStart c && cs.all isIdentifierRest

/-- What follows `stem` in `text`, if `text` starts with it. -/
def afterStem? : (stem text : List Char) → Option (List Char)
  | [], text => some text
  | _ :: _, [] => none
  | c :: stem, d :: text => if c = d then afterStem? stem text else none

/-- A text has a remainder exactly when it is the stem followed by that remainder. -/
theorem after_stem_eq_some_iff {stem text rest : List Char} :
    afterStem? stem text = some rest ↔ text = stem ++ rest := by
  induction stem generalizing text with
  | nil => simp [afterStem?]
  | cons c stem ih =>
      cases text with
      | nil => simp [afterStem?]
      | cons d text =>
          by_cases h : c = d
          · simp [afterStem?, h, ih]
          · simp [afterStem?, h, Ne.symm h]

namespace Naming

/-- Whether the entry name reads as a numbered rule. -/
def entryShadowsRule (naming : Naming) : Bool :=
  match afterStem? naming.ruleStem.toList naming.entryName.toList with
  | none => false
  | some rest => !rest.isEmpty && rest.all Char.isDigit

/-- The first reason to refuse a naming, if there is one. -/
def validate (naming : Naming) : Except NamingError Unit := do
  unless isIdentifier naming.entryName do
    throw (.notIdentifier "entry_name" naming.entryName)
  unless isIdentifier naming.ruleStem do
    throw (.notIdentifier "rule_prefix" naming.ruleStem)
  unless isIdentifier naming.indexStem do
    throw (.notIdentifier "index_var_prefix" naming.indexStem)
  if naming.entryShadowsRule then
    throw (.shadowsRule naming.entryName naming.ruleStem)

/-- The name by which an alternative refers to a production. -/
def ruleName (naming : Naming) (id : UInt32) : String :=
  naming.ruleStem ++ toString id.toNat

/-- The name under which a production is defined. -/
def definitionName (naming : Naming) (production : Production) : String :=
  if production.isEntry then naming.entryName else naming.ruleName production.id

end Naming

end ByteGrammar
