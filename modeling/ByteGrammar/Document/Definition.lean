/-!
# Definitions of the output language

One definition binds the stream length and the index variables, names the alternatives to try, and
states its guards. `Definition.render` writes it.
-/

namespace ByteGrammar

/-- A `let` line: a variable and the text of the bound that it stands for. -/
structure Binding where
  name : String
  text : String
  deriving DecidableEq, Repr, Inhabited

/-- The line that a binding is written on. -/
def Binding.render (binding : Binding) : String :=
  "    let " ++ binding.name ++ " = " ++ binding.text ++ "\n"

/-- A definition of the output language. -/
structure Definition where
  name : String
  bindings : List Binding
  /-- The rules that each alternative refers to. -/
  alternatives : List (List String)
  guards : List String
  deriving DecidableEq, Repr, Inhabited

namespace Definition

/-- An alternative: its rules in sequence. -/
def renderSequence (rules : List String) : String :=
  "\x7b " ++ String.join (rules.map (· ++ "; ")) ++ "\x7d"

/-- A guard line. -/
def renderGuard (guard : String) : String :=
  "\n    (" ++ guard ++ ") is true"

/-- The text of a definition. The line of alternatives is there even when there is none. -/
def render (definition : Definition) : String :=
  "def " ++ definition.name ++ " = \n  block\n    let len = Len\n" ++
  String.join (definition.bindings.map Binding.render) ++
  "    " ++ " <| ".intercalate (definition.alternatives.map renderSequence) ++ "\n" ++
  String.join (definition.guards.map renderGuard) ++ "\n\n"

end Definition

end ByteGrammar
