import ByteGrammar.Document.Destination

/-!
# Arguments

`Request.ofArguments` reads the arguments of the command from left to right. A request for help or for the
version takes effect as soon as it is met, and so does a fault.
-/

namespace ByteGrammar.CommandLine

/-- What to lower, where to put it, and how to name things. -/
structure Options where
  grammar : String
  output : Destination
  config : Option String
  deriving DecidableEq, Repr, Inhabited

/-- What the arguments ask for. -/
inductive Request where
  | help
  | version
  | usageError
  | run (options : Options)
  deriving DecidableEq, Repr, Inhabited

/-- What has been met so far. -/
structure Collected where
  grammar : Option String := none
  output : Option String := none
  config : Option String := none
  deriving DecidableEq, Repr, Inhabited

/-- The options that take a value. -/
inductive Valued where
  | output
  | config
  deriving DecidableEq, Repr, Inhabited

namespace Collected

/-- Takes the grammar, which is given once and is not empty. -/
def takeGrammar (collected : Collected) (value : String) : Option Collected :=
  if collected.grammar.isSome || value.isEmpty then none
  else some { collected with grammar := some value }

/-- Takes the value of an option, which is given at most once. Only the output may be empty. -/
def take (collected : Collected) (option : Valued) (value : String) : Option Collected :=
  match option with
  | .output =>
      if collected.output.isSome then none else some { collected with output := some value }
  | .config =>
      if collected.config.isSome || value.isEmpty then none
      else some { collected with config := some value }

/-- The request when all arguments have been met. -/
def finish (collected : Collected) : Request :=
  match collected.grammar with
  | none => .usageError
  | some grammar =>
      .run ⟨grammar, .ofText (collected.output.getD Destination.dash), collected.config⟩

/-- The arguments after a double dash, none of which is an option. -/
def positional : Collected → List String → Request
  | collected, [] => collected.finish
  | collected, argument :: arguments =>
      match collected.takeGrammar argument with
      | none => .usageError
      | some collected => positional collected arguments

end Collected

/-- An argument by its form. -/
inductive Form where
  /-- The double dash that ends the options. -/
  | separator
  | help
  | version
  /-- An option with the value that is attached to it. -/
  | attached (option : Valued) (value : String)
  /-- An option whose value is the next argument. -/
  | detached (option : Valued)
  | plain (value : String)
  /-- Anything that looks like an option and is none. -/
  | strange
  deriving DecidableEq, Repr, Inhabited

/-- The form of a long option, after its two dashes. -/
def longForm (text : List Char) : Form :=
  let name := String.ofList (text.takeWhile (· ≠ '='))
  match text.dropWhile (· ≠ '=') with
  | [] =>
      if name = "help" then .help
      else if name = "version" then .version
      else if name = "output" then .detached .output
      else if name = "config" then .detached .config
      else .strange
  | _ :: value =>
      if name = "output" then .attached .output (String.ofList value)
      else if name = "config" then .attached .config (String.ofList value)
      else .strange

/-- The form of a group of short options, after its dash. The first of them decides. -/
def shortForm : List Char → Form
  | 'h' :: _ => .help
  | 'V' :: _ => .version
  | ['o'] => .detached .output
  | 'o' :: '=' :: value => .attached .output (String.ofList value)
  | 'o' :: value => .attached .output (String.ofList value)
  | _ => .strange

/-- The form of an argument. A single dash is a plain value. -/
def Form.ofArgument (argument : String) : Form :=
  match argument.toList with
  | ['-'] => .plain argument
  | ['-', '-'] => .separator
  | '-' :: '-' :: text => longForm text
  | '-' :: text => shortForm text
  | _ => .plain argument

/-- What a list of arguments asks for, given what has been met before. -/
def collect (collected : Collected) : List String → Request
  | [] => collected.finish
  | argument :: arguments =>
      match Form.ofArgument argument with
      | .separator => collected.positional arguments
      | .help => .help
      | .version => .version
      | .strange => .usageError
      | .plain value =>
          match collected.takeGrammar value with
          | none => .usageError
          | some collected => collect collected arguments
      | .attached option value =>
          match collected.take option value with
          | none => .usageError
          | some collected => collect collected arguments
      | .detached option =>
          match arguments with
          | [] => .usageError
          | value :: arguments =>
              match Form.ofArgument value with
              | .plain value =>
                  match collected.take option value with
                  | none => .usageError
                  | some collected => collect collected arguments
              | _ => .usageError

/-- What the arguments of the command ask for. -/
def Request.ofArguments (arguments : List String) : Request :=
  collect {} arguments

end ByteGrammar.CommandLine
