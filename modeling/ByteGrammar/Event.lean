/-!
# Progress events

What lowering and saving report while they run, in order, for whoever listens.
-/

namespace ByteGrammar

/-- How much an event matters. -/
inductive Level where
  | trace
  | debug
  | info
  | error
  deriving DecidableEq, Repr, Inhabited

/-- The name of a level in a log line. -/
def Level.name : Level → String
  | trace => "TRACE"
  | debug => "DEBUG"
  | info => "INFO"
  | error => "ERROR"

/-- Something that happened. -/
inductive Event where
  /-- A term or sub-term has been written. -/
  | rendered (fragment : String)
  /-- An index variable has been taken. -/
  | allocated (name : String)
  /-- A production has become a definition. -/
  | lowered (text : String) (production : UInt32) (freshVars alternatives : Nat)
  /-- A whole document has been made. -/
  | documented (productions : Nat) (freshVars : UInt64)
  /-- A document goes nowhere. -/
  | notPersisted
  /-- A document has been saved. -/
  | saved (path : String)
  deriving DecidableEq, Repr, Inhabited

namespace Event

/-- How much an event matters. -/
def level : Event → Level
  | rendered _ | allocated _ => .trace
  | lowered _ _ _ _ | documented _ _ | notPersisted => .debug
  | saved _ => .info

/-- The wording of an event. -/
def message : Event → String
  | rendered _ => "rendered"
  | allocated _ => "allocated index variable"
  | lowered text _ _ _ => "lowered production\n" ++ text
  | documented _ _ => "rendered document"
  | notPersisted => "destination is '-', document not persisted"
  | saved path => path ++ " dumped!"

end Event

end ByteGrammar
