/-!
# Tags

The finite sets of names that tell the variants of a type apart in a file.
-/

namespace ByteGrammar

/-- A finite type whose members have names of their own. -/
class Tag (α : Type) where
  /-- The members in the order in which messages list them. -/
  all : List α
  name : α → String
  /-- The name of a member finds that member. -/
  find_name : ∀ tag, (all.find? fun other => name other == name tag) = some tag

namespace Tag

variable {α : Type} [Tag α]

/-- The member with a name. -/
def ofName? (text : String) : Option α :=
  all.find? fun tag => name tag == text

/-- The names of all members. -/
def names (α : Type) [Tag α] : List String :=
  (all : List α).map name

/-- A name is read back as its member. -/
theorem of_name_name (tag : α) : ofName? (name tag) = some tag :=
  find_name tag

end Tag

end ByteGrammar
