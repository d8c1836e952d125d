import ByteGrammar.Text.Hexadecimal

/-!
# JSON trees

The values of the JSON data format, with integers as the only numbers and members in order, and their
indented text. A string is escaped by `escape`, which spends an escape only on quotes, backslashes and
controls.
-/

namespace ByteGrammar

/-- A JSON value. -/
inductive Json where
  | null
  | bool (value : Bool)
  | int (value : Int)
  | string (text : String)
  | array (items : List Json)
  | object (members : List (String × Json))
  deriving Inhabited

namespace Json

/-- How a character stands inside a string. -/
def escapeChar (c : Char) : List Char :=
  if c = '"' then ['\\', '"']
  else if c = '\\' then ['\\', '\\']
  else if c = '\x08' then ['\\', 'b']
  else if c = '\x0c' then ['\\', 'f']
  else if c = '\n' then ['\\', 'n']
  else if c = '\r' then ['\\', 'r']
  else if c = '\t' then ['\\', 't']
  else if c.toNat < 0x20 then
    ['\\', 'u', '0', '0', Text.lowerDigit (c.toNat / 16), Text.lowerDigit (c.toNat % 16)]
  else [c]

/-- A text between quotes. -/
def quote (text : List Char) : List Char :=
  '"' :: text.flatMap escapeChar ++ ['"']

/-- A line break and the indentation of a depth. -/
def lineBreak (depth : Nat) : List Char :=
  '\n' :: List.replicate (2 * depth) ' '

mutual
/-- The indented text of a value that starts at a depth. -/
def pretty (depth : Nat) : Json → List Char
  | .null => ['n', 'u', 'l', 'l']
  | .bool true => ['t', 'r', 'u', 'e']
  | .bool false => ['f', 'a', 'l', 's', 'e']
  | .int value => (toString value).toList
  | .string text => quote text.toList
  | .array [] => ['[', ']']
  | .array (item :: items) =>
      '[' :: lineBreak (depth + 1) ++ item.pretty (depth + 1) ++ prettyItems (depth + 1) items ++
      lineBreak depth ++ [']']
  | .object [] => ['\x7b', '\x7d']
  | .object (entry :: members) =>
      '\x7b' :: lineBreak (depth + 1) ++ prettyMember (depth + 1) entry ++
      prettyMembers (depth + 1) members ++ lineBreak depth ++ ['\x7d']

/-- The items of an array that follow another one. -/
def prettyItems (depth : Nat) : List Json → List Char
  | [] => []
  | item :: items => ',' :: lineBreak depth ++ item.pretty depth ++ prettyItems depth items

/-- A member of an object. -/
def prettyMember (depth : Nat) : String × Json → List Char
  | (key, value) => quote key.toList ++ [':', ' '] ++ value.pretty depth

/-- The members of an object that follow another one. -/
def prettyMembers (depth : Nat) : List (String × Json) → List Char
  | [] => []
  | entry :: members =>
      ',' :: lineBreak depth ++ prettyMember depth entry ++ prettyMembers depth members
end

/-- The indented text of a value. -/
def text (value : Json) : String :=
  String.ofList (value.pretty 0)

end Json

end ByteGrammar
