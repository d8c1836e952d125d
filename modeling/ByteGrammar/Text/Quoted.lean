import ByteGrammar.Text.Hexadecimal
import ByteGrammar.Text.Printable

/-!
# Quoted text in messages

A text shown in a message stands in double quotes. Quotes, backslashes and the common controls are
escaped by a letter, all other characters that cannot be shown by their number.
-/

namespace ByteGrammar.Text

/-- How a character of a quoted text is shown. -/
def shownChar (c : Char) : List Char :=
  if c = '"' then ['\\', '"']
  else if c = '\\' then ['\\', '\\']
  else if c = '\t' then ['\\', 't']
  else if c = '\n' then ['\\', 'n']
  else if c = '\r' then ['\\', 'r']
  else if c = '\x00' then ['\\', '0']
  else if isUnprintable c then ['\\', 'u', '\x7b'] ++ lowerDigits c.toNat ++ ['\x7d']
  else [c]

/-- A text as it is shown in a message. -/
def quoted (text : String) : String :=
  String.ofList ('"' :: text.toList.flatMap shownChar ++ ['"'])

end ByteGrammar.Text
