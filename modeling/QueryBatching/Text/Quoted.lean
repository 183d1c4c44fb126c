/-
Texts in double quotes, for messages.

The quote and the backslash get a backslash, the common controls their letters, and every
other character without a mark of its own is shown by its code point.
-/
import QueryBatching.Text.Unmarked

namespace QueryBatching.Text

/-- A character inside a quoted text. -/
def quoteCharacter (c : Char) : List Char :=
  if c = '"' then ['\\', '"']
  else if c = '\\' then ['\\', '\\']
  else if c = '\n' then ['\\', 'n']
  else if c = '\r' then ['\\', 'r']
  else if c = '\t' then ['\\', 't']
  else if c.toNat = 0 then ['\\', '0']
  else if isUnmarked c then ['\\', 'u', '\x7b'] ++ Nat.toDigits 16 c.toNat ++ ['\x7d']
  else [c]

/-- A text in double quotes. -/
def quoted (text : String) : String :=
  "\"" ++ String.ofList (text.toList.flatMap quoteCharacter) ++ "\""

end QueryBatching.Text
