import MethodGraft.Text.Digits

/-!
# Source.Quote — text as a string literal
-/

namespace MethodGraft.Source

def quoteChar (c : Char) : List Char :=
  if c = '"' then ['\\', '"']
  else if c = '\\' then ['\\', '\\']
  else if c = '\n' then ['\\', 'n']
  else if c = '\r' then ['\\', 'r']
  else if c = '\t' then ['\\', 't']
  else if c.toNat < 0x20 then '\\' :: 'u' :: (Digits.hex 4 c.toNat).toList
  else [c]

def quote (text : String) : String := String.ofList (text.toList.flatMap quoteChar)

end MethodGraft.Source
