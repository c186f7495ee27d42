import TreeInsertion.Text.Extender
import TreeInsertion.Text.Unprintable

/-!
# Quoted text

A text between double quotes, in which every character can be seen.  What has no
glyph of its own is written as an escape.
-/

namespace TreeInsertion

namespace Quoted

def escape (c : Char) : String :=
  "\\u\x7b" ++ String.ofList (Nat.toDigits 16 c.toNat) ++ "\x7d"

def renderChar (c : Char) : String :=
  if c = '\x00' then "\\0"
  else if c = '\t' then "\\t"
  else if c = '\r' then "\\r"
  else if c = '\n' then "\\n"
  else if c = '"' then "\\\""
  else if c = '\\' then "\\\\"
  else if CharSet.graphemeExtend.contains c || CharSet.unprintable.contains c then escape c
  else String.ofList [c]

def render (text : String) : String :=
  "\"" ++ String.join (text.toList.map renderChar) ++ "\""

end Quoted

end TreeInsertion
