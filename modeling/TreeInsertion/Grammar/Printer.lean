import TreeInsertion.Grammar.Basic
import TreeInsertion.Rule.Printer

/-!
# Written form of grammars

The text of a grammar is one statement with the start symbols and one statement
for each rule.
-/

namespace TreeInsertion

namespace Grammar

def render (g : Grammar Float) : String :=
  let starts := if g.starts.toList.isEmpty then "" else " " ++ g.starts.render
  "start" ++ starts ++ ";\n" ++ String.join (g.rules.map fun r => "\n" ++ r.render ++ "\n")

end Grammar

end TreeInsertion
