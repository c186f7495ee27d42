import TreeInsertion.Decimal.Numeral
import TreeInsertion.Rule.Basic

/-!
# Written form of rules

A rule is written as a statement of the grammar format, one layer to a line.
-/

namespace TreeInsertion

namespace Rule

def render (r : Rule Float) : String :=
  let spine := match r.spine with
    | some g => " spine " ++ g.render
    | none => ""
  "rule " ++ r.index.repr ++ " [" ++ " ".intercalate (r.anchors.map Word.render) ++
    "] freq " ++ r.freq.repr ++ " prob " ++ Decimal.render r.weight ++ spine ++ " \x7b\n" ++
    String.join (r.layers.map fun l => "  " ++ l.render ++ ";\n") ++ "\x7d"

end Rule

end TreeInsertion
