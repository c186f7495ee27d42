import TreeInsertion.Lexicon.Trie
import TreeInsertion.Rule.Basic
import TreeInsertion.SymbolSet

/-!
# Lexicons

The lexicon of a grammar files its rules under their anchors and knows the start
symbols.
-/

namespace TreeInsertion

structure Lexicon (W : Type) where
  trie : Trie (Rule W)
  starts : SymbolSet

namespace Lexicon

variable {W : Type}

def empty : Lexicon W :=
  ⟨Trie.empty, SymbolSet.empty⟩

/-- A rule without anchors is dropped, since no input can call for it. -/
def add (lex : Lexicon W) (r : Rule W) : Lexicon W :=
  if r.anchors.isEmpty then lex else { lex with trie := lex.trie.insert r r.anchors }

def ofRules (rules : List (Rule W)) (starts : SymbolSet) : Lexicon W :=
  rules.foldl add ⟨Trie.empty, starts⟩

def find (lex : Lexicon W) (tokens : List String) (start : Nat) : List (Rule W) :=
  lex.trie.find (tokens.drop start)

def matchesAt (lex : Lexicon W) (tokens : List String) (start : Nat) :
    List (Nat × List (Rule W)) :=
  lex.trie.matchesFrom 0 (tokens.drop start)

def isStart (lex : Lexicon W) (symbol : String) : Bool :=
  lex.starts.contains symbol

def size (lex : Lexicon W) : Nat :=
  lex.trie.size

def render (lex : Lexicon W) : String :=
  let indices := fun (rules : List (Rule W)) => ", ".intercalate (rules.map fun r => r.index.repr)
  "Lexicon: \x7bstart symbols: " ++ lex.starts.render ++ "\x7d<\n" ++
    lex.trie.branches.render indices 0 ++ ">"

end Lexicon

end TreeInsertion
