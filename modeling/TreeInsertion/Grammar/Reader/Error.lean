import TreeInsertion.Rule.Defect

/-!
# Errors of the grammar reader

Why a text is not a grammar, and where in the grammar that came up.
-/

namespace TreeInsertion

/-- The lexemes of the format that are more than a single character. -/
inductive Lexeme where
  | name
  | integer
  | decimal
  | address
  | quoted
  | arrow
deriving DecidableEq, Repr

namespace Lexeme

def pattern : Lexeme → String
  | name => "[\\p\x7bAlphabetic\x7d0-9\\-_]+"
  | integer => "[0-9]+"
  | decimal => "[0-9]+(\\.[0-9]+)?([eE][-+]?[0-9]+)?"
  | address => "[0-9]+(\\.[0-9]+)*"
  | quoted => "\"[^\"]*\""
  | arrow => "->"

end Lexeme

inductive Place where
  | name
  | address
  | quotedWord
  | startSymbol
  | ruleIndex
  | anchor (rule : Nat)
  | body (rule : Nat)
  | parent (layer : Address)
  | arrow (layer : Address)
  | entry (layer : Address)
deriving DecidableEq, Repr

namespace Place

def render : Place → String
  | name => "name"
  | address => "gorn number"
  | quotedWord => "quoted word"
  | startSymbol => "start symbol"
  | ruleIndex => "rule index"
  | anchor rule => "rule " ++ rule.repr ++ " anchor"
  | body rule => "rule " ++ rule.repr
  | parent g => "layer " ++ g.render
  | arrow g => "layer " ++ g.render ++ " arrow"
  | entry g => "layer " ++ g.render ++ " entry"

end Place

inductive ReadError where
  /-- A lexeme was needed before `rest`. -/
  | noLexeme (lexeme : Lexeme) (rest : List Char)
  /-- The character was needed before `rest`. -/
  | noChar (c : Char) (rest : List Char)
  /-- A natural number does not fit in 64 bits. -/
  | tooLarge
  | within (place : Place) (cause : ReadError)
  | unknownAttribute (rule : Nat) (name : String)
  | unknownStatement (keyword : String)
  | unexpectedInput (rest : List Char)
  | noRules
  | defect (cause : Defect)
deriving DecidableEq, Repr

namespace ReadError

def message : ReadError → String
  | noLexeme lexeme rest => "couldn't match " ++ lexeme.pattern ++ " at " ++ String.ofList rest
  | noChar c rest => "couldn't match " ++ String.ofList [c] ++ " at " ++ String.ofList rest
  | tooLarge => "number too large to fit in target type"
  | within place cause => place.render ++ ": " ++ cause.message
  | unknownAttribute rule name => "rule " ++ rule.repr ++ ": unknown attribute " ++ name
  | unknownStatement keyword => "expected start or rule, got " ++ keyword
  | unexpectedInput rest => "unexpected input at " ++ String.ofList rest
  | noRules => "empty ruleset"
  | defect cause => cause.message

end ReadError

end TreeInsertion
