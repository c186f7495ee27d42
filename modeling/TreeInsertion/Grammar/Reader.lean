import TreeInsertion.Grammar.Basic
import TreeInsertion.Grammar.Reader.Statement

/-!
# Reading grammars

A text is a grammar if it consists of statements and if its rules make a grammar.
Without a statement of start symbols the root of the first rule is the only one.
-/

namespace TreeInsertion

namespace Grammar

def rulesOf (statements : List Statement) : List (Rule Float) :=
  statements.filterMap fun
    | .rule r => some r
    | .start _ => none

def startsOf? (statements : List Statement) : Option (List String) :=
  match statements.filterMap fun
    | .start symbols => some symbols
    | .rule _ => none
  with
  | [] => none
  | lists => some lists.flatten

/-- The start symbols, where `first` is the first rule. -/
def startsFor (statements : List Statement) (first : Rule Float) :
    Except ReadError (List String) :=
  match startsOf? statements with
  | some symbols => .ok symbols
  | none =>
      match first.rootSymbol with
      | .error d => .error (.defect d)
      | .ok root => .ok [root]

def ofStatements (statements : List Statement) : Except ReadError (Grammar Float) :=
  match rulesOf statements with
  | [] => .error .noRules
  | first :: rest =>
      match startsFor statements first with
      | .error e => .error e
      | .ok starts =>
          match ofRules (first :: rest) (SymbolSet.ofList starts) with
          | .error d => .error (.defect d)
          | .ok g => .ok g

def ofChars (text : List Char) : Except ReadError (Grammar Float) :=
  match readStatements text with
  | .error e => .error e
  | .ok (statements, []) => ofStatements statements
  | .ok (_, rest) => .error (.unexpectedInput rest)

def read (text : String) : Except ReadError (Grammar Float) :=
  ofChars text.toList

end Grammar

end TreeInsertion
