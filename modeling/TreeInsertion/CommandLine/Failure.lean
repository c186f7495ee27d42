import TreeInsertion.Grammar.Reader.Error
import TreeInsertion.Text.Quoted

/-!
# Failures

Why the program gives up, and the report that it leaves.
-/

namespace TreeInsertion

namespace CommandLine

inductive FileError where
  | notFound
  | notADirectory
  | isADirectory
  | nameTooLong
  /-- A failure of another kind, in the words of the system. -/
  | other (message : String)
deriving DecidableEq, Repr

namespace FileError

def systemReport (code : Nat) (kind message : String) : String :=
  "Os \x7b code: " ++ code.repr ++ ", kind: " ++ kind ++ ", message: " ++ Quoted.render message ++
    " \x7d"

def report : FileError → String
  | notFound => systemReport 2 "NotFound" "No such file or directory"
  | notADirectory => systemReport 20 "NotADirectory" "Not a directory"
  | isADirectory => systemReport 21 "IsADirectory" "Is a directory"
  | nameTooLong => systemReport 36 "InvalidFilename" "File name too long"
  | other message => Quoted.render message

end FileError

inductive Failure where
  | file (cause : FileError)
  /-- A file or a line of the input is not text. -/
  | notText
  | grammar (cause : ReadError)
deriving DecidableEq, Repr

namespace Failure

def address (g : Address) : String :=
  "GornNumber([" ++ ", ".intercalate (g.path.map Nat.repr) ++ "])"

def record (name : String) (rule : Nat) (more : String) : String :=
  name ++ " \x7b rule: " ++ rule.repr ++ more ++ " \x7d"

def reportDefect : Defect → String
  | .noLayers rule => record "NoLayers" rule ""
  | .missingLeftHandSide rule g => record "MissingLeftHandSide" rule (", gorn: " ++ address g)
  | .rootNotFirst rule g => record "RootNotFirst" rule (", gorn: " ++ address g)
  | .duplicateLayer rule g => record "DuplicateLayer" rule (", gorn: " ++ address g)
  | .orphanLayer rule g => record "OrphanLayer" rule (", gorn: " ++ address g)
  | .badSpine rule fault => record "BadSpine" rule (", reason: " ++ Quoted.render fault.message)
  | .duplicateIndex rule => "DuplicateIndex(" ++ rule.repr ++ ")"

/-- Defects and system errors are reported with their parts, and other errors by their message. -/
def report : Failure → String
  | file cause => cause.report
  | notText =>
      "Error \x7b kind: InvalidData, message: " ++
        Quoted.render "stream did not contain valid UTF-8" ++ " \x7d"
  | grammar (.defect cause) => reportDefect cause
  | grammar .tooLarge => "ParseIntError \x7b kind: PosOverflow \x7d"
  | grammar cause => Quoted.render cause.message

end Failure

end CommandLine

end TreeInsertion
