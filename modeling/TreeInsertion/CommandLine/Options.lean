/-!
# Options

What the command line asks for.
-/

namespace TreeInsertion

namespace CommandLine

structure Options where
  file : String
  chart : Bool
  forest : Bool
  readings : Bool
  dot : Bool
deriving DecidableEq, Repr

inductive Invocation where
  | run (options : Options)
  | help
  /-- The arguments ask for nothing that can be done, as the message says. -/
  | invalid (message : String)
deriving DecidableEq, Repr

def usage (program : String) : String :=
  "\n".intercalate [
    "Usage: " ++ program ++ " FILE [options]",
    "",
    "Options:",
    "  -h, --help      Print this message",
    "  -c, --chart     Print the parse chart (defaults to not printing)",
    "  -f, --forest    Print the packed derivation forest (defaults to not printing)",
    "  -r, --readings  Print every reading (defaults to only counting them)",
    "  -d, --dot       Print the forest as a Graphviz digraph (defaults to not printing)",
    "",
    "Log output is controlled with RUST_LOG, e.g. RUST_LOG=tigparse=debug"]

def Invocation.reject (program message : String) : Invocation :=
  .invalid ("argument error: " ++ message ++ ".\n\n" ++ usage program)

/-- Take the arguments in order.  The first one that decides the outcome ends it. -/
def Invocation.ofArgumentsFrom (program : String) (file? : Option String) (chosen : Options) :
    List String → Invocation
  | [] =>
      match file? with
      | some file => .run { chosen with file := file }
      | none => .reject program "missing filename"
  | arg :: rest =>
      if arg = "-h" || arg = "--help" then .help
      else if arg = "-c" || arg = "--chart" then
        ofArgumentsFrom program file? { chosen with chart := true } rest
      else if arg = "-f" || arg = "--forest" then
        ofArgumentsFrom program file? { chosen with forest := true } rest
      else if arg = "-r" || arg = "--readings" then
        ofArgumentsFrom program file? { chosen with readings := true } rest
      else if arg = "-d" || arg = "--dot" then
        ofArgumentsFrom program file? { chosen with dot := true } rest
      else if file?.isNone && arg.toList.head? != some '-' then
        ofArgumentsFrom program (some arg) chosen rest
      else .reject program "invalid arguments"

def Invocation.ofArguments (program : String) (args : List String) : Invocation :=
  ofArgumentsFrom program none ⟨"", false, false, false, false⟩ args

end CommandLine

end TreeInsertion
