import TreeInsertion.CommandLine.Session

/-!
# The program

Reads a grammar from the file that the arguments name and answers the sentences
on the standard input.
-/

namespace TreeInsertion

namespace CommandLine

/-- The error number of the system, which some calls give with its sign turned. -/
def errorNumber (code : UInt32) : Nat :=
  min code.toNat (0 - code).toNat

def fileErrorOf (e : IO.Error) : FileError :=
  let number := match e with
    | .noFileOrDirectory _ code _ => errorNumber code
    | .inappropriateType _ code _ => errorNumber code
    | .invalidArgument _ code _ => errorNumber code
    | _ => 0
  if number = 2 then .notFound
  else if number = 20 then .notADirectory
  else if number = 21 then .isADirectory
  else if number = 36 then .nameTooLong
  else .other e.toString

def readFile (path : String) : IO (Except FileError ByteArray) := do
  try
    return .ok (← IO.FS.readBinFile path)
  catch e =>
    return .error (fileErrorOf e)

/-- The bytes up to a line feed or the end of the input. -/
partial def readLine (source : IO.FS.Stream) (line : ByteArray) : IO ByteArray := do
  let bytes ← source.read 1
  match bytes.data.toList with
  | [byte] => if byte = 10 then return line.push byte else readLine source (line.push byte)
  | _ => return line

/-- Answer the lines of the input until it ends or fails. -/
partial def converseWith (g : Grammar Float) (o : Options) (source sink : IO.FS.Stream) :
    IO (Option Failure) := do
  sink.putStr prompt
  sink.flush
  let line ← readLine source ByteArray.empty
  if line.isEmpty then return none
  match decode line with
  | .error failure => return some failure
  | .ok sentence =>
      sink.putStr (answer g o sentence)
      converseWith g o source sink

def leave (failure? : Option Failure) : IO UInt32 := do
  match failure? with
  | none => return 0
  | some failure =>
      let outcome := Outcome.ofFailure "" failure
      (← IO.getStderr).putStr outcome.stderr
      return outcome.code

def runWith (program : String) (args : List String) : IO UInt32 := do
  let sink ← IO.getStdout
  match Invocation.ofArguments program args with
  | .help =>
      sink.putStrLn (usage program)
      return 0
  | .invalid message =>
      (← IO.getStderr).putStrLn message
      return 255
  | .run options =>
      match load (← readFile options.file) with
      | .error failure => leave (some failure)
      | .ok g => leave (← converseWith g options (← IO.getStdin) sink)

end CommandLine

end TreeInsertion

def main (args : List String) : IO UInt32 :=
  TreeInsertion.CommandLine.runWith "tigparse" args
