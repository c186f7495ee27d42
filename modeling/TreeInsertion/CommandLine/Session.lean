import TreeInsertion.Chart.Parse
import TreeInsertion.CommandLine.Directory
import TreeInsertion.CommandLine.Options
import TreeInsertion.Forest.Drawing
import TreeInsertion.Forest.Readings
import TreeInsertion.Grammar.Reader
import TreeInsertion.Text.Sentence

/-!
# Sessions

A session reads a grammar from a file and then answers one sentence a line until
the input ends.
-/

namespace TreeInsertion

namespace CommandLine

def answer (g : Grammar Float) (o : Options) (sentence : String) : String :=
  let chart := g.parse (words sentence)
  let forest : Forest Float Unit := chart.packedForest
  let readings : List (Forest Float Unit) := chart.readings
  let numbered := readings.zipIdx 1
  (if o.chart then "chart:\n" ++ chart.render ++ "\n\n" else "") ++
    (if o.forest then "forest:\n" ++ forest.render ++ "\n" else "") ++
    (if o.dot then forest.toDot ++ "\n" else "") ++
    "Parsed " ++ readings.length.repr ++ " reading" ++ (if readings.length = 1 then "" else "s") ++
    "\n" ++
    (if o.readings then
      String.join (numbered.map fun (reading, i) =>
        "reading " ++ i.repr ++ ":\n" ++ reading.render ++ "\n")
    else "")

def prompt : String :=
  "> "

def decode (bytes : ByteArray) : Except Failure String :=
  match String.fromUTF8? bytes with
  | some text => .ok text
  | none => .error .notText

def load (content : Except FileError ByteArray) : Except Failure (Grammar Float) := do
  let bytes ← content.mapError .file
  let text ← decode bytes
  (Grammar.read text).mapError .grammar

/-- The lines of the input, each with the line feed at its end. -/
def lines : List UInt8 → List (List UInt8)
  | [] => []
  | byte :: rest =>
      if byte = 10 then [byte] :: lines rest
      else
        match lines rest with
        | [] => [[byte]]
        | line :: more => (byte :: line) :: more

/-- What is written for the lines of the input, up to the failure that ends it if there is one. -/
def converse (g : Grammar Float) (o : Options) : List (List UInt8) → String × Option Failure
  | [] => (prompt, none)
  | line :: rest =>
      match decode ⟨line.toArray⟩ with
      | .error failure => (prompt, some failure)
      | .ok sentence =>
          let (written, failure?) := converse g o rest
          (prompt ++ answer g o sentence ++ written, failure?)

structure Outcome where
  code : UInt32
  stdout : String
  stderr : String
deriving DecidableEq, Repr

namespace Outcome

def ofFailure (stdout : String) (failure : Failure) : Outcome :=
  ⟨1, stdout, "Error: " ++ failure.report ++ "\n"⟩

end Outcome

def run (program : String) (args : List String) (d : Directory) (input : ByteArray) : Outcome :=
  match Invocation.ofArguments program args with
  | .help => ⟨0, usage program ++ "\n", ""⟩
  | .invalid message => ⟨255, "", message ++ "\n"⟩
  | .run options =>
      match load (d.read options.file) with
      | .error failure => .ofFailure "" failure
      | .ok g =>
          match converse g options (lines input.data.toList) with
          | (written, none) => ⟨0, written, ""⟩
          | (written, some failure) => .ofFailure written failure

end CommandLine

end TreeInsertion
