import Lineage.Command.Arguments
import Lineage.Command.Report
import Lineage.Json.Printer

/-!
# Lineage.Main

The command line: questions are asked by the arguments, and the commit list
comes from standard input.
-/

namespace Lineage

/-- What is printed for an invocation, and the exit code. -/
structure Outcome where
  output : String
  isError : Bool
  code : UInt32

/-- The outcome of a command line that is not carried out. -/
def Usage.outcome (u : Usage) : Outcome :=
  match u with
  | .help | .version => ⟨u.message, false, 0⟩
  | _ => ⟨u.message, true, 2⟩

/-- The outcome of an invocation. -/
def Invocation.outcome (i : Invocation) (input : String) : Outcome :=
  match i.answer input with
  | .ok answer => ⟨answer.json.pretty 0, false, 0⟩
  | .error failure => ⟨"Error: " ++ failure.message, true, 1⟩

/-- Prints an outcome. -/
def Outcome.print (o : Outcome) : IO UInt32 := do
  if o.isError then IO.eprintln o.output else IO.println o.output
  return o.code

/-- Carries out a command line. -/
def run (args : List String) : IO UInt32 := do
  match Invocation.ofArguments args with
  | .error usage => usage.outcome.print
  | .ok invocation =>
    let bytes ← (← IO.getStdin).readBinToEnd
    match String.fromUTF8? bytes with
    | some input => (invocation.outcome input).print
    | none => Outcome.print ⟨"Error reading commits from stdin: no valid UTF-8", true, 1⟩

end Lineage

def main (args : List String) : IO UInt32 := Lineage.run args
