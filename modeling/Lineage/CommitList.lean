import Lineage.Commit
import Lineage.Text.Blank
import Lineage.Text.Numeral

/-!
# Lineage.CommitList

Commit lists as text, one commit a line: its identifier, its timestamp, and
its parents, separated by blanks.  A line without fields is skipped, and so
is one whose first field begins with `#`.  The first line that cannot be
read is the error.
-/

namespace Lineage

namespace CommitList

/-- Why a line cannot be read. -/
inductive LineFault where
  /-- There is no timestamp after the identifier. -/
  | tooFewFields
  /-- The second field is no signed number of 64 bits. -/
  | badTimestamp (field : String)
deriving DecidableEq, Repr

/-- A line that cannot be read, counted from `1`. -/
structure Fault where
  line : Nat
  fault : LineFault
deriving DecidableEq, Repr

/-- What is wrong with a line. -/
def Fault.message (f : Fault) : String :=
  "malformed commit list: line " ++ toString f.line ++ ": " ++
    match f.fault with
    | .tooFewFields => "expected '<id> <timestamp> [<parent>...]'"
    | .badTimestamp field => "timestamp '" ++ field ++ "' is not an integer"

/-- The commit of a line, if it is not one to skip. -/
def readLine (line : List Char) : Except LineFault (Option (Commit String)) :=
  match Text.fields line with
  | [] | ('#' :: _) :: _ => .ok none
  | [_] => .error .tooFewFields
  | id :: timestamp :: parents =>
    match Text.signed64? timestamp with
    | none => .error (.badTimestamp (String.ofList timestamp))
    | some t => .ok (some ⟨String.ofList id, parents.map String.ofList, t⟩)

/-- The commits of a list of lines, the first of which has the given number. -/
def readLines (number : Nat) : List (List Char) → Except Fault (List (Commit String))
  | [] => .ok []
  | line :: lines =>
    match readLine line with
    | .error fault => .error ⟨number, fault⟩
    | .ok commit =>
      match readLines (number + 1) lines with
      | .error fault => .error fault
      | .ok commits => .ok (commit.toList ++ commits)

/-- The commits of a text. -/
def read (text : String) : Except Fault (List (Commit String)) :=
  readLines 1 (Text.lines text.toList)

end CommitList

end Lineage
