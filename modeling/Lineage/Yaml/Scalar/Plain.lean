import Lineage.Yaml.Scalar
import Lineage.Yaml.Source

/-!
# Lineage.Yaml.Scalar.Plain

Plain scalars: words with gaps between them.  A gap of blanks stays as it is,
one with line breaks is folded.

* `plainRest?_length` — what follows a plain scalar is no longer than what
  began there.
-/

namespace Lineage.Yaml

/-- What a gap between two words of a flow scalar becomes. -/
def foldGap (gap : List Char) : List Char :=
  match gap.filter isBreak with
  | [] => gap
  | bs => foldBreaks bs

/-- Whether a character delimits the parts of a flow collection. -/
def isFlowMark (c : Char) : Bool := c == ',' || c == '[' || c == ']' || c == '\x7b' || c == '\x7d'

/-- Where a plain scalar stands: in a flow collection or not, and the column
that its further lines must reach. -/
structure PlainPlace where
  inFlow : Bool
  margin : Nat

/-- Whether a plain scalar ends before a character in the middle of a word. -/
def endsWord (inFlow : Bool) (p : Placed) (rest : List Placed) : Bool :=
  (p.char == ':' && atGap rest) || (inFlow && isFlowMark p.char)

/-- Whether a plain scalar ends before a character that a gap precedes. -/
def endsLine (place : PlainPlace) (p : Placed) (rest : List Placed) : Bool :=
  (!place.inFlow && p.column < place.margin) || p.char == '#' || atDocumentMark (p :: rest)

/-- Whether a colon is followed by a character that must not follow one in a
flow collection. -/
def isMisplacedColon (inFlow : Bool) (p : Placed) (rest : List Placed) : Bool :=
  inFlow && p.char == ':' && rest.head?.any fun q => q.char == '?' || isFlowMark q.char

/-- Whether a tab stands where a further line has to be indented by spaces. -/
def isMisplacedTab (place : PlainPlace) (gap : List Char) (p : Placed) : Bool :=
  gap.any isBreak && p.column < place.margin && p.char == '\t'

/-- What a plain scalar continues with after the gap read so far, whether the
gap at its end breaks a line, and what follows. -/
def plainRest? (place : PlainPlace) (gap : List Char) :
    List Placed → Option (List Char × Bool × List Placed)
  | [] => some ([], gap.any isBreak, [])
  | p :: rest =>
    if p.isGap then
      if isMisplacedTab place gap p then none else plainRest? place (gap ++ [p.char]) rest
    else if !gap.isEmpty && endsLine place p rest then some ([], gap.any isBreak, p :: rest)
    else if isMisplacedColon place.inFlow p rest then none
    else if endsWord place.inFlow p rest then some ([], gap.any isBreak, p :: rest)
    else (plainRest? place [] rest).map fun (cs, r) => (foldGap gap ++ p.char :: cs, r)

theorem plainRest?_length {place : PlainPlace} {gap cs : List Char} {broken : Bool}
    {ps rest : List Placed} (h : plainRest? place gap ps = some (cs, broken, rest)) :
    rest.length ≤ ps.length := by
  fun_induction plainRest? place gap ps generalizing cs broken rest with
  | case1 => simp_all
  | case2 => simp at h
  | case3 gap p ps _ _ ih => exact Nat.le_succ_of_le (ih h)
  | case4 => simp_all
  | case5 => simp at h
  | case6 => simp_all
  | case7 gap p ps _ _ _ _ ih =>
    simp only [Option.map_eq_some_iff, Prod.mk.injEq] at h
    obtain ⟨⟨cs', r⟩, hr, _, rfl⟩ := h
    exact Nat.le_succ_of_le (ih hr)

/-- The plain scalar that begins with `first`, whether it ends with a line
break, and what follows it. -/
def plain? (place : PlainPlace) (first : Placed) (rest : List Placed) :
    Option (Scalar × Bool × Within rest) :=
  match h : plainRest? place [] rest with
  | some (cs, broken, r) =>
    some (⟨.plain, String.ofList (first.char :: cs)⟩, broken, ⟨r, plainRest?_length h⟩)
  | none => none

end Lineage.Yaml
