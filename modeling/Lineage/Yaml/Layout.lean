import Lineage.Yaml.Source
import Lineage.Yaml.Token

/-!
# Lineage.Yaml.Layout

The state in which YAML text is cut into tokens: the tokens so far, the
columns of the open block collections, the open flow collections, and the
tokens that turn out to be keys if a colon follows them.
-/

namespace Lineage.Yaml

/-- A token that is a key if a colon follows it on its line. -/
structure Candidate where
  /-- Number of tokens before it. -/
  index : Nat
  line : Nat
  column : Nat
  /-- Number of bytes before it on its line. -/
  offset : Nat
  /-- Whether only a key can stand there. -/
  required : Bool
deriving DecidableEq, Repr

/-- The bytes that a key may have at most before its colon. -/
def keyLimit : Nat := 1024

/-- Whether a candidate is too far from a place to be a key that a colon there
follows. -/
def Candidate.isPast (k : Candidate) (p : Placed) : Bool :=
  k.line < p.line || k.offset + keyLimit < p.offset

/-- The state of reading tokens. -/
structure Layout where
  tokens : Array Token := #[]
  /-- The columns of the open block collections, innermost first. -/
  indents : List Nat := []
  /-- The candidate of the innermost collection. -/
  candidate : Option Candidate := none
  /-- The candidates outside each open flow collection, innermost first. -/
  outer : List (Option Candidate) := []
  /-- Whether the next token may be a key. -/
  keyAllowed : Bool := true

namespace Layout

/-- Whether a flow collection is open. -/
def inFlow (s : Layout) : Bool := !s.outer.isEmpty

/-- The column of the innermost open block collection. -/
def indent? (s : Layout) : Option Nat := s.indents.head?

/-- The column that the text inside the innermost block collection reaches. -/
def margin (s : Layout) : Nat := s.indent?.elim 0 (· + 1)

/-- A further token. -/
def push (s : Layout) (t : Token) : Layout := { s with tokens := s.tokens.push t }

/-- Whether the next token may be a key. -/
def allowKey (s : Layout) (allowed : Bool) : Layout := { s with keyAllowed := allowed }

/-! ## indentation -/

/-- Opens a block collection at a column inside the innermost one.  Its token
goes behind the first `index` tokens. -/
def indentAt (s : Layout) (column index : Nat) (t : Token) : Layout :=
  if !s.inFlow && s.indent?.all (· < column) then
    { s with indents := column :: s.indents, tokens := s.tokens.insertIdxIfInBounds index t }
  else s

/-- Opens a block collection before the next token. -/
def indent (s : Layout) (column : Nat) (t : Token) : Layout := s.indentAt column s.tokens.size t

/-- Closes the block collections that `keeps` does not hold of. -/
def dedentWhile (keeps : Nat → Bool) (s : Layout) : Layout :=
  if s.inFlow then s
  else
    let closed := s.indents.takeWhile fun column => !keeps column
    { s with
      indents := s.indents.dropWhile fun column => !keeps column
      tokens := s.tokens ++ Array.replicate closed.length Token.blockEnd }

/-- Closes the block collections inside a column. -/
def dedent (s : Layout) (column : Nat) : Layout := s.dedentWhile (· ≤ column)

/-- Closes all block collections. -/
def dedentAll (s : Layout) : Layout := s.dedentWhile fun _ => false

/-! ## candidates -/

/-- Gives up the innermost candidate; one that is required is missed. -/
def forget? (s : Layout) : Option Layout :=
  if s.candidate.any (·.required) then none else some { s with candidate := none }

/-- Gives up the candidates that are too far from a place. -/
def forgetPast? (s : Layout) (p : Placed) : Option Layout :=
  let isMissed := fun (k : Option Candidate) => k.any fun k => k.required && k.isPast p
  if (s.candidate :: s.outer).any isMissed then none
  else
    let near := fun (k : Option Candidate) => k.filter fun k => !k.isPast p
    some { s with candidate := near s.candidate, outer := s.outer.map near }

/-- Makes the next token a candidate if it may be a key. -/
def propose? (s : Layout) (p : Placed) : Option Layout :=
  if s.keyAllowed then
    s.forget?.map fun s =>
      { s with
        candidate := some
          { index := s.tokens.size
            line := p.line
            column := p.column
            offset := p.offset
            required := !s.inFlow && s.indent? == some p.column } }
  else some s

/-! ## collections -/

/-- Opens a flow collection. -/
def openFlow? (s : Layout) (p : Placed) (t : Token) : Option Layout :=
  (s.propose? p).map fun s =>
    ({ s with outer := s.candidate :: s.outer, candidate := none, keyAllowed := true }).push t

/-- Closes a flow collection.  Where none is open the token is misplaced, which
shows when nodes are built. -/
def closeFlow? (s : Layout) (t : Token) : Option Layout :=
  s.forget?.map fun s =>
    match s.outer with
    | [] => (s.allowKey false).push t
    | k :: outer => ({ s with outer, candidate := k, keyAllowed := false }).push t

/-- The comma between the parts of a flow collection. -/
def comma? (s : Layout) : Option Layout := s.forget?.map fun s => (s.allowKey true).push .comma

/-- The dash of an item of a block sequence. -/
def dash? (s : Layout) (p : Placed) : Option Layout :=
  if !s.inFlow && !s.keyAllowed then none
  else
    (s.indent p.column .blockSequence).forget?.map fun s => (s.allowKey true).push .dash

/-- The question mark before a key. -/
def key? (s : Layout) (p : Placed) : Option Layout :=
  if !s.inFlow && !s.keyAllowed then none
  else
    (s.indent p.column .blockMapping).forget?.map fun s => (s.allowKey !s.inFlow).push .key

/-- The colon before a value: the candidate, if there is one, is its key. -/
def value? (s : Layout) (p : Placed) : Option Layout :=
  match s.candidate with
  | some k =>
    let s := { s with tokens := s.tokens.insertIdxIfInBounds k.index .key, candidate := none }
    some (((s.indentAt k.column k.index .blockMapping).allowKey false).push .value)
  | none =>
    if !s.inFlow && !s.keyAllowed then none
    else some (((s.indent p.column .blockMapping).allowKey !s.inFlow).push .value)

/-- A mark between documents. -/
def mark? (s : Layout) (t : Token) : Option Layout :=
  s.dedentAll.forget?.map fun s => (s.allowKey false).push t

/-- The tokens at the end of the text. -/
def finish? (s : Layout) : Option (List Token) := s.dedentAll.forget?.map (·.tokens.toList)

end Layout

end Lineage.Yaml
