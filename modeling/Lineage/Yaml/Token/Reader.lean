import Lineage.Yaml.Layout
import Lineage.Yaml.Scalar.Block
import Lineage.Yaml.Scalar.Quoted

/-!
# Lineage.Yaml.Token.Reader

Cutting YAML text into tokens.  Anchors, aliases, tags and directives are
refused.

* `length_skipGap_le` — passing over gaps and comments never goes back, and
  each token takes a character, which ends the reading.
-/

namespace Lineage.Yaml

/-! ## between tokens -/

/-- Whether a character is passed over between tokens.  A tab is where no key
may begin, or in a flow collection; a byte order mark is at the beginning of
a line. -/
def isPassed (s : Layout) (p : Placed) : Bool :=
  p.char == ' ' || (p.char == '\t' && (s.inFlow || !s.keyAllowed)) ||
    (p.char == '\ufeff' && p.column == 0)

/-- The state and the position at the next token, past gaps and comments.  In
a block collection a key may begin on a new line. -/
def skipGap (s : Layout) (inComment : Bool) : List Placed → Layout × List Placed
  | [] => (s, [])
  | p :: rest =>
    if p.isBreak then skipGap (if s.inFlow then s else s.allowKey true) false rest
    else if inComment || isPassed s p then skipGap s inComment rest
    else if p.char == '#' then skipGap s true rest
    else (s, p :: rest)

theorem length_skipGap_le (s : Layout) (inComment : Bool) (ps : List Placed) :
    (skipGap s inComment ps).2.length ≤ ps.length := by
  fun_induction skipGap s inComment ps with
  | case1 => exact Nat.le_refl _
  | case2 _ _ _ _ _ ih => exact Nat.le_succ_of_le ih
  | case3 _ _ _ _ _ _ ih => exact Nat.le_succ_of_le ih
  | case4 _ _ _ _ _ _ _ ih => exact Nat.le_succ_of_le ih
  | case5 => exact Nat.le_refl _

/-! ## tokens -/

/-- Whether a character cannot begin a token. -/
def isReserved (c : Char) : Bool :=
  c == '&' || c == '*' || c == '!' || c == '%' || c == '@' || c == '\x60' || c == '|' ||
    c == '>' || c == '\t'

/-- A scalar that may be a key, and what follows it. -/
def readQuoted? (s : Layout) (p : Placed) (rest : List Placed) :
    Option (Layout × Within rest) :=
  (s.propose? p).bind fun s =>
    (quoted? p.char rest).map fun (scalar, r) => ((s.allowKey false).push (.scalar scalar), r)

/-- A plain scalar; after one that ends with a line break a key may begin. -/
def readPlain? (s : Layout) (p : Placed) (rest : List Placed) : Option (Layout × Within rest) :=
  (s.propose? p).bind fun s =>
    (plain? ⟨s.inFlow, s.margin⟩ p rest).map fun (scalar, broken, r) =>
      ((s.allowKey broken).push (.scalar scalar), r)

/-- A block scalar, which is never a key. -/
def readBlock? (s : Layout) (p : Placed) (rest : List Placed) : Option (Layout × Within rest) :=
  s.forget?.bind fun s =>
    (block? (p.char == '>') s.indent? rest).map fun (scalar, r) =>
      ((s.allowKey true).push (.scalar scalar), r)

/-- The token at a position, and what follows its first character. -/
def readToken? (s : Layout) (p : Placed) (rest : List Placed) : Option (Layout × Within rest) :=
  let single := fun (s : Layout) => (s, (⟨rest, Nat.le_refl _⟩ : Within rest))
  let triple := fun (s : Layout) =>
    (s, (⟨rest.drop 2, by rw [List.length_drop]; exact Nat.sub_le _ _⟩ : Within rest))
  if atMark '-' (p :: rest) then (s.mark? .documentStart).map triple
  else if atMark '.' (p :: rest) then (s.mark? .documentEnd).map triple
  else if p.char = '[' then (s.openFlow? p .flowSequence).map single
  else if p.char = '\x7b' then (s.openFlow? p .flowMapping).map single
  else if p.char = ']' then (s.closeFlow? .flowSequenceEnd).map single
  else if p.char = '\x7d' then (s.closeFlow? .flowMappingEnd).map single
  else if p.char = ',' then s.comma?.map single
  else if p.char = '-' ∧ atGap rest then (s.dash? p).map single
  else if p.char = '?' ∧ (s.inFlow ∨ atGap rest) then (s.key? p).map single
  else if p.char = ':' ∧ (s.inFlow ∨ atGap rest) then (s.value? p).map single
  else if (p.char = '|' ∨ p.char = '>') ∧ !s.inFlow then readBlock? s p rest
  else if p.char = '\x27' ∨ p.char = '"' then readQuoted? s p rest
  else if isReserved p.char then none
  else readPlain? s p rest

/-- The tokens of a text from a position on. -/
def readTokens? (s : Layout) (ps : List Placed) : Option (List Token) :=
  have _hs := length_skipGap_le s false ps
  match _h : skipGap s false ps with
  | (s, []) => s.finish?
  | (s, p :: rest) =>
    match s.forgetPast? p with
    | none => none
    | some s =>
      match readToken? (s.dedent p.column) p rest with
      | none => none
      | some (s, ⟨rest', _hr⟩) => readTokens? s rest'
termination_by ps.length
decreasing_by
  rw [_h] at _hs
  simp only [List.length_cons] at _hs
  omega

/-- The tokens of a text. -/
def tokens? (text : String) : Option (List Token) := (source? text).bind (readTokens? {})

end Lineage.Yaml
