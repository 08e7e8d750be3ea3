/-!
# Lineage.Yaml.Source

YAML text as a list of characters, each with its line, its column and the bytes
before it on the line.  All count from zero.  The layout of a YAML text carries
meaning, so whatever reads one has to know where a character stands.
-/

namespace Lineage.Yaml

/-! ## characters -/

/-- Whether a character may occur in YAML text. -/
def isAllowed (c : Char) : Bool :=
  let n := c.toNat
  n == 0x09 || n == 0x0a || n == 0x0d || (0x20 ≤ n && n ≤ 0x7e) || n == 0x85 ||
    (0xa0 ≤ n && n ≤ 0xd7ff) || (0xe000 ≤ n && n ≤ 0xfffd) || 0x10000 ≤ n

/-- Whether a character is a blank within a line. -/
def isBlank (c : Char) : Bool := c == ' ' || c == '\t'

/-- Whether a character ends a line. -/
def isBreak (c : Char) : Bool := c == '\n' || c == '\u2028' || c == '\u2029'

/-- A text with a line feed for each carriage return, next line character, or
carriage return with its line feed. -/
def unifyBreaks : List Char → List Char
  | '\r' :: '\n' :: cs => '\n' :: unifyBreaks cs
  | '\r' :: cs => '\n' :: unifyBreaks cs
  | '\x85' :: cs => '\n' :: unifyBreaks cs
  | c :: cs => c :: unifyBreaks cs
  | [] => []

/-! ## places -/

/-- A character at its place. -/
structure Placed where
  char : Char
  line : Nat
  column : Nat
  /-- Number of bytes before it on its line, in UTF-8. -/
  offset : Nat
deriving DecidableEq, Repr

/-- Whether a character is a blank within a line. -/
def Placed.isBlank (p : Placed) : Bool := Yaml.isBlank p.char

/-- Whether a character ends a line. -/
def Placed.isBreak (p : Placed) : Bool := Yaml.isBreak p.char

/-- Whether a character is a blank or ends a line. -/
def Placed.isGap (p : Placed) : Bool := p.isBlank || p.isBreak

/-- Characters with their places, the first one at the given place. -/
def placed (line column offset : Nat) : List Char → List Placed
  | [] => []
  | c :: cs =>
    ⟨c, line, column, offset⟩ ::
      if isBreak c then placed (line + 1) 0 0 cs
      else placed line (column + 1) (offset + c.utf8Size) cs

/-- The characters of a text, if all of them are allowed. -/
def source? (text : String) : Option (List Placed) :=
  if text.toList.all isAllowed then some (placed 0 0 0 (unifyBreaks text.toList)) else none

/-! ## positions

A position in a text is the list of the characters from there on. -/

/-- What is left of a text, or all of it. -/
abbrev Within {β : Type} (cs : List β) := { rest : List β // rest.length ≤ cs.length }

/-- What is left of a text after at least one character of it. -/
abbrev After {β : Type} (cs : List β) := { rest : List β // rest.length < cs.length }

/-- Whether a gap, or the end of the text, is at a position. -/
def atGap : List Placed → Bool
  | [] => true
  | p :: _ => p.isGap

/-- Whether a line at a position consists of three times the character `mark`,
with a gap after it: the marks between documents. -/
def atMark (mark : Char) : List Placed → Bool
  | a :: b :: c :: rest =>
    a.column == 0 && a.char == mark && b.char == mark && c.char == mark && atGap rest
  | _ => false

/-- Whether a mark between documents is at a position. -/
def atDocumentMark (cs : List Placed) : Bool := atMark '-' cs || atMark '.' cs

end Lineage.Yaml
