import Lineage.Yaml.Scalar
import Lineage.Yaml.Source

/-!
# Lineage.Yaml.Scalar.Block

Block scalars: a header, then lines indented alike.  Literal lines keep their
breaks, folded ones are joined unless one of them begins with a blank.

* `blockBreaks?_length` — reading indentation never goes back.
-/

namespace Lineage.Yaml

/-! ## headers -/

/-- What is done with the line breaks at the end of a block scalar. -/
inductive Chomp where
  /-- Drop them all. -/
  | strip
  /-- Keep the first one. -/
  | clip
  /-- Keep them all. -/
  | keep
deriving DecidableEq, Repr

/-- The line breaks that are left at the end. -/
def Chomp.apply : Chomp → List Char → List Char
  | .strip, _ => []
  | .clip, bs => bs.take 1
  | .keep, bs => bs

/-- What the header of a block scalar says: how to chomp, and by how many
columns the lines are indented. -/
structure BlockHeader where
  chomp : Chomp := .clip
  indent : Option Nat := none
deriving DecidableEq, Repr

/-- The mark that sets the chomping. -/
def chompOf? : Char → Option Chomp
  | '-' => some .strip
  | '+' => some .keep
  | _ => none

/-- The mark that sets the indentation, a digit other than `0`. -/
def indentOf? (c : Char) : Option Nat :=
  if '1' ≤ c ∧ c ≤ '9' then some (c.toNat - '0'.toNat) else none

/-- The header that at most one mark of each kind, in either order, makes. -/
def BlockHeader.ofMarks? : List Char → Option BlockHeader
  | [] => some {}
  | [c] =>
    match chompOf? c, indentOf? c with
    | some chomp, _ => some { chomp }
    | none, some n => some { indent := some n }
    | none, none => none
  | [c, d] =>
    match chompOf? c, indentOf? d, indentOf? c, chompOf? d with
    | some chomp, some n, _, _ => some { chomp, indent := some n }
    | _, _, some n, some chomp => some { chomp, indent := some n }
    | _, _, _, _ => none
  | _ => none

/-- Whether a character may be a mark of a header. -/
def isHeaderMark (p : Placed) : Bool := p.char == '+' || p.char == '-' || p.char.isDigit

/-- The end of a header line: blanks and a comment may follow the marks. -/
def headerEnd? (ps : List Placed) : Option (Within ps) :=
  have h := (ps.dropWhile_suffix Placed.isBlank).length_le
  match hp : ps.dropWhile Placed.isBlank with
  | [] => some ⟨[], Nat.zero_le _⟩
  | p :: rest =>
    if p.isBreak then some ⟨rest, by rw [hp] at h; exact Nat.le_of_succ_le h⟩
    else if p.char = '#' then
      some ⟨(rest.dropWhile fun q => !q.isBreak).tail, by
        have h1 := (rest.dropWhile_suffix fun q => !q.isBreak).length_le
        rw [hp, List.length_cons] at h
        rw [List.length_tail]
        omega⟩
    else none

/-- The header of a block scalar, and the text from the next line on. -/
def blockHeader? (ps : List Placed) : Option (BlockHeader × Within ps) :=
  have h := (ps.dropWhile_suffix isHeaderMark).length_le
  match BlockHeader.ofMarks? ((ps.takeWhile isHeaderMark).map (·.char)) with
  | none => none
  | some header =>
    (headerEnd? (ps.dropWhile isHeaderMark)).map fun ⟨rest, hr⟩ =>
      (header, ⟨rest, Nat.le_trans hr h⟩)

/-! ## lines -/

/-- A line of a block scalar that is not empty, with the breaks after it: the
one that ends it and those of the empty lines that follow. -/
structure BlockLine where
  text : List Char
  breaks : List Char
deriving DecidableEq, Repr

/-- Whether a line begins with a blank. -/
def BlockLine.isIndented (l : BlockLine) : Bool := l.text.head?.any isBlank

/-- The breaks of the empty lines at a position, the widest column they reach,
and the position of the next line's text.  Spaces are passed over up to the
column `indent`, or all of them if the indentation is not known yet; a tab
must not stand among them. -/
def blockBreaks? (indent : Option Nat) (widest : Nat) :
    List Placed → Option (List Char × Nat × List Placed)
  | [] => some ([], widest, [])
  | p :: rest =>
    let inMargin := indent.all (p.column < ·)
    if p.char == ' ' && inMargin then blockBreaks? indent (max widest (p.column + 1)) rest
    else if p.char == '\t' && inMargin then none
    else if p.isBreak then
      (blockBreaks? indent widest rest).map fun (bs, r) => (p.char :: bs, r)
    else some ([], widest, p :: rest)

theorem blockBreaks?_length {indent : Option Nat} {widest w : Nat} {bs : List Char}
    {ps rest : List Placed} (h : blockBreaks? indent widest ps = some (bs, w, rest)) :
    rest.length ≤ ps.length := by
  fun_induction blockBreaks? indent widest ps generalizing bs w rest with
  | case1 => simp_all
  | case2 =>
    rename_i ih
    exact Nat.le_succ_of_le (ih h)
  | case3 => simp at h
  | case4 =>
    rename_i ih
    simp only [Option.map_eq_some_iff, Prod.mk.injEq] at h
    obtain ⟨⟨bs', r⟩, hr, _, rfl⟩ := h
    exact Nat.le_succ_of_le (ih hr)
  | case5 => simp_all

/-- The lines of a block scalar from the text of the first one on, and what
follows them: a line belongs to it when its text begins at the column
`indent`. -/
def blockLines? (indent : Nat) (ps : List Placed) : Option (List BlockLine × Within ps) :=
  match ps with
  | [] => some ([], ⟨[], Nat.le_refl _⟩)
  | p :: rest =>
    if p.column = indent then
      have h := (rest.dropWhile_suffix fun q => !q.isBreak).length_le
      match hb : blockBreaks? (some indent) 0 (rest.dropWhile fun q => !q.isBreak) with
      | none => none
      | some (breaks, _, next) =>
        have hn := blockBreaks?_length hb
        match blockLines? indent next with
        | none => none
        | some (lines, ⟨r, hr⟩) =>
          let text := (rest.takeWhile fun q => !q.isBreak).map (·.char)
          some (⟨p.char :: text, breaks⟩ :: lines,
            ⟨r, by simp only [List.length_cons]; omega⟩)
    else some ([], ⟨p :: rest, Nat.le_refl _⟩)
termination_by ps.length
decreasing_by simp only [List.length_cons]; omega

/-- The text of the lines of a block scalar. -/
def joinLines (folded : Bool) (chomp : Chomp) : List BlockLine → List Char
  | [] => []
  | [l] => l.text ++ chomp.apply l.breaks
  | l :: next :: lines =>
    let breaks :=
      if folded && !l.isIndented && !next.isIndented then foldBreaks l.breaks else l.breaks
    l.text ++ breaks ++ joinLines folded chomp (next :: lines)

/-! ## scalars -/

/-- The column of the lines of a block scalar inside a collection that is
indented to the column `outer`, if there is one.  Where the header does not
say it, it is the widest column that the leading empty lines and the first
text reach. -/
def blockIndent (outer : Option Nat) (header : BlockHeader) (widest : Nat) : Nat :=
  match header.indent with
  | some n => outer.getD 0 + n
  | none => max widest (max 1 (outer.elim 0 (· + 1)))

/-- The block scalar after its mark, and what follows it. -/
def block? (folded : Bool) (outer : Option Nat) (ps : List Placed) :
    Option (Scalar × Within ps) :=
  match blockHeader? ps with
  | none => none
  | some (header, ⟨body, hbody⟩) =>
    match hb : blockBreaks? (header.indent.map (outer.getD 0 + ·)) 0 body with
    | none => none
    | some (breaks, widest, first) =>
      have hf := blockBreaks?_length hb
      match blockLines? (blockIndent outer header widest) first with
      | none => none
      | some (lines, ⟨rest, hr⟩) =>
        let text :=
          match lines with
          | [] => if header.chomp = .keep then breaks else []
          | lines => breaks ++ joinLines folded header.chomp lines
        some (⟨.block, String.ofList text⟩, ⟨rest, by omega⟩)

end Lineage.Yaml
