import Lineage.Text.Numeral
import Lineage.Yaml.Scalar.Plain

/-!
# Lineage.Yaml.Scalar.Quoted

Quoted scalars.  Between single quotes a quote is written twice and nothing
else is special; between double quotes a backslash begins an escape.  Gaps are
folded in both, unless a backslash at the end of a line joins it to the next.

* `singlePieces?_length`, `doublePieces?_length` — what follows a quoted scalar
  is shorter than what followed its opening quote.
-/

namespace Lineage.Yaml

/-- A piece of a quoted scalar. -/
inductive Piece where
  /-- A character that stays. -/
  | kept (c : Char)
  /-- A blank or a line break that belongs to a gap. -/
  | gap (c : Char)
  /-- A backslash with the line break after it. -/
  | joint
deriving DecidableEq, Repr

/-- A character that stands for itself. -/
def Piece.ofPlaced (p : Placed) : Piece := if p.isGap then .gap p.char else .kept p.char

/-- What a gap becomes; after a joint only its line breaks are left. -/
def closeGap (joined : Bool) (gap : List Char) : List Char :=
  if joined then gap.filter isBreak else foldGap gap

/-- The text of some pieces after a gap. -/
def foldPieces (joined : Bool) (gap : List Char) : List Piece → List Char
  | [] => closeGap joined gap
  | .kept c :: pieces => closeGap joined gap ++ c :: foldPieces false [] pieces
  | .gap c :: pieces => foldPieces joined (gap ++ [c]) pieces
  | .joint :: pieces => closeGap joined gap ++ foldPieces true [] pieces

/-! ## single quotes -/

/-- The pieces up to the closing single quote, and what follows it. -/
def singlePieces? : List Placed → Option (List Piece × List Placed)
  | [] => none
  | p :: rest =>
    if atDocumentMark (p :: rest) then none
    else if p.char = '\x27' then
      match rest with
      | q :: rest' =>
        if q.char = '\x27' then
          (singlePieces? rest').map fun (pieces, r) => (.kept '\x27' :: pieces, r)
        else some ([], rest)
      | [] => some ([], [])
    else (singlePieces? rest).map fun (pieces, r) => (.ofPlaced p :: pieces, r)

theorem singlePieces?_length {ps rest : List Placed} {pieces : List Piece}
    (h : singlePieces? ps = some (pieces, rest)) : rest.length < ps.length := by
  fun_induction singlePieces? ps generalizing pieces rest with
  | case1 => simp at h
  | case2 => simp at h
  | case3 p _ _ q rest' _ ih =>
    simp only [Option.map_eq_some_iff, Prod.mk.injEq] at h
    obtain ⟨⟨pieces', r⟩, hr, _, rfl⟩ := h
    have := ih hr
    simp only [List.length_cons]
    omega
  | case4 p _ _ q rest' _ => simp_all
  | case5 => simp_all
  | case6 p ps _ _ ih =>
    simp only [Option.map_eq_some_iff, Prod.mk.injEq] at h
    obtain ⟨⟨pieces', r⟩, hr, _, rfl⟩ := h
    exact Nat.lt_succ_of_lt (ih hr)

/-! ## double quotes -/

/-- The character that a one-letter escape stands for. -/
def shortEscape? : Char → Option Char
  | '0' => some '\x00'
  | 'a' => some '\x07'
  | 'b' => some '\x08'
  | 't' | '\t' => some '\t'
  | 'n' => some '\n'
  | 'v' => some '\x0b'
  | 'f' => some '\x0c'
  | 'r' => some '\r'
  | 'e' => some '\x1b'
  | ' ' => some ' '
  | '"' => some '"'
  | '/' => some '/'
  | '\\' => some '\\'
  | 'N' => some '\x85'
  | '_' => some '\xa0'
  | 'L' => some '\u2028'
  | 'P' => some '\u2029'
  | _ => none

/-- The number of hexadecimal digits after an escape letter. -/
def hexWidth? : Char → Option Nat
  | 'x' => some 2
  | 'u' => some 4
  | 'U' => some 8
  | _ => none

/-- The character that exactly `width` hexadecimal digits stand for. -/
def hexChar? (width : Nat) (digits : List Char) : Option Char :=
  if digits.length = width then
    (Text.nat? 16 digits).bind fun n => if n.isValidChar then some (Char.ofNat n) else none
  else none

/-- The piece that an escape stands for, given what follows its backslash, and
what follows the escape. -/
def escape? : List Placed → Option (Piece × List Placed)
  | [] => none
  | p :: rest =>
    if p.isBreak then some (.joint, rest)
    else
      match hexWidth? p.char with
      | some width =>
        (hexChar? width ((rest.take width).map (·.char))).map fun c => (.kept c, rest.drop width)
      | none => (shortEscape? p.char).map fun c => (.kept c, rest)

theorem escape?_length {ps rest : List Placed} {piece : Piece}
    (h : escape? ps = some (piece, rest)) : rest.length ≤ ps.length := by
  unfold escape? at h
  split at h
  · simp at h
  · split at h
    · simp_all
    · split at h
      · simp only [Option.map_eq_some_iff, Prod.mk.injEq] at h
        obtain ⟨_, _, _, rfl⟩ := h
        simp only [List.length_drop, List.length_cons]
        omega
      · simp only [Option.map_eq_some_iff, Prod.mk.injEq] at h
        obtain ⟨_, _, _, rfl⟩ := h
        simp

/-- The pieces up to the closing double quote, and what follows it. -/
def doublePieces? (ps : List Placed) : Option (List Piece × After ps) :=
  match ps with
  | [] => none
  | p :: rest =>
    if atDocumentMark (p :: rest) then none
    else if p.char = '"' then some ([], ⟨rest, by simp⟩)
    else if p.char = '\\' then
      match h : escape? rest with
      | none => none
      | some (piece, r) =>
        have hr := escape?_length h
        match doublePieces? r with
        | none => none
        | some (pieces, ⟨r', hr'⟩) =>
          some (piece :: pieces, ⟨r', by simp only [List.length_cons]; omega⟩)
    else
      match doublePieces? rest with
      | none => none
      | some (pieces, ⟨r, hr⟩) =>
        some (.ofPlaced p :: pieces, ⟨r, by simp only [List.length_cons]; omega⟩)
termination_by ps.length

/-! ## scalars -/

/-- The quoted scalar after the opening quote `quote`, and what follows it. -/
def quoted? (quote : Char) (ps : List Placed) : Option (Scalar × Within ps) :=
  let scalar := fun pieces => (⟨.quoted, String.ofList (foldPieces false [] pieces)⟩ : Scalar)
  if quote = '"' then
    (doublePieces? ps).map fun (pieces, ⟨rest, h⟩) => (scalar pieces, ⟨rest, Nat.le_of_lt h⟩)
  else
    match h : singlePieces? ps with
    | some (pieces, rest) => some (scalar pieces, ⟨rest, Nat.le_of_lt (singlePieces?_length h)⟩)
    | none => none

end Lineage.Yaml
