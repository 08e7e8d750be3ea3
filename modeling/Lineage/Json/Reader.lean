import Lineage.Json
import Lineage.Text.Numeral

/-!
# Lineage.Json.Reader

Reading JSON.  `Json.read?` accepts one value with blanks around it and
nothing else.

* `units_length`, `readNumber?_length` — every token takes a character, which
  ends the descent into arrays and objects.
-/

namespace Lineage.Json

/-! ## blanks -/

/-- Whether a character may stand between tokens. -/
def isGap (c : Char) : Bool := c == ' ' || c == '\t' || c == '\n' || c == '\r'

/-- A text from its first token on. -/
def skipGaps (cs : List Char) : List Char := cs.dropWhile isGap

theorem length_skipGaps (cs : List Char) : (skipGaps cs).length ≤ cs.length :=
  (List.dropWhile_suffix _).length_le

/-! ## strings -/

/-- The code unit of four hexadecimal digits. -/
def hexUnit? (digits : List Char) : Option Nat := Text.natFrom? 16 0 digits

/-- The character that a one-letter escape stands for. -/
def shortEscape? : Char → Option Char
  | '"' => some '"'
  | '\\' => some '\\'
  | '/' => some '/'
  | 'b' => some '\x08'
  | 'f' => some '\x0c'
  | 'n' => some '\n'
  | 'r' => some '\r'
  | 't' => some '\t'
  | _ => none

/-- The code units of a string after its opening quote, and the text after its
closing one.  A character that stands for itself is one unit. -/
def units : List Char → Option (List Nat × List Char)
  | [] => none
  | '"' :: r => some ([], r)
  | '\\' :: 'u' :: a :: b :: c :: d :: r =>
    (hexUnit? [a, b, c, d]).bind fun u => (units r).map fun (us, rest) => (u :: us, rest)
  | '\\' :: e :: r =>
    (shortEscape? e).bind fun x => (units r).map fun (us, rest) => (x.toNat :: us, rest)
  | c :: r =>
    if c.toNat < 0x20 then none else (units r).map fun (us, rest) => (c.toNat :: us, rest)

theorem units_length {cs : List Char} {us : List Nat} {rest : List Char}
    (h : units cs = some (us, rest)) : rest.length < cs.length := by
  fun_induction units cs generalizing us rest with
  | case1 => simp at h
  | case2 r => simp_all
  | case3 a b c d r ih =>
    simp only [Option.bind_eq_some_iff, Option.map_eq_some_iff] at h
    obtain ⟨u, _, ⟨us', rest'⟩, hr, he⟩ := h
    have := ih hr
    simp_all
    omega
  | case4 e r _ ih =>
    simp only [Option.bind_eq_some_iff, Option.map_eq_some_iff] at h
    obtain ⟨u, _, ⟨us', rest'⟩, hr, he⟩ := h
    have := ih hr
    simp_all
    omega
  | case5 => simp at h
  | case6 c r _ _ _ _ ih =>
    simp only [Option.map_eq_some_iff] at h
    obtain ⟨⟨us', rest'⟩, hr, he⟩ := h
    have := ih hr
    simp_all
    omega

/-- The text of a list of code units: surrogates must come in pairs, the high
one first. -/
def textOfUnits? : List Nat → Option (List Char)
  | [] => some []
  | u :: us =>
    if 0xdc00 ≤ u ∧ u ≤ 0xdfff then none
    else if 0xd800 ≤ u ∧ u ≤ 0xdbff then
      match us with
      | v :: vs =>
        if 0xdc00 ≤ v ∧ v ≤ 0xdfff then
          (textOfUnits? vs).map (Char.ofNat (0x10000 + (u - 0xd800) * 0x400 + (v - 0xdc00)) :: ·)
        else none
      | [] => none
    else (textOfUnits? us).map (Char.ofNat u :: ·)

/-- The text of a string, if it is one. -/
def textOf (us : List Nat) : Option String := (textOfUnits? us).map String.ofList

/-! ## numbers -/

/-- At least one decimal digit, and what follows the digits. -/
def readDigits? (cs : List Char) : Option (List Char × List Char) :=
  match cs.takeWhile Char.isDigit with
  | [] => none
  | ds => some (ds, cs.dropWhile Char.isDigit)

/-- The whole part of a number: no digit may follow a leading zero. -/
def readWhole? : List Char → Option (List Char × List Char)
  | '0' :: r => some (['0'], r)
  | cs => readDigits? cs

/-- The fraction of a number, if it has one. -/
def readFraction? : List Char → Option (List Char × List Char)
  | '.' :: r => (readDigits? r).map fun (ds, rest) => ('.' :: ds, rest)
  | cs => some ([], cs)

/-- The exponent of a number, if it has one. -/
def readExponent? : List Char → Option (List Char × List Char)
  | e :: r =>
    if e = 'e' ∨ e = 'E' then
      match r with
      | '+' :: r' => (readDigits? r').map fun (ds, rest) => (e :: '+' :: ds, rest)
      | '-' :: r' => (readDigits? r').map fun (ds, rest) => (e :: '-' :: ds, rest)
      | _ => (readDigits? r).map fun (ds, rest) => (e :: ds, rest)
    else some ([], e :: r)
  | [] => some ([], [])

/-- A number without its sign. -/
def readUnsigned? (cs : List Char) : Option (List Char × List Char) :=
  (readWhole? cs).bind fun (whole, r) =>
    (readFraction? r).bind fun (fraction, r) =>
      (readExponent? r).map fun (exponent, rest) => (whole ++ fraction ++ exponent, rest)

/-- A number, by its literal. -/
def readNumber? : List Char → Option (List Char × List Char)
  | '-' :: r => (readUnsigned? r).map fun (literal, rest) => ('-' :: literal, rest)
  | cs => readUnsigned? cs

theorem readDigits?_length {cs ds rest : List Char} (h : readDigits? cs = some (ds, rest)) :
    rest.length < cs.length := by
  unfold readDigits? at h
  split at h
  · simp at h
  · rename_i hne
    obtain ⟨rfl, rfl⟩ := by simpa using h
    have hlen : (cs.takeWhile Char.isDigit ++ cs.dropWhile Char.isDigit).length = cs.length := by
      rw [List.takeWhile_append_dropWhile]
    have hpos := List.length_pos_iff.2 hne
    rw [List.length_append] at hlen
    omega

theorem readFraction?_length {cs ds rest : List Char} (h : readFraction? cs = some (ds, rest)) :
    rest.length ≤ cs.length := by
  unfold readFraction? at h
  split at h
  · simp only [Option.map_eq_some_iff, Prod.mk.injEq] at h
    obtain ⟨⟨ds', rest'⟩, hd, _, rfl⟩ := h
    have := readDigits?_length hd
    simp only [List.length_cons]
    omega
  · simp_all

theorem readExponent?_length {cs ds rest : List Char} (h : readExponent? cs = some (ds, rest)) :
    rest.length ≤ cs.length := by
  unfold readExponent? at h
  split at h
  · split at h
    · split at h <;>
      · simp only [Option.map_eq_some_iff, Prod.mk.injEq] at h
        obtain ⟨⟨ds', rest'⟩, hd, _, rfl⟩ := h
        have := readDigits?_length hd
        simp only [List.length_cons]
        omega
    · simp_all
  · simp_all

theorem readUnsigned?_length {cs ds rest : List Char} (h : readUnsigned? cs = some (ds, rest)) :
    rest.length < cs.length := by
  simp only [readUnsigned?, Option.bind_eq_some_iff, Option.map_eq_some_iff, Prod.mk.injEq] at h
  obtain ⟨⟨w, r⟩, hw, ⟨f, r'⟩, hf, ⟨e, r''⟩, he, _, rfl⟩ := h
  have h1 : r.length < cs.length := by
    unfold readWhole? at hw
    split at hw
    · simp_all
    · exact readDigits?_length hw
  have h2 : r'.length ≤ r.length := readFraction?_length hf
  have h3 : r''.length ≤ r'.length := readExponent?_length he
  show r''.length < cs.length
  omega

theorem readNumber?_length {cs ds rest : List Char} (h : readNumber? cs = some (ds, rest)) :
    rest.length < cs.length := by
  unfold readNumber? at h
  split at h
  · simp only [Option.map_eq_some_iff, Prod.mk.injEq] at h
    obtain ⟨⟨ds', rest'⟩, hd, _, rfl⟩ := h
    have := readUnsigned?_length hd
    simp only [List.length_cons]
    omega
  · exact readUnsigned?_length h

/-! ## values -/

/-- What is left of a text after at least one character of it. -/
abbrev After (cs : List Char) := { rest : List Char // rest.length < cs.length }

mutual
/-- The value at the front of a text, and what follows it. -/
def readValue? (cs : List Char) : Option (Json × After cs) :=
  have hs := length_skipGaps cs
  match _hc : skipGaps cs with
  | '[' :: r =>
    have hr : r.length < cs.length := by rw [_hc] at hs; exact hs
    match _hr : skipGaps r with
    | ']' :: rest =>
      have := length_skipGaps r
      some (.array [], ⟨rest, by rw [_hr] at this; simp only [List.length_cons] at this; omega⟩)
    | _ =>
      match readItems? r with
      | some (items, ⟨rest, h⟩) => some (.array items, ⟨rest, by omega⟩)
      | none => none
  | '\x7b' :: r =>
    have hr : r.length < cs.length := by rw [_hc] at hs; exact hs
    match _hr : skipGaps r with
    | '\x7d' :: rest =>
      have := length_skipGaps r
      some (.object [], ⟨rest, by rw [_hr] at this; simp only [List.length_cons] at this; omega⟩)
    | _ =>
      match readFields? r with
      | some (fields, ⟨rest, h⟩) => some (.object fields, ⟨rest, by omega⟩)
      | none => none
  | '"' :: r =>
    match hu : units r with
    | some (us, rest) =>
      some (.string (textOf us), ⟨rest, by
        have := units_length hu
        rw [_hc] at hs
        simp only [List.length_cons] at hs
        omega⟩)
    | none => none
  | 'n' :: 'u' :: 'l' :: 'l' :: rest =>
    some (.null, ⟨rest, by rw [_hc] at hs; simp only [List.length_cons] at hs; omega⟩)
  | 't' :: 'r' :: 'u' :: 'e' :: rest =>
    some (.bool true, ⟨rest, by rw [_hc] at hs; simp only [List.length_cons] at hs; omega⟩)
  | 'f' :: 'a' :: 'l' :: 's' :: 'e' :: rest =>
    some (.bool false, ⟨rest, by rw [_hc] at hs; simp only [List.length_cons] at hs; omega⟩)
  | r =>
    match hn : readNumber? r with
    | some (literal, rest) =>
      some (.number (String.ofList literal), ⟨rest, by
        have := readNumber?_length hn
        rw [_hc] at hs
        omega⟩)
    | none => none
termination_by (cs.length, 0)

/-- The items of an array that has some, and what follows its end. -/
def readItems? (cs : List Char) : Option (List Json × After cs) :=
  match readValue? cs with
  | none => none
  | some (item, ⟨r, hr⟩) =>
    have hs := length_skipGaps r
    match _hc : skipGaps r with
    | ',' :: r' =>
      have hr' : r'.length < r.length := by rw [_hc] at hs; exact hs
      match readItems? r' with
      | some (items, ⟨rest, h⟩) => some (item :: items, ⟨rest, by omega⟩)
      | none => none
    | ']' :: rest =>
      some ([item], ⟨rest, by rw [_hc] at hs; simp only [List.length_cons] at hs; omega⟩)
    | _ => none
termination_by (cs.length, 1)

/-- The fields of an object that has some, and what follows its end. -/
def readFields? (cs : List Char) : Option (List (Option String × Json) × After cs) :=
  have hs := length_skipGaps cs
  match _hc : skipGaps cs with
  | '"' :: r =>
    match hu : units r with
    | none => none
    | some (us, r1) =>
      have h1 : r1.length < cs.length := by
        have := units_length hu
        rw [_hc] at hs
        simp only [List.length_cons] at hs
        omega
      have hs1 := length_skipGaps r1
      match _hc1 : skipGaps r1 with
      | ':' :: r2 =>
        have h2 : r2.length < r1.length := by rw [_hc1] at hs1; exact hs1
        match readValue? r2 with
        | none => none
        | some (value, ⟨r3, h3⟩) =>
          have hs3 := length_skipGaps r3
          match _hc3 : skipGaps r3 with
          | ',' :: r4 =>
            have h4 : r4.length < r3.length := by rw [_hc3] at hs3; exact hs3
            match readFields? r4 with
            | some (fields, ⟨rest, h⟩) => some ((textOf us, value) :: fields, ⟨rest, by omega⟩)
            | none => none
          | '\x7d' :: rest =>
            some ([(textOf us, value)], ⟨rest, by
              rw [_hc3] at hs3
              simp only [List.length_cons] at hs3
              omega⟩)
          | _ => none
      | _ => none
  | _ => none
termination_by (cs.length, 1)
end

/-- The value that a text is, blanks around it left aside. -/
def read? (text : String) : Option Json :=
  (readValue? text.toList).bind fun (value, rest) =>
    if (skipGaps rest.val).isEmpty then some value else none

end Lineage.Json
