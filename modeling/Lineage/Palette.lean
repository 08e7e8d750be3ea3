import Lineage.Ident

/-!
# Lineage.Palette

How heads are ranked and how their lanes are colored.  A palette of a hash
ranks all heads equal and takes its colors from the bytes of the head, so a
head keeps its color from one graph to the next.  The standard palette is the
one of a keyed hash.
-/

namespace Lineage

/-- A ranking of heads and the colors of their lanes. -/
structure Palette (α : Type) where
  /-- `lt` when the first head is more important, and gets the smaller lanes. -/
  compare : α → α → Ordering
  /-- The color of the lane that a head itself is in. -/
  branch : α → UInt32
  /-- The color of another lane that belongs to a head. -/
  fragment : α → Nat → UInt32

namespace Palette

/-! ## colors from a hash -/

/-- The four bytes of a lane, the least significant one first. -/
def laneBytes (lane : Nat) : List UInt8 :=
  [lane.toUInt8, (lane >>> 8).toUInt8, (lane >>> 16).toUInt8, (lane >>> 24).toUInt8]

/-- All heads equal, colors from the lower half of a hash. -/
def ofHash {α : Type} [Ident α] (hash : List UInt8 → UInt64) : Palette α :=
  { compare := fun _ _ => .eq
    branch := fun head => (hash (Ident.bytes head)).toUInt32
    fragment := fun head lane => (hash (Ident.bytes head ++ laneBytes lane)).toUInt32 }

/-! ## the standard hash -/

/-- Spreads every bit of a word over the whole word, one to one. -/
def diffuse (x : UInt64) : UInt64 :=
  let x := x * 0x6eed0e9da4d94a4f
  let x := x ^^^ ((x >>> 32) >>> (x >>> 60))
  x * 0x6eed0e9da4d94a4f

/-- The four words that take turns at receiving the input. -/
structure Lanes4 where
  a : UInt64
  b : UInt64
  c : UInt64
  d : UInt64

/-- A word of up to eight bytes, the least significant one first. -/
def word (bytes : List UInt8) : UInt64 :=
  bytes.foldr (fun byte w => (w <<< 8) ||| byte.toUInt64) 0

/-- Takes the input in, eight bytes at a time.  Each full word moves the turn
on; a shorter rest does not. -/
def absorb (s : Lanes4) : List UInt8 → Lanes4
  | b0 :: b1 :: b2 :: b3 :: b4 :: b5 :: b6 :: b7 :: rest =>
    absorb ⟨s.b, s.c, s.d, diffuse (s.a ^^^ word [b0, b1, b2, b3, b4, b5, b6, b7])⟩ rest
  | [] => s
  | rest => { s with a := diffuse (s.a ^^^ word rest) }

/-- The hash of a list of bytes. -/
def hash (bytes : List UInt8) : UInt64 :=
  let s := absorb ⟨0x16f11fe89b0d677c, 0xb480a793d8e6c86c, 0x6fe2e5aaf078ebc9,
    0x14f994a4c5259381⟩ bytes
  diffuse (s.a ^^^ s.b ^^^ s.c ^^^ s.d ^^^ bytes.length.toUInt64)

/-- All heads equal, colors from the standard hash. -/
def standard {α : Type} [Ident α] : Palette α := ofHash hash

end Palette

end Lineage
