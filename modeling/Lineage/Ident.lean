import Lineage.Text.Quoted

/-!
# Lineage.Ident

What the library needs to know about an identifier besides equality: how a
message spells it, and which bytes of it are hashed.  Identifiers are texts
or integers.
-/

namespace Lineage

/-- A type of commit identifiers. -/
class Ident (α : Type) where
  /-- An identifier as messages spell it. -/
  quoted : α → String
  /-- The bytes that stand for an identifier when it is hashed. -/
  bytes : α → List UInt8

/-- A text is quoted, and hashed by its bytes in UTF-8 with an end mark that
no text holds. -/
instance : Ident String where
  quoted := Text.quoted
  bytes text := text.toUTF8.data.toList ++ [0xff]

/-- The eight bytes of a signed word of 64 bits, the least significant one
first. -/
def wordBytes (i : Int) : List UInt8 :=
  (List.range 8).map fun k => (i.shiftRight (8 * k) % 256).toNat.toUInt8

/-- An integer is spelled in decimal, and hashed by the bytes of its word. -/
instance : Ident Int where
  quoted i := toString i
  bytes := wordBytes

end Lineage
