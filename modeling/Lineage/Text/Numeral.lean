/-!
# Lineage.Text.Numeral

Whole numbers in text: an unsigned numeral in a base, and a decimal numeral
with an optional sign whose value fits a signed word of 64 bits.
-/

namespace Lineage.Text

/-- The value of a digit below a base of at most sixteen; letters count in
either case. -/
def digit? (base : Nat) (c : Char) : Option Nat :=
  let value :=
    if '0' ≤ c ∧ c ≤ '9' then some (c.toNat - '0'.toNat)
    else if 'a' ≤ c ∧ c ≤ 'f' then some (c.toNat - 'a'.toNat + 10)
    else if 'A' ≤ c ∧ c ≤ 'F' then some (c.toNat - 'A'.toNat + 10)
    else none
  value.filter (· < base)

/-- The number that a list of digits spells after `value`. -/
def natFrom? (base : Nat) (value : Nat) : List Char → Option Nat
  | [] => some value
  | c :: cs => (digit? base c).bind fun d => natFrom? base (value * base + d) cs

/-- The number that a text spells in a base: at least one digit, and nothing
but digits. -/
def nat? (base : Nat) : List Char → Option Nat
  | [] => none
  | cs => natFrom? base 0 cs

/-- Number of the unsigned words of 64 bits. -/
def wordSize : Nat := 0x10000000000000000

/-- The first number too large for a signed word of 64 bits. -/
def halfWordSize : Int := 0x8000000000000000

/-- The number that a text spells in a base, if it fits an unsigned word of 64
bits. -/
def unsigned64? (base : Nat) (cs : List Char) : Option Nat := (nat? base cs).filter (· < wordSize)

/-- The number of a decimal numeral with an optional sign. -/
def int? : List Char → Option Int
  | '-' :: cs => (nat? 10 cs).map fun n => -(n : Int)
  | '+' :: cs => (nat? 10 cs).map (↑·)
  | cs => (nat? 10 cs).map (↑·)

/-- The number of a decimal numeral with an optional sign, if it fits a signed
word of 64 bits. -/
def signed64? (cs : List Char) : Option Int :=
  (int? cs).filter fun i => -halfWordSize ≤ i && i < halfWordSize

end Lineage.Text
