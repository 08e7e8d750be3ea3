/-!
# Lineage.Text.Blank

Blank characters, those with the Unicode property White_Space, and the lines
and fields of a text.
-/

namespace Lineage.Text

/-- Whether a character is blank. -/
def isBlank (c : Char) : Bool :=
  let n := c.toNat
  (0x09 ≤ n && n ≤ 0x0d) || n == 0x20 || n == 0x85 || n == 0xa0 || n == 0x1680 ||
    (0x2000 ≤ n && n ≤ 0x200a) || n == 0x2028 || n == 0x2029 || n == 0x202f || n == 0x205f ||
    n == 0x3000

/-- A character put before the fields of the text that follows it: it belongs
to the first of them unless a blank, or nothing, comes next. -/
def addToFields (c : Char) (next : Option Char) (fs : List (List Char)) : List (List Char) :=
  match fs with
  | f :: rest => if next.all isBlank then [c] :: f :: rest else (c :: f) :: rest
  | [] => [[c]]

/-- The fields of a text: its longest stretches without a blank, in order. -/
def fields : List Char → List (List Char)
  | [] => []
  | c :: cs => if isBlank c then fields cs else addToFields c cs.head? (fields cs)

/-- The lines of a text.  A line feed ends a line; a carriage return before it
stays with the line, as a blank at its end. -/
def lines : List Char → List (List Char)
  | [] => []
  | '\n' :: cs => [] :: lines cs
  | c :: cs =>
    match lines cs with
    | l :: ls => (c :: l) :: ls
    | [] => [[c]]

end Lineage.Text
