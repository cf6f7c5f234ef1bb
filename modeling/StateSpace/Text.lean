/-!
# Text of numbers and columns

Columns padded with blanks, hexadecimal words of fixed width, fractions with three decimal places, and the reading of
decimal digits. Widths count Unicode scalar values.
-/

namespace StateSpace.Text

/-- `width - n` blanks, none if `n` is already as wide. -/
def blanks (width n : Nat) : String := String.ofList (List.replicate (width - n) ' ')

/-- The text at the left of a column. -/
def left (width : Nat) (s : String) : String := s ++ blanks width s.length

/-- The text at the right of a column. -/
def right (width : Nat) (s : String) : String := blanks width s.length ++ s

/-- The last `width` hexadecimal digits of `n`, lower case, the highest first. -/
def hex (width n : Nat) : String :=
  String.ofList ((List.range width).reverse.map fun i => Nat.digitChar (n >>> (4 * i) % 16))

/-- `num / den` rounded to the nearest natural number; a half goes to the even neighbour. -/
def roundHalfEven (num den : Nat) : Nat :=
  let q := num / den
  let r := num % den
  if 2 * r < den ∨ (2 * r = den ∧ q % 2 = 0) then q else q + 1

/-- `num / den` with three decimal places. -/
def thousandths (num den : Nat) : String :=
  let q := roundHalfEven (1000 * num) den
  let places := toString (q % 1000)
  s!"{q / 1000}." ++ String.ofList (List.replicate (3 - places.length) '0') ++ places

/-- The digit that a character writes. -/
def digit (c : Char) : Nat := c.toNat - 48

/-- The number that a nonempty run of decimal digits writes. -/
def digits? (cs : List Char) : Option Nat :=
  if cs.isEmpty ∨ ¬ cs.all Char.isDigit then none else some (cs.foldl (fun n c => 10 * n + digit c) 0)

/-- The number that a nonempty run of decimal digits writes, if it is at most `bound`. More digits never make it
smaller, so the first that lead beyond the bound decide. -/
def digitsUpTo? (bound : Nat) (cs : List Char) : Option Nat :=
  if cs.isEmpty ∨ ¬ cs.all Char.isDigit then none
  else cs.foldlM (fun n c => if 10 * n + digit c ≤ bound then some (10 * n + digit c) else none) 0

end StateSpace.Text
