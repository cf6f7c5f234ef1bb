import StateSpace.Json.Basic

/-!
# JSON tokens

`tokens` cuts a text into brackets, commas, colons, strings, numbers and the three words. A number or a word ends where
no letter, digit, sign or point follows, so `01`, `1true` and `+1` are one bad token each. Blanks are the four of JSON;
a control character inside a string must be escaped.
-/

namespace StateSpace.Json

inductive Token where
  | openArray
  | closeArray
  | openObject
  | closeObject
  | comma
  | colon
  /-- A value without parts: a string, a number, or one of the three words. -/
  | scalar (value : Json)

/-! ## Numbers -/

/-- Removes a nonempty run of digits. -/
def skipDigits (cs : List Char) : Option (List Char) :=
  if (cs.takeWhile Char.isDigit).isEmpty then none else some (cs.dropWhile Char.isDigit)

/-- Removes a whole part: `0`, or digits that do not begin with `0`. -/
def skipWhole : List Char → Option (List Char)
  | '0' :: rest => some rest
  | cs => skipDigits cs

/-- Removes a fraction, if there is one. -/
def skipFraction : List Char → Option (List Char)
  | '.' :: rest => skipDigits rest
  | cs => some cs

/-- Removes an exponent, if there is one. -/
def skipExponent : List Char → Option (List Char)
  | e :: rest =>
    if e = 'e' ∨ e = 'E' then
      match rest with
      | '+' :: digits => skipDigits digits
      | '-' :: digits => skipDigits digits
      | digits => skipDigits digits
    else some (e :: rest)
  | [] => some []

/-- Whether the characters write a number. -/
def isNumber (cs : List Char) : Bool :=
  let unsigned := match cs with
    | '-' :: rest => rest
    | _ => cs
  (skipWhole unsigned >>= skipFraction >>= skipExponent) == some []

/-- The value of a bare word. -/
def word? (cs : List Char) : Option Json :=
  if cs = "null".toList then some .null
  else if cs = "true".toList then some (.bool true)
  else if cs = "false".toList then some (.bool false)
  else if isNumber cs then some (.number (String.ofList cs))
  else none

/-! ## Strings -/

/-- A character of a string, or a 16-bit unit given by a hexadecimal escape. -/
inductive Piece where
  | char (c : Char)
  | unit (u : Nat)

/-- The value of a hexadecimal digit. -/
def hexDigit? (c : Char) : Option Nat :=
  if c.isDigit then some (c.toNat - 48)
  else if 'a' ≤ c ∧ c ≤ 'f' then some (c.toNat - 87)
  else if 'A' ≤ c ∧ c ≤ 'F' then some (c.toNat - 55)
  else none

/-- The unit written by four hexadecimal digits. -/
def unit? (cs : List Char) : Option Nat :=
  cs.foldlM (fun n c => (hexDigit? c).map (16 * n + ·)) 0

/-- The character that a short escape stands for. -/
def escaped? : Char → Option Char
  | '"' => some '"'
  | '\\' => some '\\'
  | '/' => some '/'
  | 'b' => some '\x08'
  | 'f' => some '\x0c'
  | 'n' => some '\n'
  | 'r' => some '\r'
  | 't' => some '\t'
  | _ => none

/-- Puts a piece before the rest of a string. -/
def addPiece? (piece : Option Piece) (rest : Option (List Piece × List Char)) : Option (List Piece × List Char) :=
  piece.bind fun p => rest.map fun (ps, after) => (p :: ps, after)

/-- The pieces of a string up to its closing quote, and what follows the quote. -/
def pieces? : List Char → Option (List Piece × List Char)
  | [] => none
  | '"' :: rest => some ([], rest)
  | '\\' :: 'u' :: a :: b :: c :: d :: rest => addPiece? ((unit? [a, b, c, d]).map .unit) (pieces? rest)
  | '\\' :: e :: rest => addPiece? ((escaped? e).map .char) (pieces? rest)
  | c :: rest => addPiece? (if c.toNat < 32 ∨ c = '\\' then none else some (.char c)) (pieces? rest)

/-- Joins surrogate pairs; `none` if half of one stands alone. -/
def joinUnits : List Piece → Option (List Char)
  | [] => some []
  | .char c :: rest => (joinUnits rest).map (c :: ·)
  | .unit u :: rest =>
    if u < 0xD800 ∨ 0xDFFF < u then (joinUnits rest).map (Char.ofNat u :: ·)
    else match rest with
      | .unit v :: rest =>
        if u ≤ 0xDBFF ∧ 0xDC00 ≤ v ∧ v ≤ 0xDFFF then
          (joinUnits rest).map (Char.ofNat (0x10000 + (u - 0xD800) * 0x400 + (v - 0xDC00)) :: ·)
        else none
      | _ => none

theorem of_addPiece?_eq_some {piece : Option Piece} {rest : Option (List Piece × List Char)} {ps : List Piece}
    {after : List Char} (h : addPiece? piece rest = some (ps, after)) : ∃ qs, rest = some (qs, after) := by
  rcases piece with _ | p <;> rcases rest with _ | ⟨qs, rest⟩ <;> simp_all [addPiece?]

/-- What follows a closed string is shorter than what followed its opening quote. -/
theorem length_lt_of_pieces? {cs : List Char} {ps : List Piece} {after : List Char}
    (h : pieces? cs = some (ps, after)) : after.length < cs.length := by
  fun_induction pieces? cs generalizing ps with
  | case1 => simp at h
  | case2 rest => simp_all
  | case3 a b c d rest ih | case4 e rest _ ih | case5 c rest _ _ _ ih =>
    obtain ⟨qs, hq⟩ := of_addPiece?_eq_some h
    have := ih hq
    simp only [List.length_cons]
    omega

/-! ## Cutting -/

def isBlank (c : Char) : Bool := c = ' ' ∨ c = '\n' ∨ c = '\t' ∨ c = '\r'

/-- Characters of numbers and words. -/
def isWordChar (c : Char) : Bool := c.isAlphanum ∨ c = '+' ∨ c = '-' ∨ c = '.'

def punctuation? : Char → Option Token
  | '[' => some .openArray
  | ']' => some .closeArray
  | '{' => some .openObject
  | '}' => some .closeObject
  | ',' => some .comma
  | ':' => some .colon
  | _ => none

/-- The tokens of a text; `none` if some part of it is no token. -/
def tokens? (cs : List Char) : Option (List Token) :=
  match cs with
  | [] => some []
  | c :: rest =>
    if isBlank c then tokens? rest
    else match punctuation? c with
      | some t => (tokens? rest).map (t :: ·)
      | none =>
        if c = '"' then
          match h : pieces? rest with
          | none => none
          | some (ps, after) =>
            have : after.length < rest.length := length_lt_of_pieces? h
            (tokens? after).map (.scalar (.string ((joinUnits ps).map String.ofList)) :: ·)
        else
          have : (rest.dropWhile isWordChar).length ≤ rest.length := (List.dropWhile_sublist isWordChar).length_le
          match word? (c :: rest.takeWhile isWordChar) with
          | none => none
          | some j => (tokens? (rest.dropWhile isWordChar)).map (.scalar j :: ·)
termination_by cs.length

end StateSpace.Json
