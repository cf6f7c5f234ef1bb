import StateSpace.Text

/-!
# JSON values

A JSON value keeps what its text said: numbers as they are written, the members of an object in order, with repeated
names. A string in which an escape names half of a surrogate pair is legal JSON but names no text (`Json.Str`).

The second half of the module reads values of the types this library needs. A natural number must be written as one:
digits only, no sign, fraction or exponent.
-/

namespace StateSpace

/-- The text of a JSON string; `none` if an escape in it names half of a surrogate pair. -/
abbrev Json.Str := Option String

inductive Json where
  | null
  | bool (value : Bool)
  /-- A number, as it is written. -/
  | number (literal : String)
  | string (text : Json.Str)
  | array (items : List Json)
  | object (members : List (Json.Str × Json))
  deriving Inhabited

namespace Json

/-! ## Making values -/

def str (s : String) : Json := .string (some s)

def nat (n : Nat) : Json := .number (toString n)

def int (i : Int) : Json := .number (toString i)

def nats (ns : List Nat) : Json := .array (ns.map nat)

/-- `null` for an absent value. -/
def option {α : Type} (f : α → Json) : Option α → Json
  | none => .null
  | some a => f a

/-- An object with the given members, in order. -/
def record (members : List (String × Json)) : Json := .object (members.map fun (name, value) => (some name, value))

/-! ## Reading values -/

/-- A natural number up to `bound`, written with digits only. -/
def nat? (bound : Nat) : Json → Option Nat
  | .number literal => Text.digitsUpTo? bound literal.toList
  | _ => none

/-- A position or a size: a natural number of 64 bits. -/
def index? : Json → Option Nat := nat? (UInt64.size - 1)

/-- A whole number, written with digits and at most a minus sign. -/
def int? : Json → Option Int
  | .number literal =>
    match literal.toList with
    | '-' :: digits => (Text.digits? digits).map fun n => -(n : Int)
    | digits => (Text.digits? digits).map fun n => (n : Int)
  | _ => none

def bool? : Json → Option Bool
  | .bool b => some b
  | _ => none

def text? : Json → Option String
  | .string text => text
  | _ => none

/-- An array all of whose items are read by `item`. -/
def list? {α : Type} (item : Json → Option α) : Json → Option (List α)
  | .array items => items.mapM item
  | _ => none

/-- `null`, or what `item` reads. -/
def option? {α : Type} (item : Json → Option α) : Json → Option (Option α)
  | .null => some none
  | j => (item j).map some

/-- The member of the given name, if it occurs. -/
def member? (j : Json) (name : String) : Option Json :=
  match j with
  | .object members => (members.find? (·.1 == some name)).map (·.2)
  | _ => none

/-- The values of the named fields, absent ones as `none`.

A record is written as an object, or as the array of its fields in order, of which the last may be left out. In an
object other members are skipped, but every name must be a text and a named field may occur only once. -/
def fields? (names : List String) : Json → Option (List (Option Json))
  | .object members =>
    if members.any (·.1.isNone) then none
    else names.mapM fun name =>
      match members.filter (·.1 == some name) with
      | [] => some none
      | [(_, value)] => some (some value)
      | _ => none
  | .array items =>
    if items.length ≤ names.length then
      some (items.map some ++ List.replicate (names.length - items.length) none)
    else none
  | _ => none

/-- A field that may be left out. -/
def defaulted {α : Type} (item : Json → Option α) (default : α) : Option Json → Option α
  | none => some default
  | some j => item j

/-- A field that must be there. -/
def required {α : Type} (item : Json → Option α) : Option Json → Option α
  | none => none
  | some j => item j

end Json

end StateSpace
