import StateSpace.Json.Token

/-!
# Reading JSON

`Json.parse?` runs over the tokens of a text with the unfinished containers on a stack, so that nesting has no bound.
It accepts exactly one value; only blanks may follow.
-/

namespace StateSpace.Json

/-- A container around the value that is being read, with its parts so far in reverse. -/
inductive Frame where
  | array (items : List Json)
  | object (members : List (Str × Json)) (name : Str)

/-- How the text must go on. -/
inductive Expect where
  | value
  /-- After an opening bracket: an item, or the end of the array. -/
  | firstItem
  /-- After an opening brace: a name, or the end of the object. -/
  | firstName
  /-- After a comma in an object: a name. -/
  | name (members : List (Str × Json))
  | colon (members : List (Str × Json)) (name : Str)
  /-- After an item: a comma, or the end of the array. -/
  | afterItem (items : List Json)
  /-- After a member: a comma, or the end of the object. -/
  | afterMember (members : List (Str × Json))
  /-- Nothing more. -/
  | finish (value : Json)

/-- The reader between two tokens: the containers around what is expected next, the innermost first. -/
structure Reader where
  frames : List Frame
  expect : Expect

namespace Reader

/-- A value inside the given containers is complete. -/
def complete (value : Json) : List Frame → Reader
  | [] => ⟨[], .finish value⟩
  | .array items :: outer => ⟨outer, .afterItem (value :: items)⟩
  | .object members name :: outer => ⟨outer, .afterMember ((name, value) :: members)⟩

/-- A value inside the given containers begins with this token. -/
def begin? (frames : List Frame) : Token → Option Reader
  | .scalar value => some (complete value frames)
  | .openArray => some ⟨frames, .firstItem⟩
  | .openObject => some ⟨frames, .firstName⟩
  | _ => none

/-- Reads one token. -/
def step? (r : Reader) (token : Token) : Option Reader :=
  match r.expect, token with
  | .value, t => begin? r.frames t
  | .firstItem, .closeArray => some (complete (.array []) r.frames)
  | .firstItem, t => begin? (.array [] :: r.frames) t
  | .firstName, .closeObject => some (complete (.object []) r.frames)
  | .firstName, .scalar (.string name) => some ⟨r.frames, .colon [] name⟩
  | .name members, .scalar (.string name) => some ⟨r.frames, .colon members name⟩
  | .colon members name, .colon => some ⟨.object members name :: r.frames, .value⟩
  | .afterItem items, .comma => some ⟨.array items :: r.frames, .value⟩
  | .afterItem items, .closeArray => some (complete (.array items.reverse) r.frames)
  | .afterMember members, .comma => some ⟨r.frames, .name members⟩
  | .afterMember members, .closeObject => some (complete (.object members.reverse) r.frames)
  | _, _ => none

end Reader

/-- The value that a text writes. -/
def parse? (s : String) : Option Json := do
  let reader ← (← tokens? s.toList).foldlM Reader.step? ⟨[], .value⟩
  match reader.expect with
  | .finish value => some value
  | _ => none

end StateSpace.Json
