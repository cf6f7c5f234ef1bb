import StateSpace.Json.Basic
import StateSpace.Text

/-!
# Writing JSON

`Json.render` writes a value on one line without blanks. In a string it escapes the quote, the backslash and the
control characters, and nothing else.
-/

namespace StateSpace.Json

/-- A character inside a string. -/
def renderChar (c : Char) : String :=
  if c = '"' then "\\\""
  else if c = '\\' then "\\\\"
  else if c.toNat < 32 then "\\u" ++ Text.hex 4 c.toNat
  else String.singleton c

def renderString (s : String) : String := "\"" ++ String.join (s.toList.map renderChar) ++ "\""

/-- A string that names no text is written as the empty one. -/
def renderText (t : Str) : String := renderString (t.getD "")

mutual

def render : Json → String
  | .null => "null"
  | .bool b => if b then "true" else "false"
  | .number literal => literal
  | .string text => renderText text
  | .array items => "[" ++ ",".intercalate (renderItems items) ++ "]"
  | .object members => "\x7b" ++ ",".intercalate (renderMembers members) ++ "\x7d"

def renderItems : List Json → List String
  | [] => []
  | j :: rest => render j :: renderItems rest

def renderMembers : List (Str × Json) → List String
  | [] => []
  | (name, j) :: rest => (renderText name ++ ":" ++ render j) :: renderMembers rest

end

end StateSpace.Json
