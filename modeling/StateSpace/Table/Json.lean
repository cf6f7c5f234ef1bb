import StateSpace.Json.Basic
import StateSpace.Table.Config

/-!
# Table geometry in JSON

All three fields must be there; the exponents are numbers of 32 bits.
-/

namespace StateSpace.Table.Config

def ofJson? (j : Json) : Option Config := do
  match ← j.fields? ["key_length", "initial_capacity_pow2", "max_capacity_pow2"] with
  | [keyLength, initialPow2, maxPow2] =>
    return {
      keyLength := ← Json.required Json.index? keyLength
      initialPow2 := ← Json.required (Json.nat? (UInt32.size - 1)) initialPow2
      maxPow2 := ← Json.required (Json.nat? (UInt32.size - 1)) maxPow2 }
  | _ => none

def toJson (c : Config) : Json :=
  .record [("key_length", .nat c.keyLength), ("initial_capacity_pow2", .nat c.initialPow2),
    ("max_capacity_pow2", .nat c.maxPow2)]

end StateSpace.Table.Config
