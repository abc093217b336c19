import ContentQuery.Json.Basic

/-!
# Records in JSON

A record is an object with known keys, in any order and among others, or an array of its fields in
their order.  An object that gives a field twice is no such record, and neither is an array that is
too long.  The file has the fields of a record and the decoders of plain values.
-/

namespace ContentQuery
namespace Json

/-! ## Fields -/

/-- The value of a field in an object, under any of its keys; it may be missing. -/
def field? (keys : List String) (members : List (String × Json)) : Option (Option Json) :=
  match members.filter fun m => m.1 ∈ keys with
  | [] => some none
  | [m] => some (some m.2)
  | _ => none

/-- The fields of a record, for the keys of each; a field may be missing. -/
def fields? (keys : List (List String)) : Json → Option (List (Option Json))
  | .object members => keys.mapM fun k => field? k members
  | .array items =>
      if items.length ≤ keys.length then
        some (items.map some ++ List.replicate (keys.length - items.length) none)
      else none
  | _ => none

/-- Decodes a field; a missing one has a default. -/
def decodeOr {α : Type} (default : α) (decode : Json → Option α) : Option Json → Option α
  | some j => decode j
  | none => some default

/-! ## Plain values -/

def asBool? : Json → Option Bool
  | .bool b => some b
  | _ => none

def asText? : Json → Option String
  | .string s => some s
  | _ => none

/-- A natural number below `bound`. -/
def asNatural? (bound : Nat) : Json → Option Nat
  | .number (.natural n) => if n < bound then some n else none
  | _ => none

/-- An integer of 64 bits. -/
def asInteger? : Json → Option Int
  | .number (.natural n) => if n < Nat.pow 2 63 then some n else none
  | .number (.negative n) => if n ≤ Nat.pow 2 63 then some (-(n : Int)) else none
  | _ => none

/-- A value that may be null. -/
def asOption? {α : Type} (decode : Json → Option α) : Json → Option (Option α)
  | .null => some none
  | j => (decode j).map some

def asList? {α : Type} (decode : Json → Option α) : Json → Option (List α)
  | .array items => items.mapM decode
  | _ => none

/-- An object as a map, each value decoded. -/
def asMap? {α : Type} (decode : Json → Option α) : Json → Option (OrderedMap String α)
  | .object members => do
      let pairs ← members.mapM fun m => (decode m.2).map fun v => (m.1, v)
      return OrderedMap.ofList pairs
  | _ => none

/-- A choice by name: the name alone, or an object with the name for its key and null for its
value. -/
def asChoice? {α : Type} (choose : String → Option α) : Json → Option α
  | .string name => choose name
  | .object [(name, .null)] => choose name
  | _ => none

end Json
end ContentQuery
