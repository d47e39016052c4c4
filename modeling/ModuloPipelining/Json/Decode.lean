import ModuloPipelining.Json.Basic
import ModuloPipelining.Word

/-!
# Reading values out of JSON documents

Decoders answer `none` on any mismatch; the caller one level up says what failed.

* An integer is read only into the range of its word (`u32`, `u64`, `i64`); numerals kept as
  written are never integers.
* A record is read from an object by member name, or from an array by position in field order.
  In an object a field written twice is refused and members of other names are ignored; an
  array may be shorter than the record (the missing fields count as absent) but not longer.
* A tagged choice is a bare string, for a case without payload, or an object with exactly one
  member, whose key names the case and whose value is the payload. A case without payload also
  accepts `null` as its payload.
-/

namespace ModuloPipelining

namespace Json

/-- An integer in the range of an unsigned 32-bit word. -/
def asU32? : Json → Option Nat
  | .int n => if fitsU32 n then some n.toNat else none
  | _ => none

/-- An integer in the range of an unsigned 64-bit word. -/
def asU64? : Json → Option Nat
  | .int n => if 0 ≤ n then some n.toNat else none
  | _ => none

/-- An integer in the range of a signed 64-bit word. -/
def asI64? : Json → Option Int
  | .int n => if fitsI64 n then some n else none
  | _ => none

/-- A string. -/
def asString? : Json → Option String
  | .str s => some s
  | _ => none

/-- A boolean. -/
def asBool? : Json → Option Bool
  | .bool b => some b
  | _ => none

/-- An array whose every element decodes. -/
def asList? {α : Type} (f : Json → Option α) : Json → Option (List α)
  | .arr elems => elems.mapM f
  | _ => none

/-- A two-element array. -/
def asPair? : Json → Option (Json × Json)
  | .arr [a, b] => some (a, b)
  | _ => none

/-- The value of field `name` among object members: absent, or written exactly once. -/
def memberOf? (members : List (String × Json)) (name : String) : Option (Option Json) :=
  match members.filter (fun kv => kv.1 == name) with
  | [] => some none
  | [(_, v)] => some (some v)
  | _ => none

/-- The fields of a record in the order of `names`; `none` inside marks an absent field. -/
def fields? (names : List String) : Json → Option (List (Option Json))
  | .obj members => names.mapM (memberOf? members)
  | .arr elems =>
    if elems.length ≤ names.length then
      some ((List.range names.length).map fun i => elems[i]?)
    else none
  | _ => none

/-- The case name and payload of a tagged choice. -/
def variant? : Json → Option (String × Option Json)
  | .str s => some (s, none)
  | .obj [(k, v)] => some (k, some v)
  | _ => none

/-- Whether a payload suits a case without payload. -/
def isUnitPayload : Option Json → Bool
  | none => true
  | some .null => true
  | some _ => false

end Json

/-- A field that must be present. -/
def Json.required {α : Type} (f : Json → Option α) : Option Json → Option α
  | some j => f j
  | none => none

/-- A field that takes `default` when absent. -/
def Json.withDefault {α : Type} (f : Json → Option α) (default : α) : Option Json → Option α
  | some j => f j
  | none => some default

/-- A field that may be absent or `null`. -/
def Json.optional {α : Type} (f : Json → Option α) : Option Json → Option (Option α)
  | none => some none
  | some .null => some none
  | some j => (f j).map some

example : Json.asU32? (.int (2 ^ 32)) = none := by decide
example : (Json.fields? ["a", "b"] (.obj [("b", .int 1), ("c", .null)])).map (·.map Option.isSome) =
    some [false, true] := by
  decide

end ModuloPipelining
