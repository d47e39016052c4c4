/-!
# JSON documents

Loop programs, operator libraries and reports travel as JSON. A document keeps object members
in the order they were written and may hold a key twice; each reader decides what a repeated
key means. Numerals are split into integers, the only numbers the format's fields accept, and
all other numerals, which are kept as written. A value that is well-formed text but cannot be
read is kept as written too (`Json.unreadable`), so that a reader which skips it can still take
the document around it.

`Json.lastWins` resolves repeated keys the way a key-value map does when the document is first
read into a map: the last member of a key is the one that counts.
-/

namespace ModuloPipelining

/-- A JSON value whose objects are ordered lists of members. -/
inductive Json where
  | null
  | bool (b : Bool)
  | int (n : Int)
  | float (literal : String)
  | str (s : String)
  /-- A value whose text is well-formed but that no reader takes, kept as written: a string
  with an unpaired surrogate escape, an object with such a key, a numeral whose binary64
  reading overflows, or an array or object nested too deep. Only documents read with
  `Json.parseDocument?` hold such values, where their reader may skip them. -/
  | unreadable (text : String)
  | arr (elems : List Json)
  | obj (fields : List (String × Json))
  deriving Repr, Inhabited

namespace Json

/-- Put `value` under `key`: the member of that key is replaced in place, or appended. -/
def setField (key : String) (value : Json) : List (String × Json) → List (String × Json)
  | [] => [(key, value)]
  | (k, v) :: rest => if k = key then (key, value) :: rest else (k, v) :: setField key value rest

mutual
/-- The document with every object reduced to one member per key, the last one written. -/
def lastWins : Json → Json
  | .arr elems => .arr (lastWinsList elems)
  | .obj fields => .obj (lastWinsFields [] fields)
  | j => j

/-- `lastWins` on each element. -/
def lastWinsList : List Json → List Json
  | [] => []
  | j :: rest => lastWins j :: lastWinsList rest

/-- Fold members into `acc`, later members replacing earlier ones of the same key. -/
def lastWinsFields (acc : List (String × Json)) : List (String × Json) → List (String × Json)
  | [] => acc
  | (k, v) :: rest => lastWinsFields (setField k (lastWins v) acc) rest
end

/-- The value of the first member named `key`. -/
def get? (key : String) : Json → Option Json
  | .obj fields => fields.lookup key
  | _ => none

/-- Nesting depth: scalars have depth 0, arrays and objects one more than their deepest child. -/
def depth : Json → Nat
  | .arr elems => 1 + depthList elems
  | .obj fields => 1 + depthFields fields
  | _ => 0
where
  depthList : List Json → Nat
    | [] => 0
    | j :: rest => max j.depth (depthList rest)
  depthFields : List (String × Json) → Nat
    | [] => 0
    | (_, j) :: rest => max j.depth (depthFields rest)

@[simp] theorem setField_nil (key : String) (value : Json) :
    setField key value [] = [(key, value)] := rfl

theorem lookup_setField (key : String) (value : Json) (fields : List (String × Json)) :
    (setField key value fields).lookup key = some value := by
  induction fields with
  | nil => simp [setField]
  | cons kv rest ih =>
    obtain ⟨k, v⟩ := kv
    by_cases h : k = key
    · subst h; simp [setField]
    · simp only [setField, h, if_false, List.lookup_cons]
      have hk : (key == k) = false := by simp; exact fun e => h e.symm
      simp [hk, ih]

end Json

end ModuloPipelining
