import ScriptSsa.Binary64.Basic

/-!
JSON values. Numbers are binary64 numbers, and an object is the list of its members.
-/

namespace ScriptSsa

inductive Json where
  | null
  | bool (value : Bool)
  | number (value : Binary64)
  | string (value : String)
  | array (items : List Json)
  | object (members : List (String × Json))
deriving Inhabited

namespace Json

/-- A value that stands inside another. -/
abbrev Child (v : Json) := { c : Json // sizeOf c < sizeOf v }

def isNull : Json → Bool
  | null => true
  | _ => false

def string? : Json → Option String
  | string s => some s
  | _ => none

def bool? : Json → Option Bool
  | bool b => some b
  | _ => none

theorem sizeOf_lt_array {c : Json} {items : List Json} (h : c ∈ items) :
    sizeOf c < sizeOf (array items) := by
  have := List.sizeOf_lt_of_mem h
  simp only [array.sizeOf_spec]
  omega

theorem sizeOf_lt_object {key : String} {c : Json} {members : List (String × Json)}
    (h : (key, c) ∈ members) : sizeOf c < sizeOf (object members) := by
  have := List.sizeOf_lt_of_mem h
  simp only [object.sizeOf_spec, Prod.mk.sizeOf_spec] at *
  omega

/-- The items of an array. -/
def children? : (v : Json) → Option (List (Child v))
  | array items => some (items.attach.map fun c => ⟨c.val, sizeOf_lt_array c.property⟩)
  | _ => none

/-- The value of the first member with the given key. -/
def lookup (key : String) (members : List (String × Json)) : Option Json :=
  (members.find? fun m => m.1 = key).map Prod.snd

theorem mem_of_lookup {key : String} {members : List (String × Json)} {c : Json}
    (h : lookup key members = some c) : (key, c) ∈ members := by
  obtain ⟨⟨k, v⟩, hfind, rfl⟩ := Option.map_eq_some_iff.mp h
  have hkey : k = key := by simpa using List.find?_some hfind
  exact hkey ▸ List.mem_of_find?_eq_some hfind

end Json

end ScriptSsa
