import ScriptSsa.Json.Basic

/-!
ESTree nodes: objects with a `type`, and the access to their fields.

A field's value is a `Json.Child` of its node, so that decoding can go down the tree.
-/

namespace ScriptSsa.ESTree

inductive DecodeError where
  /-- The text is not JSON. -/
  | malformed
  | missingField (node field : String)
  | invalidField (node field : String)
  | notANode
deriving DecidableEq, Inhabited, Repr

def DecodeError.message : DecodeError → String
  | malformed => "invalid JSON"
  | missingField node field => node ++ ": missing field `" ++ field ++ "`"
  | invalidField node field => node ++ ": field `" ++ field ++ "` has an unexpected shape"
  | notANode => "expected an ESTree node object"

/-- A JSON value seen as a node. -/
structure Node (v : Json) where
  /-- The node's `type`. -/
  kind : String
  members : List (String × Json)
  eq_object : v = .object members

namespace Node

def ofJson (v : Json) : Except DecodeError (Node v) :=
  match v with
  | .object members =>
    match (Json.lookup "type" members).bind Json.string? with
    | some kind => .ok ⟨kind, members, rfl⟩
    | none => .error .notANode
  | _ => .error .notANode

variable {v : Json} (node : Node v)

def missing (field : String) : DecodeError := .missingField node.kind field

def invalid (field : String) : DecodeError := .invalidField node.kind field

theorem sizeOf_lt {field : String} {c : Json} (h : Json.lookup field node.members = some c) :
    sizeOf c < sizeOf v := by
  rw [node.eq_object]
  exact Json.sizeOf_lt_object (Json.mem_of_lookup h)

def get? (field : String) : Option v.Child :=
  match h : Json.lookup field node.members with
  | some c => some ⟨c, node.sizeOf_lt h⟩
  | none => none

/-- A field that must be there. -/
def field (field : String) : Except DecodeError v.Child :=
  match node.get? field with
  | some c => .ok c
  | none => .error (node.missing field)

/-- A field that may be absent or null. -/
def optional (field : String) : Option v.Child := (node.get? field).filter fun c => !c.val.isNull

def string (field : String) : Except DecodeError String := do
  let c ← node.field field
  match c.val.string? with
  | some s => .ok s
  | none => .error (node.invalid field)

/-- A flag, false when it is absent or null. -/
def flag (field : String) : Except DecodeError Bool :=
  match node.optional field with
  | none => .ok false
  | some c =>
    match c.val.bool? with
    | some b => .ok b
    | none => .error (node.invalid field)

/-- The items of an array field. -/
def array (field : String) : Except DecodeError (List { c : Json // sizeOf c < sizeOf v }) := do
  let c ← node.field field
  match c.val.children? with
  | some items => .ok (items.map fun i => ⟨i.val, Nat.lt_trans i.property c.property⟩)
  | none => .error (node.invalid field)

/-- The name in a field that holds an identifier. -/
def identifier (field : String) : Except DecodeError String := do
  let c ← node.field field
  let inner ← Node.ofJson c.val
  if inner.kind = "Identifier" then inner.string "name" else .error (node.invalid field)

/-- The name in a field that holds an identifier, or is absent or null. -/
def optionalIdentifier (field : String) : Except DecodeError (Option String) :=
  match node.optional field with
  | none => .ok none
  | some _ => some <$> node.identifier field

end Node

end ScriptSsa.ESTree
