import Mathlib.Data.List.Nodup
import Mathlib.Logic.Relation
import ScriptSsa.Proofs.NodeReading

/-!
Decoding does not depend on how a tree is presented as JSON.

Producers of ESTree list the members of an object in orders of their own, add members of their own such as `loc` and
`range`, and either leave out an absent part or give it as null. `Edit` is one such difference at any depth. Which
members are read, and which of them may be absent, depends on where a node stands and on its type: `Role` is the first,
and `Role.fields` lists the fields for both.

An edit keeps what is read in its role, so edits deep in a tree are followed up to the script by one lemma on objects:
if the fields that are read agree, then so does what is decoded.
-/

namespace ScriptSsa

open ESTree

namespace ESTree

/-! The fields that are read. -/

/-- What a value is decoded as. -/
inductive Role where
  | program | stmt | expr | forInit | property | declarator
  /-- The body of a function. -/
  | block
  /-- An identifier that stands for its name. -/
  | name
  /-- A value that is not a tree. -/
  | plain
  | list (item : Role)
deriving DecidableEq

structure Field where
  name : String
  role : Role
  /-- Null and absent are the same. -/
  optional : Bool
deriving DecidableEq

def functionFields : List Field :=
  [⟨"body", .block, false⟩, ⟨"id", .name, true⟩, ⟨"params", .list .expr, false⟩, ⟨"generator", .plain, true⟩,
    ⟨"async", .plain, true⟩]

def propertyFields : List Field :=
  [⟨"kind", .plain, true⟩, ⟨"key", .expr, false⟩, ⟨"value", .expr, false⟩, ⟨"computed", .plain, true⟩]

def declaratorFields : List Field := [⟨"id", .expr, false⟩, ⟨"init", .expr, true⟩]

/-- The only field of a block, and of a script. -/
def bodyFields : List Field := [⟨"body", .list .stmt, false⟩]

def nameFields : List Field := [⟨"name", .plain, false⟩]

end ESTree

def ExprKind.fields : ExprKind → List Field
  | identifier => nameFields
  | literal => [⟨"value", .plain, true⟩, ⟨"regex", .plain, true⟩]
  | thisExpression => []
  | arrayExpression => [⟨"elements", .list .expr, false⟩]
  | objectExpression => [⟨"properties", .list .property, false⟩]
  | functionExpression => functionFields
  | unaryExpression => [⟨"operator", .plain, false⟩, ⟨"argument", .expr, false⟩]
  | updateExpression => [⟨"operator", .plain, false⟩, ⟨"prefix", .plain, true⟩, ⟨"argument", .expr, false⟩]
  | binaryExpression | logicalExpression | assignmentExpression =>
    [⟨"operator", .plain, false⟩, ⟨"left", .expr, false⟩, ⟨"right", .expr, false⟩]
  | conditionalExpression => [⟨"test", .expr, false⟩, ⟨"consequent", .expr, false⟩, ⟨"alternate", .expr, false⟩]
  | sequenceExpression => [⟨"expressions", .list .expr, false⟩]
  | memberExpression => [⟨"object", .expr, false⟩, ⟨"property", .expr, false⟩, ⟨"computed", .plain, true⟩]
  | callExpression | newExpression => [⟨"callee", .expr, false⟩, ⟨"arguments", .list .expr, false⟩]

def StmtKind.fields : StmtKind → List Field
  | variableDeclaration => [⟨"kind", .plain, false⟩, ⟨"declarations", .list .declarator, false⟩]
  | functionDeclaration => functionFields
  | expressionStatement => [⟨"expression", .expr, false⟩]
  | blockStatement => bodyFields
  | emptyStatement => []
  | ifStatement => [⟨"test", .expr, false⟩, ⟨"consequent", .stmt, false⟩, ⟨"alternate", .stmt, true⟩]
  | whileStatement | doWhileStatement => [⟨"test", .expr, false⟩, ⟨"body", .stmt, false⟩]
  | forStatement =>
    [⟨"init", .forInit, true⟩, ⟨"test", .expr, true⟩, ⟨"update", .expr, true⟩, ⟨"body", .stmt, false⟩]
  | breakStatement | continueStatement => [⟨"label", .name, true⟩]
  | returnStatement => [⟨"argument", .expr, true⟩]
  | labeledStatement => [⟨"label", .name, false⟩, ⟨"body", .stmt, false⟩]

namespace ESTree

/-- The fields that are read of an object of the given type in the given role. -/
def Role.fields (kind : Option String) : Role → List Field
  | program => bodyFields
  | stmt => (kind.bind StmtKind.ofName?).elim [] StmtKind.fields
  | expr => (kind.bind ExprKind.ofName?).elim [] ExprKind.fields
  | forInit =>
    if kind = some "VariableDeclaration" then StmtKind.variableDeclaration.fields
    else (kind.bind ExprKind.ofName?).elim [] ExprKind.fields
  | property => propertyFields
  | declarator => declaratorFields
  | block => bodyFields
  | name => nameFields
  | plain | list _ => []

/-- The role of the member with the given key. -/
def Role.at (role : Role) (members : List (String × Json)) (key : String) : Role :=
  ((role.fields (Json.kind? members)).find? fun f => f.name = key).elim .plain Field.role

/-- The role of the items of an array. -/
def Role.item : Role → Role
  | program => stmt
  | list item => item
  | _ => plain

/-- The names of all fields that are read of any node. -/
def fieldNames : List String :=
  "type" :: (StmtKind.all.flatMap StmtKind.fields ++ ExprKind.all.flatMap ExprKind.fields ++ propertyFields ++
    declaratorFields).map Field.name

end ESTree

/-! Values with the same tree. -/

/-- No object has two members with one key, at any depth. -/
inductive Json.UniqueKeys : Json → Prop where
  | null : UniqueKeys .null
  | bool (b : Bool) : UniqueKeys (.bool b)
  | number (x : Binary64) : UniqueKeys (.number x)
  | string (s : String) : UniqueKeys (.string s)
  | array {items : List Json} : (∀ c ∈ items, c.UniqueKeys) → UniqueKeys (.array items)
  | object {members : List (String × Json)} : (members.map Prod.fst).Nodup → (∀ m ∈ members, m.2.UniqueKeys) →
    UniqueKeys (.object members)

/-- One change to how a value in the given role is presented. -/
inductive ESTree.Edit : Role → Json → Json → Prop where
  | reorder {role : Role} {members members' : List (String × Json)} : members.Perm members' →
    Edit role (.object members) (.object members')
  /-- A member that is not read of any node. -/
  | extra {role : Role} {members : List (String × Json)} {key : String} {v : Json} : key ∉ fieldNames →
    key ∉ members.map Prod.fst → v.UniqueKeys → Edit role (.object members) (.object ((key, v) :: members))
  /-- Null for an optional field that is absent. -/
  | absent {role : Role} {members : List (String × Json)} {f : Field} : f ∈ role.fields (Json.kind? members) →
    f.optional = true → f.name ∉ members.map Prod.fst →
    Edit role (.object members) (.object ((f.name, .null) :: members))
  | member {role : Role} (before after : List (String × Json)) {key : String} {v w : Json} :
    Edit (role.at (before ++ (key, v) :: after) key) v w →
    Edit role (.object (before ++ (key, v) :: after)) (.object (before ++ (key, w) :: after))
  | item {role : Role} (before after : List Json) {v w : Json} : Edit role.item v w →
    Edit role (.array (before ++ v :: after)) (.array (before ++ w :: after))

/-! What is known of the fields. -/

namespace ESTree

/-- What holds of the fields of every kind of node holds of the fields in every role. -/
theorem Role.fields_of_kinds {P : List Field → Prop} (hstmt : ∀ kind : StmtKind, P kind.fields)
    (hexpr : ∀ kind : ExprKind, P kind.fields) (hproperty : P propertyFields) (hdeclarator : P declaratorFields)
    (kind : Option String) (role : Role) : P (role.fields kind) := by
  have hnil : P [] := hstmt .emptyStatement
  have hexpr' : P (Role.expr.fields kind) := by
    rw [Role.fields]
    cases kind.bind ExprKind.ofName? with
    | none => exact hnil
    | some kind => exact hexpr kind
  cases role with
  | program | block => exact hstmt .blockStatement
  | stmt =>
      rw [Role.fields]
      cases kind.bind StmtKind.ofName? with
      | none => exact hnil
      | some kind => exact hstmt kind
  | expr => exact hexpr'
  | forInit =>
      rw [Role.fields]
      split
      · exact hstmt .variableDeclaration
      · exact hexpr'
  | property => exact hproperty
  | declarator => exact hdeclarator
  | name => exact hexpr .identifier
  | plain | list _ => exact hnil

/-- The type and the names of the fields of a node are all different. -/
theorem Role.nodup_fields (kind : Option String) (role : Role) : ("type" :: (role.fields kind).map Field.name).Nodup :=
  fields_of_kinds (P := fun fields => ("type" :: fields.map Field.name).Nodup) (fun kind => by cases kind <;> decide)
    (fun kind => by cases kind <;> decide) (by decide) (by decide) kind role

theorem Role.name_mem_fieldNames (kind : Option String) (role : Role) :
    ∀ f ∈ role.fields kind, f.name ∈ fieldNames :=
  fields_of_kinds (P := fun fields => ∀ f ∈ fields, f.name ∈ fieldNames) (fun kind => by cases kind <;> decide)
    (fun kind => by cases kind <;> decide) (by decide) (by decide) kind role

theorem Role.eq_of_name_eq {kind : Option String} {role : Role} {f g : Field} (hf : f ∈ role.fields kind)
    (hg : g ∈ role.fields kind) (h : f.name = g.name) : f = g :=
  List.inj_on_of_nodup_map (List.nodup_cons.mp (role.nodup_fields kind)).2 hf hg h

theorem Role.at_name {role : Role} {members : List (String × Json)} {f : Field}
    (hf : f ∈ role.fields (Json.kind? members)) : role.at members f.name = f.role := by
  rw [Role.at]
  cases hfind : (role.fields (Json.kind? members)).find? fun g => g.name = f.name with
  | none => exact absurd (decide_eq_true rfl) (List.find?_eq_none.mp hfind f hf)
  | some g =>
      have hname : g.name = f.name := by simpa using List.find?_some hfind
      rw [eq_of_name_eq (List.mem_of_find?_eq_some hfind) hf hname]
      rfl

end ESTree

/-! Look-up among the members of an object. -/

namespace Json

variable {key : String} {members members' : List (String × Json)}

theorem lookup_cons (k : String) (v : Json) :
    lookup k ((key, v) :: members) = if key = k then some v else lookup k members := by
  simp only [lookup, List.find?_cons]
  by_cases h : key = k <;> simp [h]

theorem lookup_append (k : String) : lookup k (members ++ members') = (lookup k members).or (lookup k members') := by
  simp only [lookup, List.find?_append, Option.map_or]

theorem lookup_eq_none (h : key ∉ members.map Prod.fst) : lookup key members = none := by
  rw [Option.eq_none_iff_forall_ne_some]
  exact fun c hc => h (List.mem_map_of_mem (mem_of_lookup hc))

theorem lookup_member {before after : List (String × Json)} {v : Json}
    (hkeys : ((before ++ (key, v) :: after).map Prod.fst).Nodup) :
    lookup key (before ++ (key, v) :: after) = some v := by
  have hbefore : key ∉ before.map Prod.fst := by
    rw [List.map_append, List.nodup_append] at hkeys
    exact fun h => hkeys.2.2 key h key List.mem_cons_self rfl
  rw [lookup_append, lookup_eq_none hbefore, lookup_cons, if_pos rfl, Option.none_or]

/-- A change to one member is not seen under another key. -/
theorem lookup_of_ne {before after : List (String × Json)} {v w : Json} {k : String} (h : key ≠ k) :
    lookup k (before ++ (key, v) :: after) = lookup k (before ++ (key, w) :: after) := by
  rw [lookup_append, lookup_append, lookup_cons, lookup_cons, if_neg h, if_neg h]

theorem lookup_eq_some_iff (hkeys : (members.map Prod.fst).Nodup) {c : Json} :
    lookup key members = some c ↔ (key, c) ∈ members := by
  refine ⟨mem_of_lookup, fun h => ?_⟩
  obtain ⟨before, after, rfl⟩ := List.append_of_mem h
  exact lookup_member hkeys

theorem lookup_perm (hkeys : (members.map Prod.fst).Nodup) (h : members.Perm members') :
    lookup key members = lookup key members' := by
  have hkeys' : (members'.map Prod.fst).Nodup := (h.map Prod.fst).nodup_iff.mp hkeys
  ext c
  rw [lookup_eq_some_iff hkeys, lookup_eq_some_iff hkeys', h.mem_iff]

theorem uniqueKeys_array {items : List Json} : (array items).UniqueKeys ↔ ∀ c ∈ items, c.UniqueKeys :=
  ⟨fun h => by cases h; assumption, .array⟩

theorem uniqueKeys_object :
    (object members).UniqueKeys ↔ (members.map Prod.fst).Nodup ∧ ∀ m ∈ members, m.2.UniqueKeys :=
  ⟨fun h => by cases h; exact ⟨‹_›, ‹_›⟩, fun h => .object h.1 h.2⟩

end Json

/-- An edit adds and removes no duplicate key. -/
theorem ESTree.Edit.uniqueKeys_iff {role : Role} {v w : Json} (h : Edit role v w) : v.UniqueKeys ↔ w.UniqueKeys := by
  induction h with
  | reorder hperm =>
      rw [Json.uniqueKeys_object, Json.uniqueKeys_object, (hperm.map Prod.fst).nodup_iff]
      simp only [hperm.mem_iff]
  | extra _ hkey hv =>
      rw [Json.uniqueKeys_object, Json.uniqueKeys_object, List.map_cons, List.nodup_cons, List.forall_mem_cons]
      simp only [hkey, hv, not_false_eq_true, true_and]
  | absent _ _ hkey =>
      rw [Json.uniqueKeys_object, Json.uniqueKeys_object, List.map_cons, List.nodup_cons, List.forall_mem_cons]
      simp only [hkey, Json.UniqueKeys.null, not_false_eq_true, true_and]
  | member before after _ ih =>
      simp only [Json.uniqueKeys_object, List.map_append, List.map_cons, List.forall_mem_append, List.forall_mem_cons,
        ih]
  | item before after _ ih =>
      simp only [Json.uniqueKeys_array, List.forall_mem_append, List.forall_mem_cons, ih]

/-! Agreement. -/

namespace Json

/-- The value without what it contains. -/
def shape : Json → Json
  | array _ => array []
  | object _ => object []
  | v => v

theorem isNull_shape (v : Json) : v.shape.isNull = v.isNull := by
  cases v <;> rfl

theorem string?_shape (v : Json) : v.shape.string? = v.string? := by
  cases v <;> rfl

theorem bool?_shape (v : Json) : v.shape.bool? = v.bool? := by
  cases v <;> rfl

end Json

namespace ESTree

/-- The same is read of the two values in the given role. -/
def Role.Reads : Role → Json → Json → Prop
  | program, v, w => Program.ofJson v = Program.ofJson w
  | stmt, v, w => Stmt.ofJson v = Stmt.ofJson w
  | expr, v, w => Expr.ofJson v = Expr.ofJson w
  | forInit, v, w => ForInit.ofJson v = ForInit.ofJson w
  | property, v, w => foreignKind? v = foreignKind? w ∧ Property.ofJson v = Property.ofJson w
  | declarator, v, w => Declarator.ofJson v = Declarator.ofJson w
  | block, v, w => blockIn v = blockIn w
  | name, v, w => ∀ kind field, nameIn kind field v = nameIn kind field w
  | plain, _, _ => True
  | list item, v, w =>
    Option.Rel (List.Forall₂ fun v w => v.shape = w.shape ∧ item.Reads v w) v.items? w.items?

def Role.Agrees (role : Role) (v w : Json) : Prop := v.shape = w.shape ∧ role.Reads v w

theorem Role.Agrees.refl (role : Role) (v : Json) : role.Agrees v v := by
  refine ⟨rfl, ?_⟩
  induction role generalizing v with
  | property => exact ⟨rfl, rfl⟩
  | name => exact fun _ _ => rfl
  | plain => trivial
  | list item ih =>
      rw [Role.Reads]
      cases v.items? with
      | none => exact .none
      | some items => exact .some (List.forall₂_same.mpr fun c _ => ⟨rfl, ih c⟩)
  | _ => rfl

/-- The value of a field, which is none where null counts as absent. -/
def Field.value? (f : Field) (members : List (String × Json)) : Option Json :=
  if f.optional then Json.present? f.name members else Json.lookup f.name members

/-- The two lists of members agree on the given fields. -/
def Alike (fields : List Field) (members members' : List (String × Json)) : Prop :=
  ∀ f ∈ fields, Option.Rel f.role.Agrees (f.value? members) (f.value? members')

theorem rel_cases {α β : Type} {r : α → β → Prop} {a : Option α} {b : Option β} (h : Option.Rel r a b) :
    (a = none ∧ b = none) ∨ ∃ v w, a = some v ∧ b = some w ∧ r v w := by
  cases h with
  | none => exact .inl ⟨rfl, rfl⟩
  | some h => exact .inr ⟨_, _, rfl, rfl, h⟩

/-- What is read of a value by `read` depends only on what its role shows. -/
class Reader (role : outParam Role) {α : Type} (read : Json → Except DecodeError α) : Prop where
  read_eq : ∀ v w, role.Agrees v w → read v = read w

theorem Reader.eq {role : Role} {α : Type} (read : Json → Except DecodeError α) [Reader role read] {v w : Json}
    (h : role.Agrees v w) : read v = read w := Reader.read_eq v w h

instance : Reader .expr Expr.ofJson := ⟨fun _ _ hagrees => hagrees.2⟩

instance : Reader .stmt Stmt.ofJson := ⟨fun _ _ hagrees => hagrees.2⟩

instance : Reader .forInit ForInit.ofJson := ⟨fun _ _ hagrees => hagrees.2⟩

instance : Reader .property Property.ofJson := ⟨fun _ _ hagrees => hagrees.2.2⟩

instance : Reader .declarator Declarator.ofJson := ⟨fun _ _ hagrees => hagrees.2⟩

instance : Reader .block blockIn := ⟨fun _ _ hagrees => hagrees.2⟩

instance (kind field : String) : Reader .name (nameIn kind field) := ⟨fun _ _ hagrees => hagrees.2 kind field⟩

instance (kind field : String) : Reader .plain (stringIn kind field) where
  read_eq v w hagrees := by rw [stringIn, stringIn, ← v.string?_shape, hagrees.1, w.string?_shape]

instance : Reader .expr elementIn where
  read_eq v w hagrees := by
    rw [elementIn, elementIn, Reader.eq Expr.ofJson hagrees, ← v.isNull_shape, hagrees.1, w.isNull_shape]

theorem itemsIn_eq {item : Role} {α : Type} {read : List Json → Except DecodeError α} {kind field : String} {v w : Json}
    (hagrees : (Role.list item).Agrees v w) (h : ∀ vs ws, List.Forall₂ item.Agrees vs ws → read vs = read ws) :
    itemsIn kind field read v = itemsIn kind field read w := by
  rw [itemsIn, itemsIn]
  obtain ⟨hv, hw⟩ | ⟨vs, ws, hv, hw, hitems⟩ := rel_cases hagrees.2
  · rw [hv, hw]
  · rw [hv, hw]
    exact h vs ws hitems

/-- Items that agree are read as the same list. -/
theorem mapM_eq {item : Role} {α : Type} {read : Json → Except DecodeError α} [Reader item read] {vs ws : List Json}
    (h : List.Forall₂ item.Agrees vs ws) : vs.mapM read = ws.mapM read := by
  induction h with
  | nil => rfl
  | cons hagrees _ ih => rw [List.mapM_cons, List.mapM_cons, Reader.eq read hagrees, ih]

theorem objectIn_eq {vs ws : List Json} (h : List.Forall₂ Role.property.Agrees vs ws) : objectIn vs = objectIn ws := by
  have hforeign : vs.findSome? foreignKind? = ws.findSome? foreignKind? := by
    induction h with
    | nil => rfl
    | cons hagrees _ ih => rw [List.findSome?_cons, List.findSome?_cons, hagrees.2.1, ih]
  rw [objectIn, objectIn, hforeign, mapM_eq h]

instance {item : Role} {α : Type} {read : Json → Except DecodeError α} [Reader item read] (kind field : String) :
    Reader (.list item) (itemsIn kind field (List.mapM read)) :=
  ⟨fun _ _ hagrees => itemsIn_eq hagrees fun _ _ => mapM_eq⟩

instance (kind field : String) : Reader (.list .property) (itemsIn kind field objectIn) :=
  ⟨fun _ _ hagrees => itemsIn_eq hagrees fun _ _ => objectIn_eq⟩

namespace Alike

variable {fields : List Field} {members members' : List (String × Json)} (h : Alike fields members members')
  {α : Type} {kind field : String}

include h

theorem lookup {role : Role} (hf : ⟨field, role, false⟩ ∈ fields) :
    Option.Rel role.Agrees (Json.lookup field members) (Json.lookup field members') := h _ hf

theorem present? {role : Role} (hf : ⟨field, role, true⟩ ∈ fields) :
    Option.Rel role.Agrees (Json.present? field members) (Json.present? field members') := h _ hf

theorem required {role : Role} {read : Json → Except DecodeError α} [Reader role read]
    (hf : ⟨field, role, false⟩ ∈ fields) : required kind field members read = required kind field members' read := by
  rw [ESTree.required, ESTree.required]
  obtain ⟨hv, hw⟩ | ⟨v, w, hv, hw, hagrees⟩ := rel_cases (h.lookup hf)
  · rw [hv, hw]
  · rw [hv, hw]
    exact Reader.eq read hagrees

theorem optionally {role : Role} {read : Json → Except DecodeError α} [Reader role read]
    (hf : ⟨field, role, true⟩ ∈ fields) : optionally field members read = optionally field members' read := by
  rw [ESTree.optionally, ESTree.optionally]
  obtain ⟨hv, hw⟩ | ⟨v, w, hv, hw, hagrees⟩ := rel_cases (h.present? hf)
  · rw [hv, hw]
  · rw [hv, hw]
    exact congrArg (some <$> ·) (Reader.eq read hagrees)

theorem plain (field : String) (hf : ⟨field, .plain, true⟩ ∈ fields) :
    Option.Rel Role.plain.Agrees (Json.present? field members) (Json.present? field members') := h.present? hf

theorem flagIn (hf : ⟨field, .plain, true⟩ ∈ fields) : flagIn kind field members = flagIn kind field members' := by
  rw [ESTree.flagIn, ESTree.flagIn]
  obtain ⟨hv, hw⟩ | ⟨v, w, hv, hw, hshape, _⟩ := rel_cases (h.present? hf)
  · rw [hv, hw]
  · rw [hv, hw]
    simp only [← v.bool?_shape, hshape, w.bool?_shape]

end Alike

/-! Nodes whose fields agree. -/

variable {kind : String} {members members' : List (String × Json)}

theorem literalIn_eq (h : Alike ExprKind.literal.fields members members') :
    literalIn kind members = literalIn kind members' := by
  have hregex : (Json.present? "regex" members).isSome = (Json.present? "regex" members').isSome := by
    obtain ⟨hv, hw⟩ | ⟨v, w, hv, hw, _⟩ := rel_cases (h.plain "regex" (by decide))
    · rw [hv, hw]
    · rw [hv, hw]
      rfl
  rw [literalIn, literalIn, hregex]
  obtain ⟨hv, hw⟩ | ⟨v, w, hv, hw, hshape, _⟩ := rel_cases (h.plain "value" (by decide))
  · rw [hv, hw]
  · rw [hv, hw]
    cases v <;> cases w <;> cases hshape <;> rfl

theorem functionIn_eq (h : Alike functionFields members members') :
    functionIn kind members = functionIn kind members' := by
  simp (disch := decide) only [functionIn, requiredItems, h.required, h.optionally, h.flagIn]

theorem varDeclIn_eq (h : Alike StmtKind.variableDeclaration.fields members members') :
    varDeclIn kind members = varDeclIn kind members' := by
  simp (disch := decide) only [varDeclIn, requiredString, requiredItems, h.required]

theorem propertyIn_eq (h : Alike propertyFields members members') :
    propertyIn kind members = propertyIn kind members' := by
  have hkind :
      (Json.present? "kind" members).bind Json.string? = (Json.present? "kind" members').bind Json.string? := by
    obtain ⟨hv, hw⟩ | ⟨v, w, hv, hw, hshape, _⟩ := rel_cases (h.plain "kind" (by decide))
    · rw [hv, hw]
    · rw [hv, hw, Option.bind_some, Option.bind_some, ← v.string?_shape, hshape, w.string?_shape]
  simp (disch := decide) only [propertyIn, hkind, h.required, h.flagIn]

theorem declaratorIn_eq (h : Alike declaratorFields members members') :
    declaratorIn kind members = declaratorIn kind members' := by
  simp (disch := decide) only [declaratorIn, h.required, h.optionally]

theorem read_stmtKind_eq {stmtKind : StmtKind} (h : Alike stmtKind.fields members members') :
    stmtKind.read kind members = stmtKind.read kind members' := by
  cases stmtKind with
  | variableDeclaration => rw [StmtKind.read, StmtKind.read, varDeclIn_eq h]
  | functionDeclaration => rw [StmtKind.read, StmtKind.read, functionIn_eq h]
  | emptyStatement => rfl
  | _ =>
      simp (disch := decide) only [StmtKind.read, requiredItems, h.required, h.optionally]

theorem read_exprKind_eq {exprKind : ExprKind} (h : Alike exprKind.fields members members') :
    exprKind.read kind members = exprKind.read kind members' := by
  cases exprKind with
  | literal => rw [ExprKind.read, ExprKind.read, literalIn_eq h]
  | functionExpression => rw [ExprKind.read, ExprKind.read, functionIn_eq h]
  | thisExpression => rfl
  | _ =>
      simp (disch := decide) only [ExprKind.read, operationIn, requiredString, requiredItems, h.required, h.flagIn]

/-- Nodes of one type are read alike if they are read alike from their members. -/
theorem Node.ofJson_bind_eq {α : Type} {f : Node (.object members) → Except DecodeError α}
    {g : Node (.object members') → Except DecodeError α} (hkind : Json.kind? members = Json.kind? members')
    (h : ∀ kind, Json.kind? members = some kind → f ⟨kind, members, rfl⟩ = g ⟨kind, members', rfl⟩) :
    (Node.ofJson (.object members) >>= f) = Node.ofJson (.object members') >>= g := by
  rw [Node.ofJson_object, Node.ofJson_object, ← hkind]
  cases hk : Json.kind? members with
  | none => rfl
  | some kind => exact h kind hk

theorem expr_reads_object (hkind : Json.kind? members = Json.kind? members')
    (h : Alike (Role.expr.fields (Json.kind? members)) members members') :
    Role.expr.Reads (.object members) (.object members') := by
  rw [Role.Reads, Expr.ofJson_eq, Expr.ofJson_eq]
  refine Node.ofJson_bind_eq hkind fun kind hk => ?_
  rw [hk, Role.fields, Option.bind_some] at h
  dsimp only
  cases hname : ExprKind.ofName? kind with
  | none => rfl
  | some exprKind =>
      rw [hname] at h
      exact read_exprKind_eq h

/-- Objects of one type whose fields agree are read alike. -/
theorem Role.reads_object {role : Role} (hkind : Json.kind? members = Json.kind? members')
    (h : Alike (role.fields (Json.kind? members)) members members') :
    role.Reads (.object members) (.object members') := by
  cases role with
  | program =>
      rw [Role.Reads, Program.ofJson_object, Program.ofJson_object, hkind, requiredItems, requiredItems,
        h.required List.mem_cons_self]
  | stmt =>
      rw [Role.Reads, Stmt.ofJson_eq, Stmt.ofJson_eq]
      refine Node.ofJson_bind_eq hkind fun kind hk => ?_
      rw [hk, Role.fields, Option.bind_some] at h
      dsimp only
      cases hname : StmtKind.ofName? kind with
      | none => rfl
      | some stmtKind =>
          rw [hname] at h
          exact read_stmtKind_eq h
  | expr => exact expr_reads_object hkind h
  | forInit =>
      rw [Role.Reads, ForInit.ofJson_eq, ForInit.ofJson_eq]
      refine Node.ofJson_bind_eq hkind fun kind hk => ?_
      rw [Role.fields, hk] at h
      split at h
      · next hvar => simp only [Option.some.inj hvar, ↓reduceIte, varDeclIn_eq h]
      · next hvar =>
          have hne : kind ≠ "VariableDeclaration" := fun heq => hvar (congrArg some heq)
          have hexpr : Expr.ofJson (.object members) = Expr.ofJson (.object members') :=
            expr_reads_object hkind (by rwa [hk])
          simp only [hne, ↓reduceIte, hexpr]
  | property =>
      refine ⟨?_, ?_⟩
      · rw [foreignKind?, foreignKind?, Node.ofJson_object, Node.ofJson_object, ← hkind]
        cases Json.kind? members <;> rfl
      · rw [Property.ofJson_eq, Property.ofJson_eq]
        exact Node.ofJson_bind_eq hkind fun _ _ => propertyIn_eq h
  | declarator =>
      rw [Role.Reads, Declarator.ofJson_eq, Declarator.ofJson_eq]
      exact Node.ofJson_bind_eq hkind fun _ _ => declaratorIn_eq h
  | block =>
      rw [Role.Reads, blockIn, blockIn]
      refine Node.ofJson_bind_eq hkind fun kind _ => ?_
      exact congrArg (fun body => Except.ok (kind, body)) (h.required List.mem_cons_self)
  | name =>
      intro kind field
      rw [nameIn, nameIn]
      refine Node.ofJson_bind_eq hkind fun _ _ => ?_
      simp only [requiredString, h.required List.mem_cons_self]
  | plain => trivial
  | list _ => exact .none

/-- Arrays whose items agree are read alike. -/
theorem Role.reads_array {role : Role} {vs ws : List Json} (h : List.Forall₂ role.item.Agrees vs ws) :
    role.Reads (.array vs) (.array ws) := by
  cases role with
  | program =>
      have hstmts : vs.mapM Stmt.ofJson = ws.mapM Stmt.ofJson := mapM_eq h
      rw [Role.Reads, Program.ofJson, Program.ofJson, hstmts]
  | stmt => rw [Role.Reads, Stmt.ofJson_eq, Stmt.ofJson_eq]; rfl
  | expr => rw [Role.Reads, Expr.ofJson_eq, Expr.ofJson_eq]; rfl
  | forInit => rw [Role.Reads, ForInit.ofJson_eq, ForInit.ofJson_eq]; rfl
  | property =>
      rw [Role.Reads, Property.ofJson_eq, Property.ofJson_eq]
      exact ⟨rfl, rfl⟩
  | declarator => rw [Role.Reads, Declarator.ofJson_eq, Declarator.ofJson_eq]; rfl
  | block => rfl
  | name => exact fun _ _ => rfl
  | plain => trivial
  | list item => exact .some h

/-! Edits. -/

/-- A field with one value in both lists. -/
theorem Field.rel_of_lookup_eq {f : Field} (h : Json.lookup f.name members = Json.lookup f.name members') :
    Option.Rel f.role.Agrees (f.value? members) (f.value? members') := by
  have hvalue : f.value? members = f.value? members' := by
    rw [Field.value?, Field.value?, Json.present?, Json.present?, h]
  rw [hvalue]
  cases f.value? members' with
  | none => exact .none
  | some c => exact .some (.refl f.role c)

/-- A field whose value is changed to one that agrees with it. -/
theorem Field.rel_of_agrees {f : Field} {v w : Json} (hagrees : f.role.Agrees v w)
    (hv : Json.lookup f.name members = some v) (hw : Json.lookup f.name members' = some w) :
    Option.Rel f.role.Agrees (f.value? members) (f.value? members') := by
  have hnull : v.isNull = w.isNull := by rw [← v.isNull_shape, hagrees.1, w.isNull_shape]
  rw [Field.value?, Field.value?, Json.present?, Json.present?, hv, hw, Option.filter_some, Option.filter_some, hnull]
  cases f.optional with
  | false => exact .some hagrees
  | true =>
      cases w.isNull with
      | false => exact .some hagrees
      | true => exact .none

/-- An optional field that is absent in one list and null in the other. -/
theorem Field.rel_of_absent {f : Field} (hoptional : f.optional = true) (hv : Json.lookup f.name members = none)
    (hw : Json.lookup f.name members' = some .null) :
    Option.Rel f.role.Agrees (f.value? members) (f.value? members') := by
  rw [Field.value?, Field.value?, if_pos hoptional, if_pos hoptional, Json.present?, Json.present?, hv, hw]
  exact .none

theorem Role.agrees_object {role : Role} (hkind : Json.kind? members = Json.kind? members')
    (h : ∀ f ∈ role.fields (Json.kind? members), Option.Rel f.role.Agrees (f.value? members) (f.value? members')) :
    role.Agrees (.object members) (.object members') := ⟨rfl, Role.reads_object hkind h⟩

theorem Role.agrees_reorder {role : Role} (hkeys : (members.map Prod.fst).Nodup) (h : members.Perm members') :
    role.Agrees (.object members) (.object members') := by
  refine agrees_object ?_ fun f _ => Field.rel_of_lookup_eq (Json.lookup_perm hkeys h)
  rw [Json.kind?, Json.kind?, Json.lookup_perm hkeys h]

theorem Role.agrees_extra {role : Role} {key : String} {v : Json} (hkey : key ∉ fieldNames) :
    role.Agrees (.object members) (.object ((key, v) :: members)) := by
  have hlookup {k : String} (hk : k ∈ fieldNames) : Json.lookup k members = Json.lookup k ((key, v) :: members) := by
    rw [Json.lookup_cons, if_neg fun heq : key = k => hkey (heq ▸ hk)]
  refine agrees_object ?_ fun f hf => Field.rel_of_lookup_eq (hlookup (role.name_mem_fieldNames _ f hf))
  rw [Json.kind?, Json.kind?, hlookup List.mem_cons_self]

theorem Role.agrees_absent {role : Role} {f : Field} (hf : f ∈ role.fields (Json.kind? members))
    (hoptional : f.optional = true) (hname : f.name ∉ members.map Prod.fst) :
    role.Agrees (.object members) (.object ((f.name, .null) :: members)) := by
  have hlookup {k : String} (hk : f.name ≠ k) : Json.lookup k members = Json.lookup k ((f.name, .null) :: members) := by
    rw [Json.lookup_cons, if_neg hk]
  have htype : f.name ≠ "type" := fun heq =>
    (List.nodup_cons.mp (role.nodup_fields (Json.kind? members))).1 (heq ▸ List.mem_map_of_mem hf)
  refine agrees_object (by rw [Json.kind?, Json.kind?, hlookup htype]) fun g hg => ?_
  by_cases hfg : f.name = g.name
  -- No other field goes by the name, so there is none that would have to be present.
  · rw [← eq_of_name_eq hf hg hfg]
    exact Field.rel_of_absent hoptional (Json.lookup_eq_none hname) (by rw [Json.lookup_cons, if_pos rfl])
  · exact Field.rel_of_lookup_eq (hlookup hfg)

theorem Role.agrees_member {role : Role} {before after : List (String × Json)} {key : String} {v w : Json}
    (hkeys : ((before ++ (key, v) :: after).map Prod.fst).Nodup)
    (h : (role.at (before ++ (key, v) :: after) key).Agrees v w) :
    role.Agrees (.object (before ++ (key, v) :: after)) (.object (before ++ (key, w) :: after)) := by
  have hkeys' : ((before ++ (key, w) :: after).map Prod.fst).Nodup := by
    rwa [List.map_append, List.map_cons] at hkeys ⊢
  refine agrees_object ?_ fun f hf => ?_
  -- The type itself may be what is edited, but a string has nothing inside to edit.
  · rw [Json.kind?, Json.kind?]
    by_cases htype : key = "type"
    · subst htype
      rw [Json.lookup_member hkeys, Json.lookup_member hkeys', Option.bind_some, Option.bind_some, ← v.string?_shape,
        h.1, w.string?_shape]
    · rw [Json.lookup_of_ne htype]
  · by_cases hname : key = f.name
    · subst hname
      rw [at_name hf] at h
      exact Field.rel_of_agrees h (Json.lookup_member hkeys) (Json.lookup_member hkeys')
    · exact Field.rel_of_lookup_eq (Json.lookup_of_ne hname)

theorem Role.agrees_item {role : Role} {before after : List Json} {v w : Json} (h : role.item.Agrees v w) :
    role.Agrees (.array (before ++ v :: after)) (.array (before ++ w :: after)) := by
  have hsame (items : List Json) : List.Forall₂ role.item.Agrees items items :=
    List.forall₂_same.mpr fun c _ => .refl _ c
  exact ⟨rfl, reads_array (List.rel_append (hsame before) (.cons h (hsame after)))⟩

/-- An edit keeps what is read. -/
theorem Edit.agrees {role : Role} {v w : Json} (h : Edit role v w) (hkeys : v.UniqueKeys) : role.Agrees v w := by
  -- The induction goes up from the place of the edit, through the members and items around it.
  induction h with
  | reorder hperm => exact Role.agrees_reorder (Json.uniqueKeys_object.mp hkeys).1 hperm
  | extra hkey => exact Role.agrees_extra hkey
  | absent hf hoptional hname => exact Role.agrees_absent hf hoptional hname
  | member before after _ ih =>
      obtain ⟨hnodup, hvalues⟩ := Json.uniqueKeys_object.mp hkeys
      exact Role.agrees_member hnodup (ih (hvalues _ (List.mem_append_right _ List.mem_cons_self)))
  | item before after _ ih =>
      exact Role.agrees_item (ih (Json.uniqueKeys_array.mp hkeys _ (List.mem_append_right _ List.mem_cons_self)))

/-- Edits in both directions keep keys unique, and so they keep the script. -/
theorem Edit.decode_eq_of_eqvGen {v w : Json} (h : Relation.EqvGen (Edit .program) v w) :
    (v.UniqueKeys ↔ w.UniqueKeys) ∧ (v.UniqueKeys → Program.ofJson v = Program.ofJson w) := by
  induction h with
  | rel v w hedit => exact ⟨hedit.uniqueKeys_iff, fun hkeys => (hedit.agrees hkeys).2⟩
  | refl v => exact ⟨.rfl, fun _ => rfl⟩
  | symm v w _ ih => exact ⟨ih.1.symm, fun hkeys => (ih.2 (ih.1.mpr hkeys)).symm⟩
  | trans u v w _ _ ihv ihw =>
      exact ⟨ihv.1.trans ihw.1, fun hkeys => (ihv.2 hkeys).trans (ihw.2 (ihv.1.mp hkeys))⟩

end ESTree

/-- However the members of a script's objects are ordered, whatever members are added that are not read, and whether an
absent part is left out or null, the script decodes to the same tree or fails with the same error. -/
theorem decoding_ignores_presentation {v w : Json} (hkeys : v.UniqueKeys)
    (hedits : Relation.EqvGen (Edit .program) v w) : Program.ofJson w = Program.ofJson v :=
  ((Edit.decode_eq_of_eqvGen hedits).2 hkeys).symm

/-- A script of one statement with the given members. -/
def oneStatement (members : List (String × Json)) : Json :=
  .object [("type", .string "Program"), ("body", .array [.object members])]

theorem decoding_ignores_presentation_return :
    (oneStatement [("type", .string "ReturnStatement"), ("argument", .null)]).UniqueKeys ∧
    Program.ofJson (.object [("body", .array [.object [("loc", .object []), ("type", .string "ReturnStatement")]]),
      ("type", .string "Program")]) =
    Program.ofJson (oneStatement [("type", .string "ReturnStatement"), ("argument", .null)]) := by
  have hinside {members members' : List (String × Json)} (h : Edit .stmt (.object members) (.object members')) :
      Edit .program (oneStatement members) (oneStatement members') :=
    .member [("type", .string "Program")] [] (.item [] [] h)
  have hkeys : (oneStatement [("type", .string "ReturnStatement"), ("argument", .null)]).UniqueKeys := by
    simp only [oneStatement, Json.uniqueKeys_object, Json.uniqueKeys_array, List.forall_mem_cons]
    exact ⟨by decide, .string _, ⟨⟨by decide, .string _, .null, nofun⟩, nofun⟩, nofun⟩
  refine ⟨hkeys, decoding_ignores_presentation hkeys ?_⟩
  have hargument : Edit .stmt (.object [("type", .string "ReturnStatement")])
      (.object [("argument", .null), ("type", .string "ReturnStatement")]) :=
    .absent (f := ⟨"argument", .expr, true⟩) (by decide) rfl (by decide)
  have hloc : Edit .stmt (.object [("type", .string "ReturnStatement")])
      (.object [("loc", .object []), ("type", .string "ReturnStatement")]) :=
    .extra (by decide) (by decide) (.object List.nodup_nil nofun)
  refine .trans _ _ _ (.rel _ _ (hinside (.reorder (.swap _ _ _)))) ?_
  refine .trans _ _ _ (.symm _ _ (.rel _ _ (hinside hargument))) ?_
  refine .trans _ _ _ (.rel _ _ (hinside hloc)) ?_
  exact .rel _ _ (.reorder (.swap _ _ _))

end ScriptSsa
