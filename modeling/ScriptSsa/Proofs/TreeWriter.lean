import ScriptSsa.Proofs.NodeReading

/-!
Every tree can be written as ESTree JSON and read back.

`toJson` is the writer: each node with its `type` and its fields, null for a hole and for a part that is absent, and an
unsupported node with nothing but its kind. A number that is not finite has no JSON form and is written as null. What is
written decodes to the tree itself if its numbers are finite and its unsupported nodes go by kinds that the decoder does
not know, each for the place where it stands.
-/

namespace ScriptSsa

open ESTree

/-! The writer. -/

namespace Json

/-- A node with the given type and fields. -/
def node (kind : String) (fields : List (String × Json)) : Json := .object (("type", .string kind) :: fields)

/-- A part that may be absent. -/
def ofOption : Option Json → Json
  | some v => v
  | none => .null

end Json

def Literal.toJson : Literal → Json
  | .null => .null
  | .bool b => .bool b
  | .number x => if x.isFinite then .number x else .null
  | .string s => .string s

/-- The identifier with the given name. -/
def identifierJson (name : String) : Json := .node ExprKind.identifier.name [("name", .string name)]

/-- The block with the given statements. -/
def blockJson (body : List Json) : Json := .node StmtKind.blockStatement.name [("body", .array body)]

mutual

def Expr.toJson : Expr → Json
  | .ident name => identifierJson name
  | .literal l => .node ExprKind.literal.name [("value", l.toJson)]
  | .this => .node ExprKind.thisExpression.name []
  | .array es => .node ExprKind.arrayExpression.name [("elements", .array (elementsToJson es))]
  | .object ps => .node ExprKind.objectExpression.name [("properties", .array (propertiesToJson ps))]
  | .function f => .node ExprKind.functionExpression.name f.toFields
  | .unary op e =>
    .node ExprKind.unaryExpression.name
      [("operator", .string op.symbol), ("prefix", .bool true), ("argument", e.toJson)]
  | .update op isPrefix e =>
    .node ExprKind.updateExpression.name
      [("operator", .string op.symbol), ("argument", e.toJson), ("prefix", .bool isPrefix)]
  | .binary op left right =>
    .node ExprKind.binaryExpression.name
      [("operator", .string op.symbol), ("left", left.toJson), ("right", right.toJson)]
  | .logical op left right =>
    .node ExprKind.logicalExpression.name
      [("operator", .string op.symbol), ("left", left.toJson), ("right", right.toJson)]
  | .assign op left right =>
    .node ExprKind.assignmentExpression.name
      [("operator", .string op.symbol), ("left", left.toJson), ("right", right.toJson)]
  | .conditional t c a =>
    .node ExprKind.conditionalExpression.name
      [("test", t.toJson), ("consequent", c.toJson), ("alternate", a.toJson)]
  | .sequence es => .node ExprKind.sequenceExpression.name [("expressions", .array (exprsToJson es))]
  | .member o p computed =>
    .node ExprKind.memberExpression.name
      [("object", o.toJson), ("property", p.toJson), ("computed", .bool computed)]
  | .call f es =>
    .node ExprKind.callExpression.name [("callee", f.toJson), ("arguments", .array (exprsToJson es))]
  | .new f es =>
    .node ExprKind.newExpression.name [("callee", f.toJson), ("arguments", .array (exprsToJson es))]
  | .unsupported kind => .node kind []

def exprsToJson : List Expr → List Json
  | [] => []
  | e :: es => e.toJson :: exprsToJson es

def optionalToJson : Option Expr → Json
  | none => .null
  | some e => e.toJson

def elementsToJson : List (Option Expr) → List Json
  | [] => []
  | none :: es => .null :: elementsToJson es
  | some e :: es => e.toJson :: elementsToJson es

def propertiesToJson : List Property → List Json
  | [] => []
  | ⟨key, value, kind, computed⟩ :: ps =>
    .node "Property"
      [("key", key.toJson), ("value", value.toJson), ("kind", .string kind.keyword), ("computed", .bool computed),
        ("method", .bool false), ("shorthand", .bool false)] ::
      propertiesToJson ps

def Function.toFields : Function → List (String × Json)
  | ⟨name, params, body, isGenerator, isAsync⟩ =>
    [("id", .ofOption (name.map identifierJson)), ("params", .array (exprsToJson params)),
      ("body", blockJson (stmtsToJson body)), ("generator", .bool isGenerator), ("async", .bool isAsync)]

def declaratorsToJson : List Declarator → List Json
  | [] => []
  | ⟨target, init⟩ :: ds =>
    .node "VariableDeclarator" [("id", target.toJson), ("init", optionalToJson init)] :: declaratorsToJson ds

def VarDecl.toJson : VarDecl → Json
  | ⟨kind, ds⟩ =>
    .node StmtKind.variableDeclaration.name
      [("kind", .string kind.keyword), ("declarations", .array (declaratorsToJson ds))]

def initToJson : Option ForInit → Json
  | none => .null
  | some (.var d) => d.toJson
  | some (.expr e) => e.toJson

def Stmt.toJson : Stmt → Json
  | .var d => d.toJson
  | .function f => .node StmtKind.functionDeclaration.name f.toFields
  | .expr e => .node StmtKind.expressionStatement.name [("expression", e.toJson)]
  | .block body => blockJson (stmtsToJson body)
  | .empty => .node StmtKind.emptyStatement.name []
  | .branch t c a =>
    .node StmtKind.ifStatement.name
      [("test", t.toJson), ("consequent", c.toJson), ("alternate", alternateToJson a)]
  | .whileLoop t b => .node StmtKind.whileStatement.name [("test", t.toJson), ("body", b.toJson)]
  | .doWhile b t => .node StmtKind.doWhileStatement.name [("body", b.toJson), ("test", t.toJson)]
  | .forLoop i t u b =>
    .node StmtKind.forStatement.name
      [("init", initToJson i), ("test", optionalToJson t), ("update", optionalToJson u), ("body", b.toJson)]
  | .jump .exit label => .node StmtKind.breakStatement.name [("label", .ofOption (label.map identifierJson))]
  | .jump .next label => .node StmtKind.continueStatement.name [("label", .ofOption (label.map identifierJson))]
  | .ret e => .node StmtKind.returnStatement.name [("argument", optionalToJson e)]
  | .labeled label b =>
    .node StmtKind.labeledStatement.name [("label", identifierJson label), ("body", b.toJson)]
  | .unsupported kind => .node kind []

def alternateToJson : Option Stmt → Json
  | none => .null
  | some s => s.toJson

def stmtsToJson : List Stmt → List Json
  | [] => []
  | s :: ss => s.toJson :: stmtsToJson ss

end

/-- The script as a `Program` node. -/
def Program.toJson (p : Program) : Json :=
  .node "Program" [("sourceType", .string "script"), ("body", .array (stmtsToJson p.body))]

/-! Trees that can be written. -/

def Literal.Writable : Literal → Prop
  | .number x => x.isFinite = true
  | _ => True

mutual

/-- Numbers are finite, and unsupported nodes go by kinds that the decoder does not know where they stand. -/
def Expr.Writable : Expr → Prop
  | .ident _ | .this => True
  | .literal l => l.Writable
  | .array es => elementsWritable es
  | .object ps => propertiesWritable ps
  | .function f => f.Writable
  | .unary _ e => e.Writable
  | .update _ _ e => e.Writable
  | .binary _ left right => left.Writable ∧ right.Writable
  | .logical _ left right => left.Writable ∧ right.Writable
  | .assign _ left right => left.Writable ∧ right.Writable
  | .conditional t c a => t.Writable ∧ c.Writable ∧ a.Writable
  | .sequence es => exprsWritable es
  | .member o p _ => o.Writable ∧ p.Writable
  | .call f es => f.Writable ∧ exprsWritable es
  | .new f es => f.Writable ∧ exprsWritable es
  | .unsupported kind => ExprKind.ofName? kind = none

def exprsWritable : List Expr → Prop
  | [] => True
  | e :: es => e.Writable ∧ exprsWritable es

def optionalWritable : Option Expr → Prop
  | none => True
  | some e => e.Writable

def elementsWritable : List (Option Expr) → Prop
  | [] => True
  | none :: es => elementsWritable es
  | some e :: es => e.Writable ∧ elementsWritable es

def propertiesWritable : List Property → Prop
  | [] => True
  | ⟨key, value, _, _⟩ :: ps => key.Writable ∧ value.Writable ∧ propertiesWritable ps

def Function.Writable : Function → Prop
  | ⟨_, params, body, _, _⟩ => exprsWritable params ∧ stmtsWritable body

def declaratorsWritable : List Declarator → Prop
  | [] => True
  | ⟨target, init⟩ :: ds => target.Writable ∧ optionalWritable init ∧ declaratorsWritable ds

def VarDecl.Writable : VarDecl → Prop
  | ⟨_, ds⟩ => declaratorsWritable ds

/-- At the start of a `for`, a node of type `VariableDeclaration` is a declaration. -/
def initWritable : Option ForInit → Prop
  | none => True
  | some (.var d) => d.Writable
  | some (.expr e) => e.Writable ∧ e ≠ .unsupported "VariableDeclaration"

def Stmt.Writable : Stmt → Prop
  | .var d => d.Writable
  | .function f => f.Writable
  | .expr e => e.Writable
  | .block body => stmtsWritable body
  | .empty | .jump _ _ => True
  | .branch t c a => t.Writable ∧ c.Writable ∧ alternateWritable a
  | .whileLoop t b => t.Writable ∧ b.Writable
  | .doWhile b t => b.Writable ∧ t.Writable
  | .forLoop i t u b => initWritable i ∧ optionalWritable t ∧ optionalWritable u ∧ b.Writable
  | .ret e => optionalWritable e
  | .labeled _ b => b.Writable
  | .unsupported kind => StmtKind.ofName? kind = none

def alternateWritable : Option Stmt → Prop
  | none => True
  | some s => s.Writable

def stmtsWritable : List Stmt → Prop
  | [] => True
  | s :: ss => s.Writable ∧ stmtsWritable ss

end

def Program.Writable (p : Program) : Prop := stmtsWritable p.body

/-! Reading back. -/

section

variable {α : Type} {kind field : String} {members : List (String × Json)} {c : Json}

theorem required_eq {read : Json → Except DecodeError α} (h : Json.lookup field members = some c) :
    required kind field members read = read c := by
  rw [required, h]

/-- A field that holds an array is read item by item. -/
theorem requiredItems_eq {read : List Json → Except DecodeError α} {items : List Json}
    (h : Json.lookup field members = some (.array items)) : requiredItems kind field members read = read items := by
  rw [requiredItems, required_eq h]
  rfl

theorem requiredString_eq {s : String} (h : Json.lookup field members = some (.string s)) :
    requiredString kind field members = .ok s := by
  rw [requiredString, required_eq h]
  rfl

theorem flagIn_eq {b : Bool} (h : Json.lookup field members = some (.bool b)) : flagIn kind field members = .ok b := by
  rw [flagIn, Json.present?, h]
  rfl

theorem optionally_eq {read : Json → Except DecodeError α} {a : α} (h : Json.lookup field members = some c)
    (hnull : c.isNull = false) (hc : read c = .ok a) : optionally field members read = .ok (some a) := by
  have hpresent : Json.present? field members = some c := by
    rw [Json.present?, h, Option.filter_some, hnull]
    rfl
  rw [optionally, hpresent]
  exact congrArg (some <$> ·) hc

/-- What is written as null is read as absent. -/
theorem optionally_null {read : Json → Except DecodeError α} (h : Json.lookup field members = some .null) :
    optionally field members read = .ok none := by
  rw [optionally, Json.present?, h]
  rfl

/-- An operator is read by its symbol before its operands are. -/
theorem operationIn_eq {Op : Type} {ofSymbol? : String → Option Op} {apply : Op → Except DecodeError Expr}
    {symbol : String} {op : Op} (h : Json.lookup "operator" members = some (.string symbol))
    (hop : ofSymbol? symbol = some op) : operationIn kind members ofSymbol? apply = apply op := by
  rw [operationIn, requiredString_eq h, ok_bind, hop]

theorem nameIn_identifierJson (name : String) : nameIn kind field (identifierJson name) = .ok name := rfl

/-- The name in a field that holds an identifier or null. -/
theorem optionally_nameIn {name : Option String}
    (h : Json.lookup field members = some (.ofOption (name.map identifierJson))) :
    optionally field members (nameIn kind field) = .ok name := by
  cases name with
  | none => exact optionally_null h
  | some name => exact optionally_eq h rfl (nameIn_identifierJson name)

end

theorem ESTree.Node.ofJson_node (kind : String) (fields : List (String × Json)) :
    Node.ofJson (.node kind fields) = .ok ⟨kind, ("type", .string kind) :: fields, rfl⟩ := rfl

/-- A written node is read by the rule of its kind. -/
theorem Expr.ofJson_node (kind : ExprKind) (fields : List (String × Json)) :
    Expr.ofJson (.node kind.name fields) = kind.read kind.name (("type", .string kind.name) :: fields) := by
  rw [Expr.ofJson_eq, Node.ofJson_node, ok_bind]
  dsimp only
  rw [ExprKind.ofName?_name]

theorem Stmt.ofJson_node (kind : StmtKind) (fields : List (String × Json)) :
    Stmt.ofJson (.node kind.name fields) = kind.read kind.name (("type", .string kind.name) :: fields) := by
  rw [Stmt.ofJson_eq, Node.ofJson_node, ok_bind]
  dsimp only
  rw [StmtKind.ofName?_name]

/-- A kind that the reader does not know stands for itself, without any field. -/
theorem Expr.ofJson_unsupported {kind : String} (h : ExprKind.ofName? kind = none) :
    Expr.ofJson (.node kind []) = .ok (.unsupported kind) := by
  rw [Expr.ofJson_eq, Node.ofJson_node, ok_bind]
  dsimp only
  rw [h]

theorem Stmt.ofJson_unsupported {kind : String} (h : StmtKind.ofName? kind = none) :
    Stmt.ofJson (.node kind []) = .ok (.unsupported kind) := by
  rw [Stmt.ofJson_eq, Node.ofJson_node, ok_bind]
  dsimp only
  rw [h]

theorem Property.ofJson_node (kind : String) (fields : List (String × Json)) :
    Property.ofJson (.node kind fields) = propertyIn kind (("type", .string kind) :: fields) := by
  rw [Property.ofJson_eq]
  rfl

theorem Declarator.ofJson_node (kind : String) (fields : List (String × Json)) :
    Declarator.ofJson (.node kind fields) = declaratorIn kind (("type", .string kind) :: fields) := by
  rw [Declarator.ofJson_eq]
  rfl

/-- With the kind of the property known, its key and value are read in this order. -/
theorem propertyIn_of_kind {members : List (String × Json)} {propertyKind : PropertyKind}
    (h : Json.present? "kind" members = some (.string propertyKind.keyword)) :
    propertyIn "Property" members = do
      let key ← required "Property" "key" members Expr.ofJson
      let value ← required "Property" "value" members Expr.ofJson
      return ⟨key, value, propertyKind, ← flagIn "Property" "computed" members⟩ := by
  have hkind : PropertyKind.ofKeyword? (((Json.present? "kind" members).bind Json.string?).getD "init") =
      some propertyKind := by
    rw [h]
    exact PropertyKind.ofKeyword?_keyword propertyKind
  rw [propertyIn, if_pos rfl, hkind]

/-- An expression is written as a node of its kind. -/
theorem Expr.toJson_eq_node (e : Expr) : ∃ fields, e.toJson = .node e.kind fields := by
  cases e <;> exact ⟨_, by rw [Expr.toJson]; rfl⟩

/-- So an expression in the head of a loop is not taken for a declaration. -/
theorem ExprKind.name_ne_variableDeclaration (kind : ExprKind) : kind.name ≠ "VariableDeclaration" := by
  cases kind <;> decide

/-- Only an unsupported expression can go by the kind of a declaration. -/
theorem Expr.kind_ne_of_ne {e : Expr} (h : e ≠ .unsupported "VariableDeclaration") :
    e.kind ≠ "VariableDeclaration" := by
  cases e with
  | unsupported kind => exact fun heq => h (congrArg Expr.unsupported heq)
  | _ =>
      rw [Expr.kind]
      exact ExprKind.name_ne_variableDeclaration _

/-- A part that is there is not written as null, so it is not read as absent. -/
theorem Stmt.isNull_toJson (s : Stmt) : s.toJson.isNull = false := by
  cases s with
  | var d =>
      cases d
      simp only [Stmt.toJson, VarDecl.toJson]
      rfl
  | jump kind label => cases kind <;> simp only [Stmt.toJson] <;> rfl
  | _ =>
      rw [Stmt.toJson]
      rfl

theorem Expr.isNull_toJson (e : Expr) : e.toJson.isNull = false := by
  obtain ⟨fields, h⟩ := e.toJson_eq_node
  rw [h]
  rfl

/-- Numbers must be finite here: one that is not would come back as null. -/
theorem literalIn_toJson {kind : String} {l : Literal} (h : l.Writable) :
    literalIn kind [("type", .string kind), ("value", l.toJson)] = .ok (.literal l) := by
  cases l with
  | number x =>
      have hfinite : x.isFinite = true := h
      rw [Literal.toJson, if_pos hfinite]
      rfl
  | _ => rfl

-- The recursion is on the tree. Each field is looked up among the members just written, which is a computation.
mutual

/-- What is written of an expression is read back as it was, by induction over the tree. -/
theorem Expr.ofJson_toJson : (e : Expr) → e.Writable → Expr.ofJson e.toJson = .ok e
  | .ident name, _ => by
    rw [Expr.toJson, identifierJson, Expr.ofJson_node, ExprKind.read, requiredString_eq rfl]
    rfl
  | .literal l, h => by
    rw [Expr.Writable] at h
    rw [Expr.toJson, Expr.ofJson_node, ExprKind.read, literalIn_toJson h]
  | .this, _ => by
    rw [Expr.toJson, Expr.ofJson_node, ExprKind.read]
  | .array es, h => by
    rw [Expr.Writable] at h
    rw [Expr.toJson, Expr.ofJson_node, ExprKind.read, requiredItems_eq rfl, mapM_elementsToJson es h]
    rfl
  | .object ps, h => by
    rw [Expr.Writable] at h
    rw [Expr.toJson, Expr.ofJson_node, ExprKind.read, requiredItems_eq rfl, objectIn, (entries_propertiesToJson ps h).1]
    simp only [(entries_propertiesToJson ps h).2]
    rfl
  | .function f, h => by
    rw [Expr.Writable] at h
    rw [Expr.toJson, Expr.ofJson_node, ExprKind.read, f.functionIn_toFields h]
    rfl
  | .unary op e, h => by
    rw [Expr.Writable] at h
    rw [Expr.toJson, Expr.ofJson_node, ExprKind.read, operationIn_eq rfl op.ofSymbol?_symbol, required_eq rfl,
      e.ofJson_toJson h]
    rfl
  | .update op isPrefix e, h => by
    rw [Expr.Writable] at h
    rw [Expr.toJson, Expr.ofJson_node, ExprKind.read, operationIn_eq rfl op.ofSymbol?_symbol, flagIn_eq rfl,
      required_eq rfl, e.ofJson_toJson h]
    rfl
  | .binary op left right, h => by
    rw [Expr.Writable] at h
    rw [Expr.toJson, Expr.ofJson_node, ExprKind.read, operationIn_eq rfl op.ofSymbol?_symbol, required_eq rfl,
      required_eq rfl, left.ofJson_toJson h.1, right.ofJson_toJson h.2]
    rfl
  | .logical op left right, h => by
    rw [Expr.Writable] at h
    rw [Expr.toJson, Expr.ofJson_node, ExprKind.read, operationIn_eq rfl op.ofSymbol?_symbol, required_eq rfl,
      required_eq rfl, left.ofJson_toJson h.1, right.ofJson_toJson h.2]
    rfl
  | .assign op left right, h => by
    rw [Expr.Writable] at h
    rw [Expr.toJson, Expr.ofJson_node, ExprKind.read, operationIn_eq rfl op.ofSymbol?_symbol, required_eq rfl,
      required_eq rfl, left.ofJson_toJson h.1, right.ofJson_toJson h.2]
    rfl
  | .conditional t c a, h => by
    rw [Expr.Writable] at h
    rw [Expr.toJson, Expr.ofJson_node, ExprKind.read, required_eq rfl, required_eq rfl, required_eq rfl,
      t.ofJson_toJson h.1, c.ofJson_toJson h.2.1, a.ofJson_toJson h.2.2]
    rfl
  | .sequence es, h => by
    rw [Expr.Writable] at h
    rw [Expr.toJson, Expr.ofJson_node, ExprKind.read, requiredItems_eq rfl, mapM_exprsToJson es h]
    rfl
  | .member o p computed, h => by
    rw [Expr.Writable] at h
    rw [Expr.toJson, Expr.ofJson_node, ExprKind.read, required_eq rfl, required_eq rfl, flagIn_eq rfl,
      o.ofJson_toJson h.1, p.ofJson_toJson h.2]
    rfl
  | .call f es, h => by
    rw [Expr.Writable] at h
    rw [Expr.toJson, Expr.ofJson_node, ExprKind.read, required_eq rfl, requiredItems_eq rfl, f.ofJson_toJson h.1,
      mapM_exprsToJson es h.2]
    rfl
  | .new f es, h => by
    rw [Expr.Writable] at h
    rw [Expr.toJson, Expr.ofJson_node, ExprKind.read, required_eq rfl, requiredItems_eq rfl, f.ofJson_toJson h.1,
      mapM_exprsToJson es h.2]
    rfl
  | .unsupported kind, h => by
    rw [Expr.Writable] at h
    rw [Expr.toJson, Expr.ofJson_unsupported h]

theorem mapM_exprsToJson : (es : List Expr) → exprsWritable es → (exprsToJson es).mapM Expr.ofJson = .ok es
  | [], _ => by
    rw [exprsToJson]
    rfl
  | e :: es, h => by
    rw [exprsWritable] at h
    rw [exprsToJson, List.mapM_cons, e.ofJson_toJson h.1, mapM_exprsToJson es h.2]
    rfl

/-- A hole is written as null and read as a hole, so the places of elements are kept. -/
theorem mapM_elementsToJson : (es : List (Option Expr)) → elementsWritable es →
    (elementsToJson es).mapM elementIn = .ok es
  | [], _ => by
    rw [elementsToJson]
    rfl
  | none :: es, h => by
    rw [elementsWritable] at h
    rw [elementsToJson, List.mapM_cons, mapM_elementsToJson es h]
    rfl
  | some e :: es, h => by
    rw [elementsWritable] at h
    have helement : elementIn e.toJson = .ok (some e) := by
      rw [elementIn, e.isNull_toJson, e.ofJson_toJson h.1]
      rfl
    rw [elementsToJson, List.mapM_cons, helement, mapM_elementsToJson es h.2]
    rfl

/-- No written property is of a foreign kind, which would make the whole object unsupported. -/
theorem entries_propertiesToJson : (ps : List Property) → propertiesWritable ps →
    (propertiesToJson ps).findSome? foreignKind? = none ∧ (propertiesToJson ps).mapM Property.ofJson = .ok ps
  | [], _ => by
    rw [propertiesToJson]
    exact ⟨rfl, rfl⟩
  | ⟨key, value, kind, computed⟩ :: ps, h => by
    rw [propertiesWritable] at h
    have hrest := entries_propertiesToJson ps h.2.2
    have hkey := key.ofJson_toJson h.1
    have hvalue := value.ofJson_toJson h.2.1
    rw [propertiesToJson]
    refine ⟨hrest.1, ?_⟩
    rw [List.mapM_cons, Property.ofJson_node, propertyIn_of_kind rfl, required_eq rfl, required_eq rfl, flagIn_eq rfl,
      hkey, hvalue, hrest.2]
    rfl

/-- Functions are written by their fields alone, for expressions and declarations share them. -/
theorem Function.functionIn_toFields {kind : String} : (f : Function) → f.Writable →
    functionIn kind (("type", .string kind) :: f.toFields) = .ok f
  | ⟨name, params, body, isGenerator, isAsync⟩, h => by
    rw [Function.Writable] at h
    have hblock : blockIn (blockJson (stmtsToJson body)) = .ok (StmtKind.blockStatement.name, .ok body) :=
      congrArg (fun stmts => Except.ok (StmtKind.blockStatement.name, stmts)) (mapM_stmtsToJson body h.2)
    rw [Function.toFields, functionIn, required_eq rfl, hblock, optionally_nameIn rfl, requiredItems_eq rfl,
      mapM_exprsToJson params h.1, flagIn_eq rfl, flagIn_eq rfl]
    rfl

theorem mapM_declaratorsToJson : (ds : List Declarator) → declaratorsWritable ds →
    (declaratorsToJson ds).mapM Declarator.ofJson = .ok ds
  | [], _ => by
    rw [declaratorsToJson]
    rfl
  | ⟨target, init⟩ :: ds, h => by
    rw [declaratorsWritable] at h
    rw [declaratorsToJson, List.mapM_cons, Declarator.ofJson_node, declaratorIn, required_eq rfl,
      target.ofJson_toJson h.1, optionally_optionalToJson init h.2.1 rfl, mapM_declaratorsToJson ds h.2.2]
    rfl

theorem optionally_optionalToJson {field : String} {members : List (String × Json)} : (e : Option Expr) →
    optionalWritable e → Json.lookup field members = some (optionalToJson e) →
    optionally field members Expr.ofJson = .ok e
  | none, _, hlookup => by
    rw [optionalToJson] at hlookup
    exact optionally_null hlookup
  | some e, h, hlookup => by
    rw [optionalWritable] at h
    rw [optionalToJson] at hlookup
    exact optionally_eq hlookup e.isNull_toJson (e.ofJson_toJson h)

theorem VarDecl.varDeclIn_toJson : (d : VarDecl) → d.Writable →
    ∃ fields, d.toJson = .node StmtKind.variableDeclaration.name fields ∧
      varDeclIn StmtKind.variableDeclaration.name
        (("type", .string StmtKind.variableDeclaration.name) :: fields) = .ok d
  | ⟨kind, ds⟩, h => by
    rw [VarDecl.Writable] at h
    refine ⟨_, by rw [VarDecl.toJson], ?_⟩
    rw [varDeclIn, requiredString_eq rfl, requiredItems_eq rfl, mapM_declaratorsToJson ds h, ok_bind,
      VarKind.ofKeyword?_keyword]
    rfl

theorem optionally_initToJson {field : String} {members : List (String × Json)} : (i : Option ForInit) →
    initWritable i → Json.lookup field members = some (initToJson i) →
    optionally field members ForInit.ofJson = .ok i
  | none, _, hlookup => by
    rw [initToJson] at hlookup
    exact optionally_null hlookup
  | some (.var d), h, hlookup => by
    rw [initWritable] at h
    obtain ⟨fields, hjson, hread⟩ := d.varDeclIn_toJson h
    rw [initToJson, hjson] at hlookup
    refine optionally_eq hlookup rfl ?_
    rw [ForInit.ofJson_eq]
    exact congrArg (ForInit.var <$> ·) hread
  | some (.expr e), h, hlookup => by
    rw [initWritable] at h
    have hdecode := e.ofJson_toJson h.1
    obtain ⟨fields, hjson⟩ := e.toJson_eq_node
    rw [initToJson] at hlookup
    refine optionally_eq hlookup e.isNull_toJson ?_
    rw [ForInit.ofJson_eq, hdecode, hjson]
    change (if e.kind = "VariableDeclaration" then _ else _) = _
    rw [if_neg (Expr.kind_ne_of_ne h.2)]
    rfl

/-- Statements are read back, functions inside them included. -/
theorem Stmt.ofJson_toJson : (s : Stmt) → s.Writable → Stmt.ofJson s.toJson = .ok s
  | .var d, h => by
    rw [Stmt.Writable] at h
    obtain ⟨fields, hjson, hread⟩ := d.varDeclIn_toJson h
    rw [Stmt.toJson, hjson, Stmt.ofJson_node, StmtKind.read, hread]
    rfl
  | .function f, h => by
    rw [Stmt.Writable] at h
    rw [Stmt.toJson, Stmt.ofJson_node, StmtKind.read, f.functionIn_toFields h]
    rfl
  | .expr e, h => by
    rw [Stmt.Writable] at h
    rw [Stmt.toJson, Stmt.ofJson_node, StmtKind.read, required_eq rfl, e.ofJson_toJson h]
    rfl
  | .block body, h => by
    rw [Stmt.Writable] at h
    rw [Stmt.toJson, blockJson, Stmt.ofJson_node, StmtKind.read, requiredItems_eq rfl, mapM_stmtsToJson body h]
    rfl
  | .empty, _ => by
    rw [Stmt.toJson, Stmt.ofJson_node, StmtKind.read]
  | .branch t c a, h => by
    rw [Stmt.Writable] at h
    rw [Stmt.toJson, Stmt.ofJson_node, StmtKind.read, required_eq rfl, required_eq rfl, t.ofJson_toJson h.1,
      c.ofJson_toJson h.2.1, optionally_alternateToJson a h.2.2 rfl]
    rfl
  | .whileLoop t b, h => by
    rw [Stmt.Writable] at h
    rw [Stmt.toJson, Stmt.ofJson_node, StmtKind.read, required_eq rfl, required_eq rfl, t.ofJson_toJson h.1,
      b.ofJson_toJson h.2]
    rfl
  | .doWhile b t, h => by
    rw [Stmt.Writable] at h
    rw [Stmt.toJson, Stmt.ofJson_node, StmtKind.read, required_eq rfl, required_eq rfl, b.ofJson_toJson h.1,
      t.ofJson_toJson h.2]
    rfl
  | .forLoop i t u b, h => by
    rw [Stmt.Writable] at h
    rw [Stmt.toJson, Stmt.ofJson_node, StmtKind.read, optionally_initToJson i h.1 rfl,
      optionally_optionalToJson t h.2.1 rfl, optionally_optionalToJson u h.2.2.1 rfl, required_eq rfl,
      b.ofJson_toJson h.2.2.2]
    rfl
  | .jump .exit label, _ => by
    rw [Stmt.toJson, Stmt.ofJson_node, StmtKind.read, optionally_nameIn rfl]
    rfl
  | .jump .next label, _ => by
    rw [Stmt.toJson, Stmt.ofJson_node, StmtKind.read, optionally_nameIn rfl]
    rfl
  | .ret e, h => by
    rw [Stmt.Writable] at h
    rw [Stmt.toJson, Stmt.ofJson_node, StmtKind.read, optionally_optionalToJson e h rfl]
    rfl
  | .labeled label b, h => by
    rw [Stmt.Writable] at h
    rw [Stmt.toJson, Stmt.ofJson_node, StmtKind.read, required_eq rfl, required_eq rfl, nameIn_identifierJson,
      b.ofJson_toJson h]
    rfl
  | .unsupported kind, h => by
    rw [Stmt.Writable] at h
    rw [Stmt.toJson, Stmt.ofJson_unsupported h]

theorem optionally_alternateToJson {field : String} {members : List (String × Json)} : (a : Option Stmt) →
    alternateWritable a → Json.lookup field members = some (alternateToJson a) →
    optionally field members Stmt.ofJson = .ok a
  | none, _, hlookup => by
    rw [alternateToJson] at hlookup
    exact optionally_null hlookup
  | some s, h, hlookup => by
    rw [alternateWritable] at h
    rw [alternateToJson] at hlookup
    exact optionally_eq hlookup s.isNull_toJson (s.ofJson_toJson h)

theorem mapM_stmtsToJson : (body : List Stmt) → stmtsWritable body → (stmtsToJson body).mapM Stmt.ofJson = .ok body
  | [], _ => by
    rw [stmtsToJson]
    rfl
  | s :: ss, h => by
    rw [stmtsWritable] at h
    rw [stmtsToJson, List.mapM_cons, s.ofJson_toJson h.1, mapM_stmtsToJson ss h.2]
    rfl

end

/-- A script may be written as the bare list of its statements. -/
theorem Program.ofJson_array {p : Program} (h : p.Writable) : Program.ofJson (.array (stmtsToJson p.body)) = .ok p := by
  rw [Program.ofJson, mapM_stmtsToJson p.body h]
  rfl

/-- A tree that can be written is read back as it is: a script as an array of statements and as an object with such an
array as its body, and each statement and expression by itself. -/
theorem written_trees_decode :
    (∀ p : Program, p.Writable → Program.ofJson (.array (stmtsToJson p.body)) = .ok p ∧
      Program.ofJson p.toJson = .ok p) ∧
    (∀ s : Stmt, s.Writable → Stmt.ofJson s.toJson = .ok s) ∧
    ∀ e : Expr, e.Writable → Expr.ofJson e.toJson = .ok e :=
  ⟨fun _ h => ⟨Program.ofJson_array h, Program.ofJson_array h⟩, Stmt.ofJson_toJson, Expr.ofJson_toJson⟩

/-- An array of a hole and one half. -/
def sparseArray : Expr := .array [none, some (.literal (.number ⟨0x3FE0000000000000⟩))]

/-- A loop with absent parts. Its unsupported expression goes by a statement's kind and its unsupported statement by an
expression's. -/
def sparseLoop : Stmt :=
  .forLoop (some (.expr sparseArray)) none (some (.unsupported "ForStatement"))
    (.branch (.unsupported "AwaitExpression") (.unsupported "Literal") none)

theorem written_trees_decode_sparse :
    stmtsWritable [sparseLoop] ∧ sparseLoop.Writable ∧ sparseArray.Writable ∧
    Program.ofJson (.array [sparseLoop.toJson]) = .ok ⟨[sparseLoop]⟩ ∧
    Program.ofJson (Program.toJson ⟨[sparseLoop]⟩) = .ok ⟨[sparseLoop]⟩ ∧
    Stmt.ofJson sparseLoop.toJson = .ok sparseLoop ∧ Expr.ofJson sparseArray.toJson = .ok sparseArray := by
  have hexpr : sparseArray.Writable := by
    simp only [sparseArray, Expr.Writable, elementsWritable, and_true]
    exact show Binary64.isFinite _ = true by decide
  have hstmt : sparseLoop.Writable := by
    simp only [sparseLoop, Stmt.Writable, initWritable, optionalWritable, alternateWritable, Expr.Writable]
    exact ⟨⟨hexpr, nofun⟩, trivial, by decide, by decide, by decide, trivial⟩
  have hbody : Program.Writable ⟨[sparseLoop]⟩ := by
    simpa only [Program.Writable, stmtsWritable, and_true] using hstmt
  obtain ⟨hprogram, hstmts, hexprs⟩ := written_trees_decode
  have harray := (hprogram _ hbody).1
  simp only [stmtsToJson] at harray
  exact ⟨hbody, hstmt, hexpr, harray, (hprogram _ hbody).2, hstmts _ hstmt, hexprs _ hexpr⟩

end ScriptSsa
