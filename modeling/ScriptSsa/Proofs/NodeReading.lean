import ScriptSsa.ESTree.Decoder

/-!
What decoding reads of a node.

The decoder goes down the tree by way of children that carry the proof that they are smaller. Seen from outside, each
access to a field is a look-up among the node's members, and what is decoded from the field is decoded from the value
found there. `ExprKind.read` and `StmtKind.read` say so for each kind of node, and decoding is reading by kind.
-/

namespace ScriptSsa

open ESTree

namespace Json

/-- The value of a member that is there and is not null. -/
def present? (key : String) (members : List (String × Json)) : Option Json :=
  (lookup key members).filter fun c => !c.isNull

/-- The type of the object with the given members. -/
def kind? (members : List (String × Json)) : Option String := (lookup "type" members).bind string?

/-- The items of an array. -/
def items? : Json → Option (List Json)
  | array items => some items
  | _ => none

/-- A list of children comes with proofs that they are smaller; without these it is the list itself. -/
theorem map_val_children? (v : Json) : v.children?.map (List.map Subtype.val) = v.items? := by
  cases v with
  | array items =>
      simp only [children?, items?, Option.map_some, List.map_map]
      exact congrArg some (List.attach_map_subtype_val items)
  | _ => rfl

end Json

/-! Fields, by look-up. -/

namespace ESTree

theorem ok_bind {α β : Type} (a : α) (f : α → Except DecodeError β) : (Except.ok a >>= f) = f a := rfl

variable {α : Type} (kind field : String) (members : List (String × Json))

/-- A field that must be there, read by `read`. -/
def required (read : Json → Except DecodeError α) : Except DecodeError α :=
  match Json.lookup field members with
  | some c => read c
  | none => .error (.missingField kind field)

/-- A field that may be absent or null, read by `read`. -/
def optionally (read : Json → Except DecodeError α) : Except DecodeError (Option α) :=
  match Json.present? field members with
  | some c => some <$> read c
  | none => .ok none

/-- The items in the value of a field, read by `read`. -/
def itemsIn (read : List Json → Except DecodeError α) (v : Json) : Except DecodeError α :=
  match v.items? with
  | some items => read items
  | none => .error (.invalidField kind field)

def requiredItems (read : List Json → Except DecodeError α) : Except DecodeError α :=
  required kind field members (itemsIn kind field read)

/-- The string in the value of a field. -/
def stringIn (v : Json) : Except DecodeError String :=
  match v.string? with
  | some s => .ok s
  | none => .error (.invalidField kind field)

def requiredString : Except DecodeError String := required kind field members (stringIn kind field)

/-- A flag, false when it is absent or null. -/
def flagIn : Except DecodeError Bool :=
  match Json.present? field members with
  | some c =>
    match c.bool? with
    | some b => .ok b
    | none => .error (.invalidField kind field)
  | none => .ok false

/-- The name in the value of a field that holds an identifier. -/
def nameIn (v : Json) : Except DecodeError String := do
  let inner ← Node.ofJson v
  if inner.kind = "Identifier" then requiredString inner.kind "name" inner.members
  else .error (.invalidField kind field)

namespace Node

/-- What is a node depends on its `type` alone. -/
theorem ofJson_object : ofJson (.object members) =
    match Json.kind? members with
    | some kind => .ok ⟨kind, members, rfl⟩
    | none => .error .notANode := rfl

variable {v : Json} (node : Node v)

/-- A field is found by look-up; where a key stands twice, both find the same member. -/
theorem map_val_get? : (node.get? field).map Subtype.val = Json.lookup field node.members := by
  unfold get?
  split
  · next h => exact h.symm
  · next h => exact h.symm

/-- A missing field is an error before anything is read of it. -/
theorem field_bind (read : Json → Except DecodeError α) :
    (node.field field >>= fun c => read c.val) = required node.kind field node.members read := by
  rw [required, ← map_val_get?, Node.field]
  cases node.get? field <;> rfl

/-- A field that is `null` counts as absent. -/
theorem map_val_optional : (node.optional field).map Subtype.val = Json.present? field node.members := by
  rw [optional, Json.present?, ← map_val_get?]
  cases node.get? field with
  | none => rfl
  | some c =>
      simp only [Option.map_some, Option.filter_some]
      split <;> rfl

/-- What is read of the items does not see the proofs that come with them. -/
theorem array_bind (read : List Json → Except DecodeError α) :
    (node.array field >>= fun items => read (items.map Subtype.val)) =
      requiredItems node.kind field node.members read := by
  rw [requiredItems, ← field_bind, array, bind_assoc]
  congr 1
  funext c
  rw [itemsIn, ← Json.map_val_children?]
  cases c.val.children? with
  | none => rfl
  | some items =>
      simp only [Option.map_some]
      change read (List.map _ _) = _
      rw [List.map_map]
      rfl

/-- Items are read in order, and the first that fails ends the reading. -/
theorem array_mapM (read : Json → Except DecodeError α) :
    (node.array field >>= fun items => items.mapM fun c => read c.val) =
      requiredItems node.kind field node.members (List.mapM read) := by
  rw [← array_bind]
  congr 1
  funext items
  rw [List.mapM_map]
  rfl

theorem string_eq : node.string field = requiredString node.kind field node.members := by
  rw [requiredString, ← field_bind, string]
  rfl

theorem flag_eq : node.flag field = flagIn node.kind field node.members := by
  rw [flag, flagIn, ← map_val_optional]
  cases node.optional field <;> rfl

/-- A name is the `name` of an `Identifier`, and of nothing else. -/
theorem identifier_eq :
    node.identifier field = required node.kind field node.members (nameIn node.kind field) := by
  simp only [← field_bind, identifier, nameIn, string_eq]
  rfl

/-- An absent name is no error, a wrong one is. -/
theorem optionalIdentifier_eq :
    node.optionalIdentifier field = optionally field node.members (nameIn node.kind field) := by
  have hpresent := node.map_val_optional field
  rw [optionalIdentifier, optionally]
  cases hoptional : node.optional field with
  | none =>
      rw [hoptional] at hpresent
      rw [← hpresent]
      rfl
  | some c =>
      rw [hoptional] at hpresent
      have hlookup : Json.lookup field node.members = some c.val := (Option.filter_eq_some_iff.mp hpresent.symm).1
      rw [← hpresent]
      simp only [Option.map_some, identifier_eq, required, hlookup]

/-- From here on a field and a node in it are read in one step, so that no proof of size is left. -/
theorem expr_eq : node.expr field = required node.kind field node.members Expr.ofJson := by
  rw [← field_bind, expr]

theorem optionalExpr_eq : node.optionalExpr field = optionally field node.members Expr.ofJson := by
  rw [optionally, ← map_val_optional, optionalExpr]
  cases node.optional field <;> rfl

theorem exprs_eq : node.exprs field = requiredItems node.kind field node.members (List.mapM Expr.ofJson) := by
  rw [← array_mapM, exprs]

theorem stmt_eq : node.stmt field = required node.kind field node.members Stmt.ofJson := by
  rw [← field_bind, stmt]

theorem optionalStmt_eq : node.optionalStmt field = optionally field node.members Stmt.ofJson := by
  rw [optionally, ← map_val_optional, optionalStmt]
  cases node.optional field <;> rfl

theorem stmts_eq : node.stmts field = requiredItems node.kind field node.members (List.mapM Stmt.ofJson) := by
  rw [← array_mapM, stmts]

theorem forInit_eq : node.forInit field = optionally field node.members ForInit.ofJson := by
  rw [optionally, ← map_val_optional, forInit]
  cases node.optional field <;> rfl

end Node

end ESTree

/-! Nodes, by kind. -/

namespace ESTree

variable (kind : String) (members : List (String × Json))

def literalIn : Except DecodeError Expr :=
  if (Json.present? "regex" members).isSome then .ok (.unsupported (kind ++ "(" ++ "regex" ++ ")"))
  else
    match Json.present? "value" members with
    | none | some .null => .ok (.literal .null)
    | some (.bool b) => .ok (.literal (.bool b))
    | some (.number x) => .ok (.literal (.number x))
    | some (.string s) => .ok (.literal (.string s))
    | some (.object _) => .ok (.unsupported (kind ++ "(" ++ "regex" ++ ")"))
    | some (.array _) => .error (.invalidField kind "value")

/-- An item of an array literal, where null is a hole. -/
def elementIn (v : Json) : Except DecodeError (Option Expr) :=
  if v.isNull then .ok none else some <$> Expr.ofJson v

/-- The object literal with the given entries. -/
def objectIn (entries : List Json) : Except DecodeError Expr :=
  match entries.findSome? foreignKind? with
  | some entry => Expr.unsupported <$> entry
  | none => Expr.object <$> entries.mapM Property.ofJson

/-- An operator and what it is applied to. An operator outside the subset gives an unsupported node. -/
def operationIn {Op : Type} (ofSymbol? : String → Option Op) (apply : Op → Except DecodeError Expr) :
    Except DecodeError Expr := do
  let symbol ← requiredString kind "operator" members
  match ofSymbol? symbol with
  | some op => apply op
  | none => return .unsupported (kind ++ "(" ++ symbol ++ ")")

/-- The kind of a block and the statements in it. -/
def blockIn (v : Json) : Except DecodeError (String × Except DecodeError (List Stmt)) := do
  let block ← Node.ofJson v
  return (block.kind, requiredItems block.kind "body" block.members (List.mapM Stmt.ofJson))

def functionIn : Except DecodeError Function := do
  let (blockKind, stmts) ← required kind "body" members blockIn
  if blockKind = "BlockStatement" then
    let name ← optionally "id" members (nameIn kind "id")
    let params ← requiredItems kind "params" members (List.mapM Expr.ofJson)
    let body ← stmts
    let isGenerator ← flagIn kind "generator" members
    return ⟨name, params, body, isGenerator, ← flagIn kind "async" members⟩
  else .error (.invalidField kind "body")

def varDeclIn : Except DecodeError VarDecl := do
  let keyword ← requiredString kind "kind" members
  match VarKind.ofKeyword? keyword with
  | some varKind => VarDecl.mk varKind <$> requiredItems kind "declarations" members (List.mapM Declarator.ofJson)
  | none => .error (.invalidField kind "kind")

def propertyIn : Except DecodeError Property :=
  if kind = "Property" then
    match PropertyKind.ofKeyword? (((Json.present? "kind" members).bind Json.string?).getD "init") with
    | some propertyKind => do
      let key ← required kind "key" members Expr.ofJson
      let value ← required kind "value" members Expr.ofJson
      return ⟨key, value, propertyKind, ← flagIn kind "computed" members⟩
    | none => .error (.invalidField kind "kind")
  else .error (.invalidField kind "type")

def declaratorIn : Except DecodeError Declarator := do
  return ⟨← required kind "id" members Expr.ofJson, ← optionally "init" members Expr.ofJson⟩

end ESTree

def ExprKind.read (kind : String) (members : List (String × Json)) : ExprKind → Except DecodeError Expr
  | identifier => Expr.ident <$> requiredString kind "name" members
  | literal => literalIn kind members
  | thisExpression => .ok .this
  | arrayExpression => Expr.array <$> requiredItems kind "elements" members (List.mapM elementIn)
  | objectExpression => requiredItems kind "properties" members objectIn
  | functionExpression => Expr.function <$> functionIn kind members
  | unaryExpression => operationIn kind members UnaryOp.ofSymbol? fun op =>
    return .unary op (← required kind "argument" members Expr.ofJson)
  | updateExpression => operationIn kind members UpdateOp.ofSymbol? fun op =>
    return .update op (← flagIn kind "prefix" members) (← required kind "argument" members Expr.ofJson)
  | binaryExpression => operationIn kind members BinaryOp.ofSymbol? fun op =>
    return .binary op (← required kind "left" members Expr.ofJson) (← required kind "right" members Expr.ofJson)
  | logicalExpression => operationIn kind members LogicalOp.ofSymbol? fun op =>
    return .logical op (← required kind "left" members Expr.ofJson) (← required kind "right" members Expr.ofJson)
  | assignmentExpression => operationIn kind members AssignOp.ofSymbol? fun op =>
    return .assign op (← required kind "left" members Expr.ofJson) (← required kind "right" members Expr.ofJson)
  | conditionalExpression => do
    return .conditional (← required kind "test" members Expr.ofJson) (← required kind "consequent" members Expr.ofJson)
      (← required kind "alternate" members Expr.ofJson)
  | sequenceExpression => Expr.sequence <$> requiredItems kind "expressions" members (List.mapM Expr.ofJson)
  | memberExpression => do
    return .member (← required kind "object" members Expr.ofJson) (← required kind "property" members Expr.ofJson)
      (← flagIn kind "computed" members)
  | callExpression => do
    return .call (← required kind "callee" members Expr.ofJson)
      (← requiredItems kind "arguments" members (List.mapM Expr.ofJson))
  | newExpression => do
    return .new (← required kind "callee" members Expr.ofJson)
      (← requiredItems kind "arguments" members (List.mapM Expr.ofJson))

def StmtKind.read (kind : String) (members : List (String × Json)) : StmtKind → Except DecodeError Stmt
  | variableDeclaration => Stmt.var <$> varDeclIn kind members
  | functionDeclaration => Stmt.function <$> functionIn kind members
  | expressionStatement => Stmt.expr <$> required kind "expression" members Expr.ofJson
  | blockStatement => Stmt.block <$> requiredItems kind "body" members (List.mapM Stmt.ofJson)
  | emptyStatement => .ok .empty
  | ifStatement => do
    return .branch (← required kind "test" members Expr.ofJson) (← required kind "consequent" members Stmt.ofJson)
      (← optionally "alternate" members Stmt.ofJson)
  | whileStatement => do
    return .whileLoop (← required kind "test" members Expr.ofJson) (← required kind "body" members Stmt.ofJson)
  | doWhileStatement => do
    return .doWhile (← required kind "body" members Stmt.ofJson) (← required kind "test" members Expr.ofJson)
  | forStatement => do
    return .forLoop (← optionally "init" members ForInit.ofJson) (← optionally "test" members Expr.ofJson)
      (← optionally "update" members Expr.ofJson) (← required kind "body" members Stmt.ofJson)
  | breakStatement => Stmt.jump .exit <$> optionally "label" members (nameIn kind "label")
  | continueStatement => Stmt.jump .next <$> optionally "label" members (nameIn kind "label")
  | returnStatement => Stmt.ret <$> optionally "argument" members Expr.ofJson
  | labeledStatement => do
    return .labeled (← required kind "label" members (nameIn kind "label")) (← required kind "body" members Stmt.ofJson)

/-! Decoding is reading by kind. -/

namespace ESTree.Node

variable {v : Json} (node : Node v)

/-- The kind of the body is looked at before anything else of the function is read. -/
theorem function_eq : node.function = functionIn node.kind node.members := by
  rw [function]
  simp only [optionalIdentifier_eq, exprs_eq, stmts_eq, flag_eq]
  rw [functionIn, ← field_bind, bind_assoc]
  congr 1
  funext c
  rw [blockIn, bind_assoc]
  rfl

/-- The keyword decides whether the declarators are read at all. -/
theorem varDecl_eq : node.varDecl = varDeclIn node.kind node.members := by
  rw [varDecl, varDeclIn, varKind, string_eq, bind_assoc]
  congr 1
  funext keyword
  cases VarKind.ofKeyword? keyword with
  | none => rfl
  | some kind =>
      simp only [← array_mapM, map_bind, bind_pure_comp]
      rfl

end ESTree.Node

/-- An expression is read by its kind, and a kind that is not known makes an unsupported expression, not an error. -/
theorem Expr.ofJson_eq (v : Json) : Expr.ofJson v = Node.ofJson v >>= fun node =>
    match ExprKind.ofName? node.kind with
    | some exprKind => exprKind.read node.kind node.members
    | none => .ok (.unsupported node.kind) := by
  rw [Expr.ofJson]
  congr 1
  funext node
  cases ExprKind.ofName? node.kind with
  | none => rfl
  | some kind =>
      cases kind with
      | literal =>
          simp only [ExprKind.read, literalIn, Node.literal?, Node.map_val_get?]
          rw [← Node.map_val_optional, Option.isSome_map, Json.present?]
          split
          · rfl
          · cases Json.lookup "value" node.members with
            | none => rfl
            | some c => cases c <;> rfl
      | arrayExpression =>
          simp only [ExprKind.read, ← Node.array_mapM, map_bind, bind_pure_comp]
          rfl
      | objectExpression =>
          simp only [ExprKind.read, ← Node.array_bind]
          congr 1
          funext entries
          rw [objectIn, List.findSome?_map, List.mapM_map]
          simp only [bind_pure_comp]
          rfl
      | unaryExpression | updateExpression | binaryExpression | logicalExpression | assignmentExpression =>
          simp only [Node.string_eq, Node.flag_eq, Node.expr_eq, ExprKind.read, operationIn, Node.unsupported,
            bind_pure_comp]
          congr 1
          funext symbol
          split <;> rename_i h <;> simp only [h]
      | thisExpression => rfl
      | _ =>
          simp only [Node.string_eq, Node.flag_eq, Node.expr_eq, Node.exprs_eq, Node.function_eq, ExprKind.read,
            bind_pure_comp]

/-- The same holds of statements. -/
theorem Stmt.ofJson_eq (v : Json) : Stmt.ofJson v = Node.ofJson v >>= fun node =>
    match StmtKind.ofName? node.kind with
    | some stmtKind => stmtKind.read node.kind node.members
    | none => .ok (.unsupported node.kind) := by
  rw [Stmt.ofJson]
  congr 1
  funext node
  cases StmtKind.ofName? node.kind with
  | none => rfl
  | some kind =>
      cases kind with
      | emptyStatement => rfl
      | _ =>
          simp only [Node.expr_eq, Node.optionalExpr_eq, Node.stmt_eq, Node.optionalStmt_eq, Node.stmts_eq,
            Node.forInit_eq, Node.varDecl_eq, Node.function_eq, Node.identifier_eq, Node.optionalIdentifier_eq,
            StmtKind.read, bind_pure_comp]

theorem Property.ofJson_eq (v : Json) :
    Property.ofJson v = Node.ofJson v >>= fun node => propertyIn node.kind node.members := by
  rw [Property.ofJson]
  congr 1
  funext node
  simp only [Node.propertyKind, propertyIn, ← Node.map_val_optional, Option.bind_map, Function.comp_def, Node.expr_eq,
    Node.flag_eq]
  split
  · cases PropertyKind.ofKeyword? (((node.optional "kind").bind fun c => c.val.string?).getD "init") <;> rfl
  · rfl

theorem Declarator.ofJson_eq (v : Json) :
    Declarator.ofJson v = Node.ofJson v >>= fun node => declaratorIn node.kind node.members := by
  simp only [Declarator.ofJson, Node.expr_eq, Node.optionalExpr_eq]
  rfl

/-- What is no declaration in the head of a loop is read as an expression. -/
theorem ForInit.ofJson_eq (v : Json) : ForInit.ofJson v = Node.ofJson v >>= fun node =>
    if node.kind = "VariableDeclaration" then ForInit.var <$> varDeclIn node.kind node.members
    else ForInit.expr <$> Expr.ofJson v := by
  simp only [ForInit.ofJson, Node.varDecl_eq, bind_pure_comp]

/-- Any object with a `body` is read as a script, whatever its kind. -/
theorem Program.ofJson_object (members : List (String × Json)) : Program.ofJson (.object members) =
    Program.mk <$> requiredItems ((Json.kind? members).getD "<untyped>") "body" members (List.mapM Stmt.ofJson) := by
  rw [Program.ofJson, requiredItems, required]
  cases Json.lookup "body" members with
  | none => rfl
  | some body => cases body <;> rfl

end ScriptSsa
