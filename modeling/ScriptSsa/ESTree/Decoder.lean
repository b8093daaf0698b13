import ScriptSsa.ESTree.Node
import ScriptSsa.Json.Reader
import ScriptSsa.Syntax.Basic

/-!
Decoding of ESTree JSON into syntax trees.

A node is read by its `type`. A type outside the subset, and an operator outside it, give an unsupported
node; a supported node that lacks a field, or has one of the wrong shape, is an error. Fields are read in
a fixed order, and the first error is the one reported.
-/

namespace ScriptSsa

open ESTree

namespace ESTree

/-- The literal in a node, or `none` for a regular expression. -/
def Node.literal? {v : Json} (node : Node v) : Except DecodeError (Option Literal) :=
  if (node.optional "regex").isSome then .ok none
  else
    match (node.get? "value").map Subtype.val with
    | none => .ok (some .null)
    | some .null => .ok (some .null)
    | some (.bool b) => .ok (some (.bool b))
    | some (.number x) => .ok (some (.number x))
    | some (.string s) => .ok (some (.string s))
    -- A regular expression's value may be written as an empty object.
    | some (.object _) => .ok none
    | some (.array _) => .error (node.invalid "value")

def Node.varKind {v : Json} (node : Node v) : Except DecodeError VarKind := do
  match VarKind.ofKeyword? (← node.string "kind") with
  | some kind => .ok kind
  | none => .error (node.invalid "kind")

/-- The kind of a property, `init` when it is not given as a string. -/
def Node.propertyKind {v : Json} (node : Node v) : Except DecodeError PropertyKind :=
  match PropertyKind.ofKeyword? (((node.optional "kind").bind (·.val.string?)).getD "init") with
  | some kind => .ok kind
  | none => .error (node.invalid "kind")

/-- What an entry of an object literal is, unless it is a property. -/
def foreignKind? (v : Json) : Option (Except DecodeError String) :=
  match Node.ofJson v with
  | .error e => some (.error e)
  | .ok node => if node.kind = "Property" then none else some (.ok node.kind)

/-- A node of a known type with a detail that is not known. -/
def Node.unsupported {v : Json} (node : Node v) (detail : String) : Expr :=
  .unsupported (node.kind ++ "(" ++ detail ++ ")")

end ESTree

mutual

def Expr.ofJson (v : Json) : Except DecodeError Expr := do
  let node ← Node.ofJson v
  match ExprKind.ofName? node.kind with
  | none => return .unsupported node.kind
  | some .identifier => return .ident (← node.string "name")
  | some .literal =>
    match ← node.literal? with
    | some l => return .literal l
    | none => return node.unsupported "regex"
  | some .thisExpression => return .this
  | some .arrayExpression =>
    let items ← node.array "elements"
    return .array (← items.mapM fun c =>
      if c.val.isNull then pure none else some <$> Expr.ofJson c.val)
  | some .objectExpression =>
    let entries ← node.array "properties"
    -- One entry that is not a property, such as a spread, makes the whole literal unsupported.
    match entries.findSome? fun c => foreignKind? c.val with
    | some entry => return .unsupported (← entry)
    | none => return .object (← entries.mapM fun c => Property.ofJson c.val)
  | some .functionExpression => return .function (← node.function)
  | some .unaryExpression =>
    let symbol ← node.string "operator"
    match UnaryOp.ofSymbol? symbol with
    | some op => return .unary op (← node.expr "argument")
    | none => return node.unsupported symbol
  | some .updateExpression =>
    let symbol ← node.string "operator"
    match UpdateOp.ofSymbol? symbol with
    | some op => return .update op (← node.flag "prefix") (← node.expr "argument")
    | none => return node.unsupported symbol
  | some .binaryExpression =>
    let symbol ← node.string "operator"
    match BinaryOp.ofSymbol? symbol with
    | some op => return .binary op (← node.expr "left") (← node.expr "right")
    | none => return node.unsupported symbol
  | some .logicalExpression =>
    let symbol ← node.string "operator"
    match LogicalOp.ofSymbol? symbol with
    | some op => return .logical op (← node.expr "left") (← node.expr "right")
    | none => return node.unsupported symbol
  | some .assignmentExpression =>
    let symbol ← node.string "operator"
    match AssignOp.ofSymbol? symbol with
    | some op => return .assign op (← node.expr "left") (← node.expr "right")
    | none => return node.unsupported symbol
  | some .conditionalExpression =>
    return .conditional (← node.expr "test") (← node.expr "consequent") (← node.expr "alternate")
  | some .sequenceExpression => return .sequence (← node.exprs "expressions")
  | some .memberExpression =>
    return .member (← node.expr "object") (← node.expr "property") (← node.flag "computed")
  | some .callExpression => return .call (← node.expr "callee") (← node.exprs "arguments")
  | some .newExpression => return .new (← node.expr "callee") (← node.exprs "arguments")
termination_by (sizeOf v, 2)

/-- The expression in a field. -/
def ESTree.Node.expr {v : Json} (node : Node v) (field : String) : Except DecodeError Expr := do
  let c ← node.field field
  Expr.ofJson c.val
termination_by (sizeOf v, 0)

/-- The expression in a field that may be absent or null. -/
def ESTree.Node.optionalExpr {v : Json} (node : Node v) (field : String) :
    Except DecodeError (Option Expr) :=
  match node.optional field with
  | none => return none
  | some c => return some (← Expr.ofJson c.val)
termination_by (sizeOf v, 0)

/-- The expressions in an array field. -/
def ESTree.Node.exprs {v : Json} (node : Node v) (field : String) :
    Except DecodeError (List Expr) := do
  let items ← node.array field
  items.mapM fun c => Expr.ofJson c.val
termination_by (sizeOf v, 0)

def Property.ofJson (v : Json) : Except DecodeError Property := do
  let node ← Node.ofJson v
  if node.kind = "Property" then
    let kind ← node.propertyKind
    let key ← node.expr "key"
    let value ← node.expr "value"
    return ⟨key, value, kind, ← node.flag "computed"⟩
  else .error (node.invalid "type")
termination_by (sizeOf v, 2)

/-- The function that a declaration or an expression describes. Its body must be a block. -/
def ESTree.Node.function {v : Json} (node : Node v) : Except DecodeError Function := do
  let b ← node.field "body"
  let block ← Node.ofJson b.val
  if block.kind = "BlockStatement" then
    let name ← node.optionalIdentifier "id"
    let params ← node.exprs "params"
    let body ← block.stmts "body"
    let isGenerator ← node.flag "generator"
    return ⟨name, params, body, isGenerator, ← node.flag "async"⟩
  else .error (node.invalid "body")
termination_by (sizeOf v, 1)

def Declarator.ofJson (v : Json) : Except DecodeError Declarator := do
  let node ← Node.ofJson v
  return ⟨← node.expr "id", ← node.optionalExpr "init"⟩
termination_by (sizeOf v, 2)

def ESTree.Node.varDecl {v : Json} (node : Node v) : Except DecodeError VarDecl := do
  let kind ← node.varKind
  let items ← node.array "declarations"
  return ⟨kind, ← items.mapM fun c => Declarator.ofJson c.val⟩
termination_by (sizeOf v, 0)

def ForInit.ofJson (v : Json) : Except DecodeError ForInit := do
  let node ← Node.ofJson v
  if node.kind = "VariableDeclaration" then return .var (← node.varDecl)
  else return .expr (← Expr.ofJson v)
termination_by (sizeOf v, 3)

/-- The initializer of a `for` loop. -/
def ESTree.Node.forInit {v : Json} (node : Node v) (field : String) :
    Except DecodeError (Option ForInit) :=
  match node.optional field with
  | none => return none
  | some c => return some (← ForInit.ofJson c.val)
termination_by (sizeOf v, 0)

def Stmt.ofJson (v : Json) : Except DecodeError Stmt := do
  let node ← Node.ofJson v
  match StmtKind.ofName? node.kind with
  | none => return .unsupported node.kind
  | some .variableDeclaration => return .var (← node.varDecl)
  | some .functionDeclaration => return .function (← node.function)
  | some .expressionStatement => return .expr (← node.expr "expression")
  | some .blockStatement => return .block (← node.stmts "body")
  | some .emptyStatement => return .empty
  | some .ifStatement =>
    return .branch (← node.expr "test") (← node.stmt "consequent") (← node.optionalStmt "alternate")
  | some .whileStatement => return .whileLoop (← node.expr "test") (← node.stmt "body")
  | some .doWhileStatement => return .doWhile (← node.stmt "body") (← node.expr "test")
  | some .forStatement =>
    return .forLoop (← node.forInit "init") (← node.optionalExpr "test")
      (← node.optionalExpr "update") (← node.stmt "body")
  | some .breakStatement => return .jump .exit (← node.optionalIdentifier "label")
  | some .continueStatement => return .jump .next (← node.optionalIdentifier "label")
  | some .returnStatement => return .ret (← node.optionalExpr "argument")
  | some .labeledStatement => return .labeled (← node.identifier "label") (← node.stmt "body")
termination_by (sizeOf v, 2)

/-- The statement in a field. -/
def ESTree.Node.stmt {v : Json} (node : Node v) (field : String) : Except DecodeError Stmt := do
  let c ← node.field field
  Stmt.ofJson c.val
termination_by (sizeOf v, 0)

/-- The statement in a field that may be absent or null. -/
def ESTree.Node.optionalStmt {v : Json} (node : Node v) (field : String) :
    Except DecodeError (Option Stmt) :=
  match node.optional field with
  | none => return none
  | some c => return some (← Stmt.ofJson c.val)
termination_by (sizeOf v, 0)

/-- The statements in an array field. -/
def ESTree.Node.stmts {v : Json} (node : Node v) (field : String) :
    Except DecodeError (List Stmt) := do
  let items ← node.array field
  items.mapM fun c => Stmt.ofJson c.val
termination_by (sizeOf v, 0)

end

/-- The script in a JSON value: an array of statements, or an object with such an array as `body`. -/
def Program.ofJson (v : Json) : Except DecodeError Program :=
  match v with
  | .array items => return ⟨← items.mapM Stmt.ofJson⟩
  | .object members =>
    let kind := ((Json.lookup "type" members).bind Json.string?).getD "<untyped>"
    match Json.lookup "body" members with
    | some (.array items) => return ⟨← items.mapM Stmt.ofJson⟩
    | some _ => .error (.invalidField kind "body")
    | none => .error (.missingField kind "body")
  | _ => .error .notANode

/-- The script in a JSON text. -/
def Program.ofText (text : String) : Except DecodeError Program :=
  match Json.parse? text with
  | some v => Program.ofJson v
  | none => .error .malformed

/-- Decodes the value at the start of a text. What stands after it is looked at last, so an error in the
tree comes before one behind it. -/
def ESTree.decodeText {α : Type} (decode : Json → Except DecodeError α) (text : String) :
    Except DecodeError α :=
  match Json.read? text with
  | none => .error .malformed
  | some (v, rest) => do
    let tree ← decode v
    if Json.isEnd rest then return tree else .error .malformed

end ScriptSsa
