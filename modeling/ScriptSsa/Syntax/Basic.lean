import ScriptSsa.BuildError
import ScriptSsa.Syntax.Kind
import ScriptSsa.Syntax.Operator

/-!
Syntax trees of scripts.

The tree covers the ECMAScript 5 subset that can be lowered. Any other node is kept as `unsupported` with
its kind, so that lowering it can name what it met.
-/

namespace ScriptSsa

inductive Literal where
  | null
  | bool (value : Bool)
  | number (value : Binary64)
  | string (value : String)
deriving DecidableEq, Inhabited, Repr

inductive VarKind where
  | var | lexical | constant
deriving DecidableEq, Inhabited, Repr

namespace VarKind

def all : List VarKind := [var, lexical, constant]

def keyword : VarKind → String
  | var => "var"
  | lexical => "let"
  | constant => "const"

def ofKeyword? (s : String) : Option VarKind := all.find? fun kind => kind.keyword == s

theorem ofKeyword?_keyword (kind : VarKind) : ofKeyword? kind.keyword = some kind := by
  cases kind <;> decide

end VarKind

inductive PropertyKind where
  | init | getter | setter
deriving DecidableEq, Inhabited, Repr

namespace PropertyKind

def all : List PropertyKind := [init, getter, setter]

def keyword : PropertyKind → String
  | init => "init"
  | getter => "get"
  | setter => "set"

def ofKeyword? (s : String) : Option PropertyKind := all.find? fun kind => kind.keyword == s

theorem ofKeyword?_keyword (kind : PropertyKind) : ofKeyword? kind.keyword = some kind := by
  cases kind <;> decide

end PropertyKind

mutual

inductive Expr where
  | ident (name : String)
  | literal (value : Literal)
  | this
  /-- An absent element is a hole. -/
  | array (elements : List (Option Expr))
  | object (properties : List Property)
  | function (function : Function)
  | unary (op : UnaryOp) (argument : Expr)
  | update (op : UpdateOp) (isPrefix : Bool) (argument : Expr)
  | binary (op : BinaryOp) (left right : Expr)
  | logical (op : LogicalOp) (left right : Expr)
  | assign (op : AssignOp) (left right : Expr)
  | conditional (test consequent alternate : Expr)
  | sequence (expressions : List Expr)
  /-- `object.property`, or `object[property]` when computed. -/
  | member (object property : Expr) (computed : Bool)
  | call (callee : Expr) (arguments : List Expr)
  | new (callee : Expr) (arguments : List Expr)
  | unsupported (kind : String)

inductive Stmt where
  | var (declaration : VarDecl)
  | function (function : Function)
  | expr (expression : Expr)
  | block (body : List Stmt)
  | empty
  | branch (test : Expr) (consequent : Stmt) (alternate : Option Stmt)
  | whileLoop (test : Expr) (body : Stmt)
  | doWhile (body : Stmt) (test : Expr)
  | forLoop (init : Option ForInit) (test update : Option Expr) (body : Stmt)
  | jump (jump : Jump) (label : Option String)
  | ret (argument : Option Expr)
  | labeled (label : String) (body : Stmt)
  | unsupported (kind : String)

/-- A function declaration or a function expression. -/
structure Function where
  /-- The own name, which stands for the function inside its body. -/
  name : Option String
  /-- Parameter patterns, of which only identifiers are lowered. -/
  params : List Expr
  body : List Stmt
  isGenerator : Bool
  isAsync : Bool

structure Property where
  key : Expr
  value : Expr
  kind : PropertyKind
  computed : Bool

structure Declarator where
  target : Expr
  init : Option Expr

structure VarDecl where
  kind : VarKind
  declarators : List Declarator

inductive ForInit where
  | var (declaration : VarDecl)
  | expr (expression : Expr)

end

/-- A script: the body of the top-level function. -/
structure Program where
  body : List Stmt

instance : Inhabited Expr := ⟨.this⟩
instance : Inhabited Stmt := ⟨.empty⟩

/-- The kind of a statement; for an unsupported one, the kind it was met with. -/
def Stmt.kind : Stmt → String
  | var _ => StmtKind.variableDeclaration.name
  | function _ => StmtKind.functionDeclaration.name
  | expr _ => StmtKind.expressionStatement.name
  | block _ => StmtKind.blockStatement.name
  | empty => StmtKind.emptyStatement.name
  | branch _ _ _ => StmtKind.ifStatement.name
  | whileLoop _ _ => StmtKind.whileStatement.name
  | doWhile _ _ => StmtKind.doWhileStatement.name
  | forLoop _ _ _ _ => StmtKind.forStatement.name
  | jump .exit _ => StmtKind.breakStatement.name
  | jump .next _ => StmtKind.continueStatement.name
  | ret _ => StmtKind.returnStatement.name
  | labeled _ _ => StmtKind.labeledStatement.name
  | unsupported kind => kind

/-- The kind of an expression; for an unsupported one, the kind it was met with. -/
def Expr.kind : Expr → String
  | ident _ => ExprKind.identifier.name
  | literal _ => ExprKind.literal.name
  | this => ExprKind.thisExpression.name
  | array _ => ExprKind.arrayExpression.name
  | object _ => ExprKind.objectExpression.name
  | function _ => ExprKind.functionExpression.name
  | unary _ _ => ExprKind.unaryExpression.name
  | update _ _ _ => ExprKind.updateExpression.name
  | binary _ _ _ => ExprKind.binaryExpression.name
  | logical _ _ _ => ExprKind.logicalExpression.name
  | assign _ _ _ => ExprKind.assignmentExpression.name
  | conditional _ _ _ => ExprKind.conditionalExpression.name
  | sequence _ => ExprKind.sequenceExpression.name
  | member _ _ _ => ExprKind.memberExpression.name
  | call _ _ => ExprKind.callExpression.name
  | new _ _ => ExprKind.newExpression.name
  | unsupported kind => kind

/-- The name of an identifier. -/
def Expr.ident? : Expr → Option String
  | ident name => some name
  | _ => none

/-! Short forms for trees that are built by hand. -/

/-- The property access `object.name`. -/
def Expr.dot (object : Expr) (name : String) : Expr := member object (ident name) false

/-- The property `key: value`. -/
def Property.plain (key value : Expr) : Property := ⟨key, value, .init, false⟩

/-- An ordinary function with identifier parameters. -/
def Function.plain (name : Option String) (params : List String) (body : List Stmt) : Function :=
  ⟨name, params.map Expr.ident, body, false, false⟩

/-- The declaration `var name = init`. -/
def VarDecl.plain (name : String) (init : Option Expr) : VarDecl := ⟨.var, [⟨.ident name, init⟩]⟩

end ScriptSsa
