/-!
The kinds of syntax nodes, by the names that ESTree gives them.
-/

namespace ScriptSsa

inductive StmtKind where
  | variableDeclaration | functionDeclaration | expressionStatement | blockStatement | emptyStatement
  | ifStatement | whileStatement | doWhileStatement | forStatement
  | breakStatement | continueStatement | returnStatement | labeledStatement
deriving DecidableEq, Inhabited, Repr

namespace StmtKind

/-- Every kind of statement, once. -/
def all : List StmtKind :=
  [variableDeclaration, functionDeclaration, expressionStatement, blockStatement, emptyStatement,
    ifStatement, whileStatement, doWhileStatement, forStatement, breakStatement, continueStatement,
    returnStatement, labeledStatement]

def name : StmtKind → String
  | variableDeclaration => "VariableDeclaration"
  | functionDeclaration => "FunctionDeclaration"
  | expressionStatement => "ExpressionStatement"
  | blockStatement => "BlockStatement"
  | emptyStatement => "EmptyStatement"
  | ifStatement => "IfStatement"
  | whileStatement => "WhileStatement"
  | doWhileStatement => "DoWhileStatement"
  | forStatement => "ForStatement"
  | breakStatement => "BreakStatement"
  | continueStatement => "ContinueStatement"
  | returnStatement => "ReturnStatement"
  | labeledStatement => "LabeledStatement"

def ofName? (s : String) : Option StmtKind := all.find? fun kind => kind.name == s

theorem ofName?_name (kind : StmtKind) : ofName? kind.name = some kind := by
  cases kind <;> decide

end StmtKind

inductive ExprKind where
  | identifier | literal | thisExpression | arrayExpression | objectExpression | functionExpression
  | unaryExpression | updateExpression | binaryExpression | logicalExpression | assignmentExpression
  | conditionalExpression | sequenceExpression | memberExpression | callExpression | newExpression
deriving DecidableEq, Inhabited, Repr

namespace ExprKind

/-- Every kind of expression, once. -/
def all : List ExprKind :=
  [identifier, literal, thisExpression, arrayExpression, objectExpression, functionExpression,
    unaryExpression, updateExpression, binaryExpression, logicalExpression, assignmentExpression,
    conditionalExpression, sequenceExpression, memberExpression, callExpression, newExpression]

def name : ExprKind → String
  | identifier => "Identifier"
  | literal => "Literal"
  | thisExpression => "ThisExpression"
  | arrayExpression => "ArrayExpression"
  | objectExpression => "ObjectExpression"
  | functionExpression => "FunctionExpression"
  | unaryExpression => "UnaryExpression"
  | updateExpression => "UpdateExpression"
  | binaryExpression => "BinaryExpression"
  | logicalExpression => "LogicalExpression"
  | assignmentExpression => "AssignmentExpression"
  | conditionalExpression => "ConditionalExpression"
  | sequenceExpression => "SequenceExpression"
  | memberExpression => "MemberExpression"
  | callExpression => "CallExpression"
  | newExpression => "NewExpression"

def ofName? (s : String) : Option ExprKind := all.find? fun kind => kind.name == s

theorem ofName?_name (kind : ExprKind) : ofName? kind.name = some kind := by
  cases kind <;> decide

end ExprKind

end ScriptSsa
