import ScriptSsa.Lowering.Control
import ScriptSsa.Lowering.Operation

/-!
Lowering of syntax trees.

Operands are lowered from left to right except where a construct says otherwise, and each id is drawn when
its value is created. Function declarations are lowered on entry to the function they stand in, in source
order, and skipped where they stand.
-/

namespace ScriptSsa

open Build

/-- Fails unless the function is an ordinary one. -/
def Build.checkOrdinary (isGenerator isAsync : Bool) : Build Unit :=
  if isGenerator then unsupported "generator function"
  else if isAsync then unsupported "async function"
  else return ()

/-- Queues the graph of a nested function and yields the function. -/
def Build.functionValue (graph : Graph) : Build Operand := do
  queue graph
  let entry ← blockRef graph.entry
  emit .function [entry]

mutual

/-- Lowers an expression and gives its value. -/
def lowerExpr (names : Names) : Expr → Build Operand
  | .ident name => readName names name
  | .literal l => literal l.constant
  | .this => emit .this []
  | .array elements => do
    let size ← count elements.length
    let array ← emit .array [size]
    lowerElements names array 0 elements
    return array
  | .object properties => do
    let size ← count properties.length
    let object ← emit .object [size]
    lowerProperties names object properties
    return object
  | .function f => lowerFunction names f
  -- A bare name is deleted by name, whatever it means.
  | .unary .delete (.ident name) => do emit .deleteGlobal [← constant (.string name)]
  | .unary .delete (.member object property computed) => do
    let key ← memberKey property computed (lowerExpr names property)
    let object ← lowerExpr names object
    emit .deleteProperty [object, key]
  | .unary .delete argument => do
    let _ ← lowerExpr names argument
    literal (.bool true)
  | .unary op argument => do unary op (← lowerExpr names argument)
  | .update op isPrefix (.ident name) => updateName names name op isPrefix
  | .update op isPrefix (.member object property computed) =>
    updateMember op isPrefix
      (lowerTarget names (lowerExpr names (.member object property computed)) (.member object property computed))
  | .update _ _ argument => unsupported ("update of " ++ argument.kind)
  | .binary op left right => do
    let left ← lowerExpr names left
    let right ← lowerExpr names right
    binary op left right
  | .logical op left right => logical op (lowerExpr names left) (lowerExpr names right)
  | .assign op (.ident name) right => assignName names name op (lowerExpr names right)
  | .assign op (.member object property computed) right =>
    assignMember op
      (lowerTarget names (lowerExpr names (.member object property computed)) (.member object property computed))
      (lowerExpr names right)
  | .assign _ left _ => unsupported ("assignment to " ++ left.kind)
  | .conditional test consequent alternate =>
    conditional (lowerExpr names test) (lowerExpr names consequent) (lowerExpr names alternate)
  | .sequence expressions => lowerSequence names expressions
  | .member object property computed => do
    let key ← memberKey property computed (lowerExpr names property)
    let object ← lowerExpr names object
    loadProperty ⟨object, key⟩
  | .call (.member object property computed) arguments => do
    let key ← memberKey property computed (lowerExpr names property)
    let object ← lowerExpr names object
    let function ← loadProperty ⟨object, key⟩
    call function (return object) (← lowerExprs names arguments)
  | .call callee arguments => do
    let function ← lowerExpr names callee
    call function (emit .global []) (← lowerExprs names arguments)
  | .new callee arguments => do
    let function ← lowerExpr names callee
    new function (← lowerExprs names arguments)
  | .unsupported kind => unsupported kind

/-- Lowers the keys of a member expression from the outermost inwards, then the object they start from.
`evaluate` lowers the expression itself, for when it is not a member expression. -/
def lowerChain (names : Names) (evaluate : Build Operand) : Expr → Build Chain
  | .member object property computed => do
    let key ← memberKey property computed (lowerExpr names property)
    let chain ← lowerChain names (lowerExpr names object) object
    return { chain with keys := key :: chain.keys }
  | _ => do return ⟨← evaluate, []⟩

/-- Finds the property that an assignment to an expression stores into, along the chain of the expression. What has no
key is lowered before it fails. -/
def lowerTarget (names : Names) (evaluate : Build Operand) : Expr → Build Target
  | .member object property computed => do
    let key ← memberKey property computed (lowerExpr names property)
    let chain ← lowerChain names (lowerExpr names object) object
    chainTarget (Expr.member object property computed).kind { chain with keys := key :: chain.keys }
  | e => do chainTarget e.kind ⟨← evaluate, []⟩

def lowerExprs (names : Names) : List Expr → Build (List Operand)
  | [] => return []
  | e :: es => do
    let value ← lowerExpr names e
    return value :: (← lowerExprs names es)

/-- Lowers all the expressions and gives the value of the last, or `undefined`. -/
def lowerSequence (names : Names) : List Expr → Build Operand
  | [] => literal .undefined
  | [e] => lowerExpr names e
  | e :: es => do
    let _ ← lowerExpr names e
    lowerSequence names es

/-- Stores the elements of an array literal from the given index on. Holes are left out. -/
def lowerElements (names : Names) (array : Operand) : (index : Nat) → List (Option Expr) → Build Unit
  | _, [] => return ()
  | index, none :: es => lowerElements names array (index + 1) es
  | index, some e :: es => do
    let value ← lowerExpr names e
    let key ← literal (.number (.ofNat index))
    storeProperty ⟨array, key⟩ value
    lowerElements names array (index + 1) es

def lowerProperties (names : Names) (object : Operand) : List Property → Build Unit
  | [] => return ()
  | ⟨key, value, kind, computed⟩ :: ps => do
    let key ← propertyKey kind computed key
    let value ← lowerExpr names value
    storeProperty ⟨object, key⟩ value
    lowerProperties names object ps

/-- Lowers a nested function to a graph of its own and gives the function as a value. -/
def lowerFunction (names : Names) : Function → Build Operand
  | ⟨name, params, body, isGenerator, isAsync⟩ => do
    checkOrdinary isGenerator isAsync
    let scope ← lift (Scope.ofFunction name params body)
    let inner := names.enter scope
    let graph ← inNewGraph name do
      prologue inner scope
      lowerDeclared inner body
      lowerStmts inner body
    functionValue graph

/-- Lowers the function declarations at statement positions and stores each into its name. -/
def lowerDeclared (names : Names) : List Stmt → Build Unit
  | [] => return ()
  | s :: ss => do
    lowerDeclaredIn names s
    lowerDeclared names ss

def lowerDeclaredIn (names : Names) : Stmt → Build Unit
  | .function f => do
    let value ← lowerFunction names f
    match f.name with
    | some name => let _ ← writeName names name value
    | none => return ()
  | .block body => lowerDeclared names body
  | .branch _ consequent alternate => do
    lowerDeclaredIn names consequent
    lowerDeclaredInAlternate names alternate
  | .whileLoop _ body => lowerDeclaredIn names body
  | .doWhile body _ => lowerDeclaredIn names body
  | .forLoop _ _ _ body => lowerDeclaredIn names body
  | .labeled _ body => lowerDeclaredIn names body
  | .var _ | .expr _ | .empty | .jump _ _ | .ret _ | .unsupported _ => return ()

def lowerDeclaredInAlternate (names : Names) : Option Stmt → Build Unit
  | none => return ()
  | some s => lowerDeclaredIn names s

def lowerStmts (names : Names) : List Stmt → Build Unit
  | [] => return ()
  | s :: ss => do
    lowerStmt names s
    lowerStmts names ss

/-- Lowers a statement. Where control cannot reach, the code goes to a block of its own. -/
def lowerStmt (names : Names) : Stmt → Build Unit
  | .function _ | .empty => return ()
  | .var declaration => do
    ensureOpen
    lowerVarDecl names declaration
  | .expr e => do
    ensureOpen
    let _ ← lowerExpr names e
  | .block body => do
    ensureOpen
    lowerStmts names body
  | .branch test consequent alternate => do
    ensureOpen
    branch (lowerExpr names test) (lowerStmt names consequent) (lowerAlternate names alternate)
  | .whileLoop test body => do
    ensureOpen
    loop [] true (lowerExpr names test) (return ()) (lowerStmt names body)
  | .doWhile body test => do
    ensureOpen
    loop [] false (lowerExpr names test) (return ()) (lowerStmt names body)
  | .forLoop init test update body => do
    ensureOpen
    lowerInit names init
    loop [] true (lowerTest names test) (lowerUpdate names update) (lowerStmt names body)
  | .jump jump label => do
    ensureOpen
    Build.jump jump label
  | .ret argument => do
    ensureOpen
    perform .ret [← lowerResult names argument]
  | .labeled label body => do
    ensureOpen
    lowerLabeled names [label] body
  | .unsupported kind => do
    ensureOpen
    unsupported kind

/-- Lowers what stands after labels, which must be a loop. -/
def lowerLabeled (names : Names) (labels : List String) : Stmt → Build Unit
  | .labeled label body => lowerLabeled names (labels ++ [label]) body
  | .whileLoop test body =>
    loop labels true (lowerExpr names test) (return ()) (lowerStmt names body)
  | .doWhile body test =>
    loop labels false (lowerExpr names test) (return ()) (lowerStmt names body)
  | .forLoop init test update body => do
    lowerInit names init
    loop labels true (lowerTest names test) (lowerUpdate names update) (lowerStmt names body)
  | s => unsupported ("LabeledStatement(" ++ s.kind ++ ")")

def lowerAlternate (names : Names) : Option Stmt → Build Unit
  | none => return ()
  | some s => lowerStmt names s

def lowerVarDecl (names : Names) : VarDecl → Build Unit
  | ⟨kind, declarators⟩ =>
    if kind = .var then lowerDeclarators names declarators
    else unsupported ("VariableDeclaration(" ++ kind.keyword ++ ")")

def lowerDeclarators (names : Names) : List Declarator → Build Unit
  | [] => return ()
  | ⟨.ident _, none⟩ :: ds => lowerDeclarators names ds
  | ⟨.ident name, some init⟩ :: ds => do
    let value ← lowerExpr names init
    let _ ← writeName names name value
    lowerDeclarators names ds
  | ⟨target, _⟩ :: _ => unsupported ("binding pattern " ++ target.kind)

def lowerInit (names : Names) : Option ForInit → Build Unit
  | none => return ()
  | some (.var declaration) => lowerVarDecl names declaration
  | some (.expr e) => do let _ ← lowerExpr names e

/-- Lowers the test of a `for` loop; an absent one always holds. -/
def lowerTest (names : Names) : Option Expr → Build Operand
  | none => literal (.bool true)
  | some e => lowerExpr names e

def lowerUpdate (names : Names) : Option Expr → Build Unit
  | none => return ()
  | some e => do let _ ← lowerExpr names e

/-- Lowers a returned value, `undefined` if there is none. -/
def lowerResult (names : Names) : Option Expr → Build Operand
  | none => literal .undefined
  | some e => lowerExpr names e

end

end ScriptSsa
