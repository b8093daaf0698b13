import ScriptSsa.Scope.Resolution

/-!
What a syntax tree holds of two kinds of places: reads of local variables, and calls.

Reads are counted through nested functions, each under the names of its own place. Calls are listed for one
function at a time, in the order in which they are lowered: the operands of a call come before it, an assigned
value before the property it is stored into, and the test of every loop before its body.
-/

namespace ScriptSsa

/-- One if a read of the name means a local variable. -/
def Names.localRead (names : Names) (name : String) : Nat :=
  match names.find .read name with
  | .ok .localVar => 1
  | _ => 0

mutual

/-- How many identifiers in an expression are read as local variables. Deleting a bare name does not read it, and
only a compound assignment or an update reads its target. -/
def Expr.localReads (names : Names) : Expr → Nat
  | .ident name => names.localRead name
  | .literal _ | .this | .unsupported _ => 0
  | .array es => localReadsOfElements names es
  | .object ps => localReadsOfProperties names ps
  | .function f => f.localReads names
  | .unary .delete (.ident _) => 0
  | .unary _ e => e.localReads names
  | .update _ _ e => e.localReads names
  | .binary _ l r => l.localReads names + r.localReads names
  | .logical _ l r => l.localReads names + r.localReads names
  | .assign op (.ident name) r => (if op.binary?.isSome then names.localRead name else 0) + r.localReads names
  | .assign _ l r => l.localReads names + r.localReads names
  | .conditional t c a => t.localReads names + c.localReads names + a.localReads names
  | .sequence es => localReadsOfExprs names es
  | .member o p computed => o.localReads names + if computed then p.localReads names else 0
  | .call f es => f.localReads names + localReadsOfExprs names es
  | .new f es => f.localReads names + localReadsOfExprs names es

def localReadsOfExprs (names : Names) : List Expr → Nat
  | [] => 0
  | e :: es => e.localReads names + localReadsOfExprs names es

def localReadsOfOptional (names : Names) : Option Expr → Nat
  | none => 0
  | some e => e.localReads names

def localReadsOfElements (names : Names) : List (Option Expr) → Nat
  | [] => 0
  | none :: es => localReadsOfElements names es
  | some e :: es => e.localReads names + localReadsOfElements names es

def localReadsOfProperties (names : Names) : List Property → Nat
  | [] => 0
  | ⟨key, value, _, computed⟩ :: ps =>
    (if computed then key.localReads names else 0) + value.localReads names + localReadsOfProperties names ps

/-- The reads in a nested function, under the names inside it. -/
def Function.localReads (names : Names) : Function → Nat
  | ⟨name, params, body, _, _⟩ =>
    localReadsOf (names.enter (Scope.ofBody name (params.filterMap Expr.ident?) body)) body

def localReadsOfDeclarators (names : Names) : List Declarator → Nat
  | [] => 0
  | ⟨_, init⟩ :: ds => localReadsOfOptional names init + localReadsOfDeclarators names ds

def VarDecl.localReads (names : Names) : VarDecl → Nat
  | ⟨_, ds⟩ => localReadsOfDeclarators names ds

def localReadsOfInit (names : Names) : Option ForInit → Nat
  | none => 0
  | some (.var d) => d.localReads names
  | some (.expr e) => e.localReads names

def Stmt.localReads (names : Names) : Stmt → Nat
  | .var d => d.localReads names
  | .function f => f.localReads names
  | .expr e => e.localReads names
  | .block body => localReadsOf names body
  | .branch t c a => t.localReads names + c.localReads names + localReadsOfAlternate names a
  | .whileLoop t b => t.localReads names + b.localReads names
  | .doWhile b t => b.localReads names + t.localReads names
  | .forLoop i t u b =>
    localReadsOfInit names i + localReadsOfOptional names t + localReadsOfOptional names u + b.localReads names
  | .ret e => localReadsOfOptional names e
  | .labeled _ b => b.localReads names
  | .empty | .jump _ _ | .unsupported _ => 0

def localReadsOfAlternate (names : Names) : Option Stmt → Nat
  | none => 0
  | some s => s.localReads names

/-- How many identifiers in a body are read as local variables. -/
def localReadsOf (names : Names) : List Stmt → Nat
  | [] => 0
  | s :: ss => s.localReads names + localReadsOf names ss

end

mutual

/-- The reads in a statement, those in the functions that it declares left out. -/
def Stmt.ownReads (names : Names) : Stmt → Nat
  | .var d => d.localReads names
  | .expr e => e.localReads names
  | .block body => ownReadsOf names body
  | .branch t c a => t.localReads names + (c.ownReads names + ownReadsOfAlternate names a)
  | .whileLoop t b => t.localReads names + b.ownReads names
  | .doWhile b t => t.localReads names + b.ownReads names
  | .forLoop i t u b =>
    localReadsOfInit names i + (localReadsOfOptional names t + (b.ownReads names + localReadsOfOptional names u))
  | .ret e => localReadsOfOptional names e
  | .labeled _ b => b.ownReads names
  | .function _ | .empty | .jump _ _ | .unsupported _ => 0

def ownReadsOfAlternate (names : Names) : Option Stmt → Nat
  | none => 0
  | some s => s.ownReads names

def ownReadsOf (names : Names) : List Stmt → Nat
  | [] => 0
  | s :: ss => s.ownReads names + ownReadsOf names ss

end

mutual

/-- The calls in an expression, in the order they are lowered. -/
def Expr.calls : Expr → List Expr
  | .ident _ | .literal _ | .this | .function _ | .unsupported _ => []
  | .array es => callsOfElements es
  | .object ps => callsOfProperties ps
  | .unary _ e => e.calls
  | .update _ _ e => e.calls
  | .binary _ l r => l.calls ++ r.calls
  | .logical _ l r => l.calls ++ r.calls
  | .assign _ l r => r.calls ++ l.calls
  | .conditional t c a => t.calls ++ (c.calls ++ a.calls)
  | .sequence es => callsOfExprs es
  | .member o p computed => (if computed then p.calls else []) ++ o.calls
  | .call f es => f.calls ++ (callsOfExprs es ++ [.call f es])
  | .new f es => f.calls ++ (callsOfExprs es ++ [.new f es])

def callsOfExprs : List Expr → List Expr
  | [] => []
  | e :: es => e.calls ++ callsOfExprs es

def callsOfElements : List (Option Expr) → List Expr
  | [] => []
  | none :: es => callsOfElements es
  | some e :: es => e.calls ++ callsOfElements es

def callsOfProperties : List Property → List Expr
  | [] => []
  | ⟨key, value, _, computed⟩ :: ps => (if computed then key.calls else []) ++ (value.calls ++ callsOfProperties ps)

end

def callsOfOptional : Option Expr → List Expr
  | none => []
  | some e => e.calls

def callsOfDeclarators : List Declarator → List Expr
  | [] => []
  | ⟨_, init⟩ :: ds => callsOfOptional init ++ callsOfDeclarators ds

def VarDecl.calls : VarDecl → List Expr
  | ⟨_, ds⟩ => callsOfDeclarators ds

def callsOfInit : Option ForInit → List Expr
  | none => []
  | some (.var d) => d.calls
  | some (.expr e) => e.calls

mutual

/-- The calls in a statement, in the order they are lowered. -/
def Stmt.calls : Stmt → List Expr
  | .var d => d.calls
  | .expr e => e.calls
  | .block body => callsOf body
  | .branch t c a => t.calls ++ (c.calls ++ callsOfAlternate a)
  | .whileLoop t b => t.calls ++ b.calls
  | .doWhile b t => t.calls ++ b.calls
  | .forLoop i t u b => callsOfInit i ++ (callsOfOptional t ++ (b.calls ++ callsOfOptional u))
  | .ret e => callsOfOptional e
  | .labeled _ b => b.calls
  | .function _ | .empty | .jump _ _ | .unsupported _ => []

def callsOfAlternate : Option Stmt → List Expr
  | none => []
  | some s => s.calls

/-- The calls in a body, those of nested functions left out. -/
def callsOf : List Stmt → List Expr
  | [] => []
  | s :: ss => s.calls ++ callsOf ss

end

end ScriptSsa
