import ScriptSsa.Proofs.Semantics

/-!
What the syntax of a script tells about its graphs, before anything is lowered.

`isSupported` says which trees can be lowered. Statements are read inside the loops around them, which are
given by their labels; a function is read inside no loop. `merges` counts the expressions whose value comes
from two places, those of nested functions left out. `functions` lists the functions of a tree in the order
in which their graphs are finished.

Lowering goes over a body twice, first for the function declarations and then for the rest. So the
statements have these measures once for either pass, and `isSupported_split` says that the two passes leave
nothing out.
-/

namespace ScriptSsa

/-- What can be assigned to. -/
def Expr.isReference : Expr → Bool
  | .ident _ | .member _ _ _ => true
  | _ => false

/-- What can be the key of a property in an object literal. -/
def Expr.isPropertyName : Expr → Bool
  | .ident _ | .literal _ => true
  | _ => false

mutual

def Expr.isSupported : Expr → Bool
  | .ident _ | .literal _ | .this => true
  | .array es => areSupportedElements es
  | .object ps => areSupportedProperties ps
  | .function f => f.isSupported
  | .unary _ e => e.isSupported
  | .update _ _ e => e.isReference && e.isSupported
  | .binary _ l r => l.isSupported && r.isSupported
  | .logical _ l r => l.isSupported && r.isSupported
  | .assign _ l r => l.isReference && l.isSupported && r.isSupported
  | .conditional t c a => t.isSupported && c.isSupported && a.isSupported
  | .sequence es => areSupportedExprs es
  | .member o p computed => (if computed then p.isSupported else p.ident?.isSome) && o.isSupported
  | .call f es => f.isSupported && areSupportedExprs es
  | .new f es => f.isSupported && areSupportedExprs es
  | .unsupported _ => false

def areSupportedExprs : List Expr → Bool
  | [] => true
  | e :: es => e.isSupported && areSupportedExprs es

def isSupportedOptional : Option Expr → Bool
  | none => true
  | some e => e.isSupported

def areSupportedElements : List (Option Expr) → Bool
  | [] => true
  | none :: es => areSupportedElements es
  | some e :: es => e.isSupported && areSupportedElements es

def areSupportedProperties : List Property → Bool
  | [] => true
  | ⟨key, value, kind, computed⟩ :: ps =>
    kind = .init && !computed && key.isPropertyName && value.isSupported && areSupportedProperties ps

/-- Parameters are identifiers, and jumps do not leave the function. -/
def Function.isSupported : Function → Bool
  | ⟨_, params, body, isGenerator, isAsync⟩ =>
    !isGenerator && !isAsync && params.all (fun e => e.ident?.isSome) && areSupported [] body

def areSupportedDeclarators : List Declarator → Bool
  | [] => true
  | ⟨target, init⟩ :: ds => target.ident?.isSome && isSupportedOptional init && areSupportedDeclarators ds

def VarDecl.isSupported : VarDecl → Bool
  | ⟨kind, ds⟩ => kind = .var && areSupportedDeclarators ds

def isSupportedInit : Option ForInit → Bool
  | none => true
  | some (.var d) => d.isSupported
  | some (.expr e) => e.isSupported

/-- Whether a statement can be lowered inside loops with the given labels. -/
def Stmt.isSupported (loops : List (List String)) : Stmt → Bool
  | .var d => d.isSupported
  | .function f => f.isSupported
  | .expr e => e.isSupported
  | .block body => areSupported loops body
  | .empty => true
  | .branch t c a => t.isSupported && c.isSupported loops && isSupportedAlternate loops a
  | .whileLoop t b => t.isSupported && b.isSupported ([] :: loops)
  | .doWhile b t => t.isSupported && b.isSupported ([] :: loops)
  | .forLoop i t u b =>
    isSupportedInit i && isSupportedOptional t && isSupportedOptional u && b.isSupported ([] :: loops)
  | .jump _ label => loops.any (selects label)
  | .ret e => isSupportedOptional e
  | .labeled label b => b.isSupportedLoop [label] loops
  | .unsupported _ => false

/-- Whether a statement that stands after labels can be lowered: it must be a loop. -/
def Stmt.isSupportedLoop (labels : List String) (loops : List (List String)) : Stmt → Bool
  | .labeled label b => b.isSupportedLoop (labels ++ [label]) loops
  | .whileLoop t b => t.isSupported && b.isSupported (labels :: loops)
  | .doWhile b t => t.isSupported && b.isSupported (labels :: loops)
  | .forLoop i t u b =>
    isSupportedInit i && isSupportedOptional t && isSupportedOptional u && b.isSupported (labels :: loops)
  | _ => false

def isSupportedAlternate (loops : List (List String)) : Option Stmt → Bool
  | none => true
  | some s => s.isSupported loops

def areSupported (loops : List (List String)) : List Stmt → Bool
  | [] => true
  | s :: ss => s.isSupported loops && areSupported loops ss

end

/-- Whether a script can be lowered. -/
def Program.isSupported (p : Program) : Bool := areSupported [] p.body

/-! Merges. -/

mutual

/-- The number of logical and conditional expressions in an expression. -/
def Expr.merges : Expr → Nat
  | .ident _ | .literal _ | .this | .function _ | .unsupported _ => 0
  | .array es => mergesOfElements es
  | .object ps => mergesOfProperties ps
  | .unary _ e => e.merges
  | .update _ _ e => e.merges
  | .binary _ l r => l.merges + r.merges
  | .logical _ l r => l.merges + r.merges + 1
  | .assign _ l r => l.merges + r.merges
  | .conditional t c a => t.merges + c.merges + a.merges + 1
  | .sequence es => mergesOfExprs es
  | .member o p _ => p.merges + o.merges
  | .call f es => f.merges + mergesOfExprs es
  | .new f es => f.merges + mergesOfExprs es

def mergesOfExprs : List Expr → Nat
  | [] => 0
  | e :: es => e.merges + mergesOfExprs es

def mergesOfElements : List (Option Expr) → Nat
  | [] => 0
  | none :: es => mergesOfElements es
  | some e :: es => e.merges + mergesOfElements es

def mergesOfProperties : List Property → Nat
  | [] => 0
  | ⟨key, value, _, _⟩ :: ps => key.merges + value.merges + mergesOfProperties ps

end

def mergesOfOptional : Option Expr → Nat
  | none => 0
  | some e => e.merges

def mergesOfDeclarators : List Declarator → Nat
  | [] => 0
  | ⟨target, init⟩ :: ds => target.merges + mergesOfOptional init + mergesOfDeclarators ds

def VarDecl.merges : VarDecl → Nat
  | ⟨_, ds⟩ => mergesOfDeclarators ds

def mergesOfInit : Option ForInit → Nat
  | none => 0
  | some (.var d) => d.merges
  | some (.expr e) => e.merges

mutual

def Stmt.merges : Stmt → Nat
  | .var d => d.merges
  | .expr e => e.merges
  | .block body => mergesOf body
  | .branch t c a => t.merges + c.merges + mergesOfAlternate a
  | .whileLoop t b => t.merges + b.merges
  | .doWhile b t => t.merges + b.merges
  | .forLoop i t u b => mergesOfInit i + mergesOfOptional t + mergesOfOptional u + b.merges
  | .ret e => mergesOfOptional e
  | .labeled _ b => b.merges
  | .function _ | .empty | .jump _ _ | .unsupported _ => 0

def mergesOfAlternate : Option Stmt → Nat
  | none => 0
  | some s => s.merges

/-- The number of logical and conditional expressions in the body of a function, those of nested functions
left out. -/
def mergesOf : List Stmt → Nat
  | [] => 0
  | s :: ss => s.merges + mergesOf ss

end

/-! Functions. -/

mutual

/-- The functions of an expression, each after those inside it. The parts of an expression follow each
other as they are lowered. -/
def Expr.functions : Expr → List Function
  | .ident _ | .literal _ | .this | .unsupported _ => []
  | .array es => functionsOfElements es
  | .object ps => functionsOfProperties ps
  | .function f => f.functions
  | .unary _ e => e.functions
  | .update _ _ e => e.functions
  | .binary _ l r => l.functions ++ r.functions
  | .logical _ l r => l.functions ++ r.functions
  | .assign _ l r => r.functions ++ l.functions
  | .conditional t c a => t.functions ++ c.functions ++ a.functions
  | .sequence es => functionsOfExprs es
  | .member o p _ => p.functions ++ o.functions
  | .call f es => f.functions ++ functionsOfExprs es
  | .new f es => f.functions ++ functionsOfExprs es

def functionsOfExprs : List Expr → List Function
  | [] => []
  | e :: es => e.functions ++ functionsOfExprs es

def functionsOfOptional : Option Expr → List Function
  | none => []
  | some e => e.functions

def functionsOfElements : List (Option Expr) → List Function
  | [] => []
  | none :: es => functionsOfElements es
  | some e :: es => e.functions ++ functionsOfElements es

def functionsOfProperties : List Property → List Function
  | [] => []
  | ⟨key, value, _, _⟩ :: ps => key.functions ++ value.functions ++ functionsOfProperties ps

/-- A function after the functions that it declares and then those of its expressions. -/
def Function.functions : Function → List Function
  | ⟨name, params, body, isGenerator, isAsync⟩ =>
    declaredFunctionsOf body ++ functionsOf body ++ [⟨name, params, body, isGenerator, isAsync⟩]

def functionsOfDeclarators : List Declarator → List Function
  | [] => []
  | ⟨target, init⟩ :: ds => target.functions ++ functionsOfOptional init ++ functionsOfDeclarators ds

def VarDecl.functions : VarDecl → List Function
  | ⟨_, ds⟩ => functionsOfDeclarators ds

def functionsOfInit : Option ForInit → List Function
  | none => []
  | some (.var d) => d.functions
  | some (.expr e) => e.functions

/-- The functions of the expressions in a statement. -/
def Stmt.functions : Stmt → List Function
  | .var d => d.functions
  | .expr e => e.functions
  | .block body => functionsOf body
  | .branch t c a => t.functions ++ c.functions ++ functionsOfAlternate a
  | .whileLoop t b => t.functions ++ b.functions
  | .doWhile b t => t.functions ++ b.functions
  | .forLoop i t u b =>
    functionsOfInit i ++ functionsOfOptional t ++ b.functions ++ functionsOfOptional u
  | .ret e => functionsOfOptional e
  | .labeled _ b => b.functions
  | .function _ | .empty | .jump _ _ | .unsupported _ => []

def functionsOfAlternate : Option Stmt → List Function
  | none => []
  | some s => s.functions

def functionsOf : List Stmt → List Function
  | [] => []
  | s :: ss => s.functions ++ functionsOf ss

/-- The function declarations in a statement, each after the functions inside it. -/
def Stmt.declaredFunctions : Stmt → List Function
  | .function f => f.functions
  | .block body => declaredFunctionsOf body
  | .branch _ c a => c.declaredFunctions ++ declaredFunctionsOfAlternate a
  | .whileLoop _ b => b.declaredFunctions
  | .doWhile b _ => b.declaredFunctions
  | .forLoop _ _ _ b => b.declaredFunctions
  | .labeled _ b => b.declaredFunctions
  | .var _ | .expr _ | .empty | .jump _ _ | .ret _ | .unsupported _ => []

def declaredFunctionsOfAlternate : Option Stmt → List Function
  | none => []
  | some s => s.declaredFunctions

def declaredFunctionsOf : List Stmt → List Function
  | [] => []
  | s :: ss => s.declaredFunctions ++ declaredFunctionsOf ss

end

/-- The top level of a script, as a function. -/
def Program.main (p : Program) : Function := .plain none [] p.body

/-- The functions of a script in the order of their graphs: the top level first, every other function after
those inside it. -/
def Program.functions (p : Program) : List Function :=
  p.main :: (declaredFunctionsOf p.body ++ functionsOf p.body)

/-! The two passes over a body. -/

mutual

/-- Whether the function declarations in a statement can be lowered. -/
def Stmt.hasSupportedDeclarations : Stmt → Bool
  | .function f => f.isSupported
  | .block body => haveSupportedDeclarations body
  | .branch _ c a => c.hasSupportedDeclarations && hasSupportedDeclarationsAlternate a
  | .whileLoop _ b => b.hasSupportedDeclarations
  | .doWhile b _ => b.hasSupportedDeclarations
  | .forLoop _ _ _ b => b.hasSupportedDeclarations
  | .labeled _ b => b.hasSupportedDeclarations
  | .var _ | .expr _ | .empty | .jump _ _ | .ret _ | .unsupported _ => true

def hasSupportedDeclarationsAlternate : Option Stmt → Bool
  | none => true
  | some s => s.hasSupportedDeclarations

def haveSupportedDeclarations : List Stmt → Bool
  | [] => true
  | s :: ss => s.hasSupportedDeclarations && haveSupportedDeclarations ss

end

mutual

/-- Whether a statement can be lowered, its function declarations left aside. -/
def Stmt.hasSupportedCode (loops : List (List String)) : Stmt → Bool
  | .var d => d.isSupported
  | .expr e => e.isSupported
  | .block body => haveSupportedCode loops body
  | .function _ | .empty => true
  | .branch t c a => t.isSupported && c.hasSupportedCode loops && hasSupportedCodeAlternate loops a
  | .whileLoop t b => t.isSupported && b.hasSupportedCode ([] :: loops)
  | .doWhile b t => t.isSupported && b.hasSupportedCode ([] :: loops)
  | .forLoop i t u b =>
    isSupportedInit i && isSupportedOptional t && isSupportedOptional u && b.hasSupportedCode ([] :: loops)
  | .jump _ label => loops.any (selects label)
  | .ret e => isSupportedOptional e
  | .labeled label b => b.hasSupportedLoopCode [label] loops
  | .unsupported _ => false

def Stmt.hasSupportedLoopCode (labels : List String) (loops : List (List String)) : Stmt → Bool
  | .labeled label b => b.hasSupportedLoopCode (labels ++ [label]) loops
  | .whileLoop t b => t.isSupported && b.hasSupportedCode (labels :: loops)
  | .doWhile b t => t.isSupported && b.hasSupportedCode (labels :: loops)
  | .forLoop i t u b =>
    isSupportedInit i && isSupportedOptional t && isSupportedOptional u && b.hasSupportedCode (labels :: loops)
  | _ => false

def hasSupportedCodeAlternate (loops : List (List String)) : Option Stmt → Bool
  | none => true
  | some s => s.hasSupportedCode loops

def haveSupportedCode (loops : List (List String)) : List Stmt → Bool
  | [] => true
  | s :: ss => s.hasSupportedCode loops && haveSupportedCode loops ss

end

mutual

theorem Stmt.isSupported_split (loops : List (List String)) :
    (s : Stmt) → s.isSupported loops = (s.hasSupportedDeclarations && s.hasSupportedCode loops)
  | .var _ | .function _ | .expr _ | .empty | .jump _ _ | .ret _ | .unsupported _ => by
    simp [Stmt.isSupported, Stmt.hasSupportedDeclarations, Stmt.hasSupportedCode]
  | .block body => by
    rw [Stmt.isSupported, Stmt.hasSupportedDeclarations, Stmt.hasSupportedCode, areSupported_split]
  | .branch t c a => by
    rw [Stmt.isSupported, Stmt.hasSupportedDeclarations, Stmt.hasSupportedCode, c.isSupported_split,
      isSupportedAlternate_split]
    ac_rfl
  | .whileLoop t b => by
    rw [Stmt.isSupported, Stmt.hasSupportedDeclarations, Stmt.hasSupportedCode, b.isSupported_split]
    ac_rfl
  | .doWhile b t => by
    rw [Stmt.isSupported, Stmt.hasSupportedDeclarations, Stmt.hasSupportedCode, b.isSupported_split]
    ac_rfl
  | .forLoop i t u b => by
    rw [Stmt.isSupported, Stmt.hasSupportedDeclarations, Stmt.hasSupportedCode, b.isSupported_split]
    ac_rfl
  | .labeled label b => by
    rw [Stmt.isSupported, Stmt.hasSupportedDeclarations, Stmt.hasSupportedCode, b.isSupportedLoop_split]

theorem Stmt.isSupportedLoop_split (labels : List String) (loops : List (List String)) :
    (s : Stmt) → s.isSupportedLoop labels loops =
      (s.hasSupportedDeclarations && s.hasSupportedLoopCode labels loops)
  | .labeled label b => by
    rw [Stmt.isSupportedLoop, Stmt.hasSupportedDeclarations, Stmt.hasSupportedLoopCode, b.isSupportedLoop_split]
  | .whileLoop t b => by
    rw [Stmt.isSupportedLoop, Stmt.hasSupportedDeclarations, Stmt.hasSupportedLoopCode, b.isSupported_split]
    ac_rfl
  | .doWhile b t => by
    rw [Stmt.isSupportedLoop, Stmt.hasSupportedDeclarations, Stmt.hasSupportedLoopCode, b.isSupported_split]
    ac_rfl
  | .forLoop i t u b => by
    rw [Stmt.isSupportedLoop, Stmt.hasSupportedDeclarations, Stmt.hasSupportedLoopCode, b.isSupported_split]
    ac_rfl
  | .var _ | .function _ | .expr _ | .block _ | .empty | .branch _ _ _ | .jump _ _ | .ret _ | .unsupported _ => by
    simp [Stmt.isSupportedLoop, Stmt.hasSupportedLoopCode]

theorem isSupportedAlternate_split (loops : List (List String)) :
    (s : Option Stmt) → isSupportedAlternate loops s =
      (hasSupportedDeclarationsAlternate s && hasSupportedCodeAlternate loops s)
  | none => rfl
  | some s => by
    rw [isSupportedAlternate, hasSupportedDeclarationsAlternate, hasSupportedCodeAlternate, s.isSupported_split]

theorem areSupported_split (loops : List (List String)) :
    (body : List Stmt) → areSupported loops body =
      (haveSupportedDeclarations body && haveSupportedCode loops body)
  | [] => rfl
  | s :: ss => by
    rw [areSupported, haveSupportedDeclarations, haveSupportedCode, s.isSupported_split, areSupported_split]
    ac_rfl

end

end ScriptSsa
