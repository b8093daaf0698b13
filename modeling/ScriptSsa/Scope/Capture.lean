import ScriptSsa.Scope.Hoisting

/-!
Which names a function's nested functions use from outside themselves.

The search goes down the body with a stack of shadows, one for each nested function entered. A use counts
when it stands in a nested function and no shadow hides its name.
-/

namespace ScriptSsa

inductive Access where
  | read
  | write
deriving DecidableEq, Inhabited, Repr

/-- A use of a variable. -/
structure Use where
  access : Access
  name : String
deriving DecidableEq, Inhabited, Repr

/-- The names that a nested function hides. -/
structure Shadow where
  declared : List String
  /-- The own name, which is hidden from reads only: a write never means the function itself. -/
  ownName : Option String
deriving DecidableEq, Inhabited, Repr

namespace Shadow

def ofFunction (f : Function) : Shadow where
  declared := hoistedVars f.body ++ f.params.filterMap Expr.ident? ++
    (hoistedFunctions f.body).filterMap id
  ownName := f.name

def hides (shadow : Shadow) (use : Use) : Bool :=
  shadow.declared.contains use.name || (use.access = .read && shadow.ownName = some use.name)

end Shadow

/-- The use itself, unless it stands in no nested function or is hidden. -/
def Use.escaping (shadows : List Shadow) (use : Use) : List Use :=
  if shadows.isEmpty || shadows.any (·.hides use) then [] else [use]

mutual

/-- The uses in an expression that escape all the shadows around it. -/
def Expr.uses (shadows : List Shadow) : Expr → List Use
  | .ident name => Use.escaping shadows ⟨.read, name⟩
  | .literal _ | .this | .unsupported _ => []
  | .array es => usesOfElements shadows es
  | .object ps => usesOfProperties shadows ps
  | .function f => f.uses shadows
  | .unary _ e => e.uses shadows
  -- An update reads the name and writes it.
  | .update _ _ (.ident name) =>
    Use.escaping shadows ⟨.write, name⟩ ++ Use.escaping shadows ⟨.read, name⟩
  | .update _ _ e => e.uses shadows
  | .binary _ l r => l.uses shadows ++ r.uses shadows
  | .logical _ l r => l.uses shadows ++ r.uses shadows
  -- Only a compound assignment reads its target.
  | .assign op (.ident name) r =>
    Use.escaping shadows ⟨.write, name⟩ ++
      (if op.binary?.isSome then Use.escaping shadows ⟨.read, name⟩ else []) ++ r.uses shadows
  | .assign _ l r => l.uses shadows ++ r.uses shadows
  | .conditional t c a => t.uses shadows ++ c.uses shadows ++ a.uses shadows
  | .sequence es => usesOfExprs shadows es
  | .member o p computed => o.uses shadows ++ if computed then p.uses shadows else []
  | .call f es => f.uses shadows ++ usesOfExprs shadows es
  | .new f es => f.uses shadows ++ usesOfExprs shadows es

def usesOfExprs (shadows : List Shadow) : List Expr → List Use
  | [] => []
  | e :: es => e.uses shadows ++ usesOfExprs shadows es

def usesOfOptional (shadows : List Shadow) : Option Expr → List Use
  | none => []
  | some e => e.uses shadows

def usesOfElements (shadows : List Shadow) : List (Option Expr) → List Use
  | [] => []
  | none :: es => usesOfElements shadows es
  | some e :: es => e.uses shadows ++ usesOfElements shadows es

def usesOfProperties (shadows : List Shadow) : List Property → List Use
  | [] => []
  | ⟨key, value, _, computed⟩ :: ps =>
    (if computed then key.uses shadows else []) ++ value.uses shadows ++ usesOfProperties shadows ps

/-- The uses in a nested function, which casts its own shadow. -/
def Function.uses (shadows : List Shadow) : Function → List Use
  | ⟨name, params, body, isGenerator, isAsync⟩ =>
    let inner := Shadow.ofFunction ⟨name, params, body, isGenerator, isAsync⟩ :: shadows
    usesOfExprs inner params ++ usesOf inner body

def usesOfDeclarators (shadows : List Shadow) : List Declarator → List Use
  | [] => []
  | ⟨target, init⟩ :: ds =>
    target.uses shadows ++ usesOfOptional shadows init ++ usesOfDeclarators shadows ds

def VarDecl.uses (shadows : List Shadow) : VarDecl → List Use
  | ⟨_, ds⟩ => usesOfDeclarators shadows ds

def usesOfInit (shadows : List Shadow) : Option ForInit → List Use
  | none => []
  | some (.var d) => d.uses shadows
  | some (.expr e) => e.uses shadows

/-- The uses in a statement that escape all the shadows around it. -/
def Stmt.uses (shadows : List Shadow) : Stmt → List Use
  | .var d => d.uses shadows
  | .function f => f.uses shadows
  | .expr e => e.uses shadows
  | .block body => usesOf shadows body
  | .branch t c a => t.uses shadows ++ c.uses shadows ++ usesOfAlternate shadows a
  | .whileLoop t b => t.uses shadows ++ b.uses shadows
  | .doWhile b t => b.uses shadows ++ t.uses shadows
  | .forLoop i t u b =>
    usesOfInit shadows i ++ usesOfOptional shadows t ++ usesOfOptional shadows u ++ b.uses shadows
  | .ret e => usesOfOptional shadows e
  | .labeled _ b => b.uses shadows
  | .empty | .jump _ _ | .unsupported _ => []

def usesOfAlternate (shadows : List Shadow) : Option Stmt → List Use
  | none => []
  | some s => s.uses shadows

def usesOf (shadows : List Shadow) : List Stmt → List Use
  | [] => []
  | s :: ss => s.uses shadows ++ usesOf shadows ss

end

/-- The uses that the functions nested in a body make of names from outside themselves. -/
def escapingUses (body : List Stmt) : List Use := usesOf [] body

end ScriptSsa
