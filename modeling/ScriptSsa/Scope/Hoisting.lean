import ScriptSsa.Syntax.Basic

/-!
Declarations that are hoisted to the top of a function: the names of `var` declarations and the function
declarations, at any statement position that is reached without entering another function.
-/

namespace ScriptSsa

/-- A hoisted declaration. -/
inductive Declaration where
  | var (name : String)
  | function (name : Option String)
deriving DecidableEq, Inhabited, Repr

namespace Declaration

def var? : Declaration → Option String
  | var name => some name
  | function _ => none

def function? : Declaration → Option (Option String)
  | var _ => none
  | function name => some name

end Declaration

/-- The identifiers that a `var` declaration declares; other kinds declare nothing here. -/
def VarDecl.names (d : VarDecl) : List String :=
  if d.kind = .var then d.declarators.filterMap fun x => x.target.ident? else []

def ForInit.declarations : Option ForInit → List Declaration
  | some (.var d) => d.names.map .var
  | _ => []

mutual

/-- The declarations of a statement, in source order. -/
def Stmt.declarations : Stmt → List Declaration
  | .var d => d.names.map .var
  | .function f => [.function f.name]
  | .block body => declarationsOf body
  | .branch _ c a => c.declarations ++ declarationsOfAlternate a
  | .whileLoop _ b => b.declarations
  | .doWhile b _ => b.declarations
  | .forLoop i _ _ b => ForInit.declarations i ++ b.declarations
  | .labeled _ b => b.declarations
  | .expr _ | .empty | .jump _ _ | .ret _ | .unsupported _ => []

def declarationsOfAlternate : Option Stmt → List Declaration
  | none => []
  | some s => s.declarations

/-- The declarations of a function's body. -/
def declarationsOf : List Stmt → List Declaration
  | [] => []
  | s :: ss => s.declarations ++ declarationsOf ss

end

/-- The names that a body declares by `var`, each at its first place. -/
def hoistedVars (body : List Stmt) : List String :=
  ((declarationsOf body).filterMap Declaration.var?).eraseDups

/-- The names of the function declarations of a body, in source order. -/
def hoistedFunctions (body : List Stmt) : List (Option String) :=
  (declarationsOf body).filterMap Declaration.function?

end ScriptSsa
