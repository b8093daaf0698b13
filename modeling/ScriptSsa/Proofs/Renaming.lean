import ScriptSsa.Scope.Basic

/-!
New names for variables.

`rename r` gives every name that stands for a variable its new name: references, targets of assignments, updates
and deletions, declarators, parameters and the names of functions. Labels, strings, and the names and keys of
properties that are not computed are no variables and stay.
-/

namespace ScriptSsa

mutual

def Expr.rename (r : String → String) : Expr → Expr
  | .ident name => .ident (r name)
  | .literal l => .literal l
  | .this => .this
  | .array es => .array (renameElements r es)
  | .object ps => .object (renameProperties r ps)
  | .function f => .function (f.rename r)
  | .unary op e => .unary op (e.rename r)
  | .update op isPrefix e => .update op isPrefix (e.rename r)
  | .binary op left right => .binary op (left.rename r) (right.rename r)
  | .logical op left right => .logical op (left.rename r) (right.rename r)
  | .assign op left right => .assign op (left.rename r) (right.rename r)
  | .conditional t c a => .conditional (t.rename r) (c.rename r) (a.rename r)
  | .sequence es => .sequence (renameExprs r es)
  | .member o p computed => .member (o.rename r) (if computed then p.rename r else p) computed
  | .call f es => .call (f.rename r) (renameExprs r es)
  | .new f es => .new (f.rename r) (renameExprs r es)
  | .unsupported kind => .unsupported kind

def renameExprs (r : String → String) : List Expr → List Expr
  | [] => []
  | e :: es => e.rename r :: renameExprs r es

def renameOptional (r : String → String) : Option Expr → Option Expr
  | none => none
  | some e => some (e.rename r)

def renameElements (r : String → String) : List (Option Expr) → List (Option Expr)
  | [] => []
  | none :: es => none :: renameElements r es
  | some e :: es => some (e.rename r) :: renameElements r es

def renameProperties (r : String → String) : List Property → List Property
  | [] => []
  | ⟨key, value, kind, computed⟩ :: ps =>
    ⟨if computed then key.rename r else key, value.rename r, kind, computed⟩ :: renameProperties r ps

def Function.rename (r : String → String) : Function → Function
  | ⟨name, params, body, isGenerator, isAsync⟩ =>
    ⟨name.map r, renameExprs r params, renameStmts r body, isGenerator, isAsync⟩

def renameDeclarators (r : String → String) : List Declarator → List Declarator
  | [] => []
  | ⟨target, init⟩ :: ds => ⟨target.rename r, renameOptional r init⟩ :: renameDeclarators r ds

def VarDecl.rename (r : String → String) : VarDecl → VarDecl
  | ⟨kind, ds⟩ => ⟨kind, renameDeclarators r ds⟩

def renameInit (r : String → String) : Option ForInit → Option ForInit
  | none => none
  | some (.var d) => some (.var (d.rename r))
  | some (.expr e) => some (.expr (e.rename r))

def Stmt.rename (r : String → String) : Stmt → Stmt
  | .var d => .var (d.rename r)
  | .function f => .function (f.rename r)
  | .expr e => .expr (e.rename r)
  | .block body => .block (renameStmts r body)
  | .empty => .empty
  | .branch t c a => .branch (t.rename r) (c.rename r) (renameAlternate r a)
  | .whileLoop t b => .whileLoop (t.rename r) (b.rename r)
  | .doWhile b t => .doWhile (b.rename r) (t.rename r)
  | .forLoop i t u b =>
    .forLoop (renameInit r i) (renameOptional r t) (renameOptional r u) (b.rename r)
  | .jump kind label => .jump kind label
  | .ret e => .ret (renameOptional r e)
  | .labeled label b => .labeled label (b.rename r)
  | .unsupported kind => .unsupported kind

def renameAlternate (r : String → String) : Option Stmt → Option Stmt
  | none => none
  | some s => some (s.rename r)

def renameStmts (r : String → String) : List Stmt → List Stmt
  | [] => []
  | s :: ss => s.rename r :: renameStmts r ss

end

/-- The script with new names for its variables. -/
def Program.rename (r : String → String) (p : Program) : Program := ⟨renameStmts r p.body⟩

/-- The scope with new names for its variables. -/
def Scope.rename (r : String → String) (scope : Scope) : Scope where
  ownName := scope.ownName.map r
  params := scope.params.map r
  vars := scope.vars.map r
  functions := scope.functions.map (Option.map r)
  storage := scope.storage.map (Prod.map r id)
  ownSlot := scope.ownSlot

variable (r : String → String)

/-- The name of a function is renamed along with the variables. -/
theorem Function.name_rename (f : Function) : (f.rename r).name = f.name.map r := by
  cases f
  rw [Function.rename]

/-- Holes stay where they are, so indices do not move. -/
theorem length_renameElements (es : List (Option Expr)) : (renameElements r es).length = es.length := by
  induction es with
  | nil => rw [renameElements]
  | cons e es ih =>
      cases e <;> rw [renameElements, List.length_cons, List.length_cons, ih]

/-- No property is dropped or added. -/
theorem length_renameProperties (ps : List Property) : (renameProperties r ps).length = ps.length := by
  induction ps with
  | nil => rw [renameProperties]
  | cons p ps ih =>
      cases p
      rw [renameProperties, List.length_cons, List.length_cons, ih]

/-! Where every name keeps itself, nothing changes. -/

mutual

/-- Renaming by the identity changes no expression; the lemmas below say it of every other part of a tree. -/
theorem Expr.rename_id : (e : Expr) → e.rename id = e
  | .ident _ | .literal _ | .this | .unsupported _ => by simp only [Expr.rename, id]
  | .array es => by rw [Expr.rename, renameElements_id]
  | .object ps => by rw [Expr.rename, renameProperties_id]
  | .function f => by rw [Expr.rename, f.rename_id]
  | .unary _ e | .update _ _ e => by rw [Expr.rename, e.rename_id]
  | .binary _ left right | .logical _ left right | .assign _ left right => by
    rw [Expr.rename, left.rename_id, right.rename_id]
  | .conditional t c a => by rw [Expr.rename, t.rename_id, c.rename_id, a.rename_id]
  | .sequence es => by rw [Expr.rename, renameExprs_id]
  | .member o p computed => by rw [Expr.rename, o.rename_id, p.rename_id, ite_self]
  | .call f es | .new f es => by rw [Expr.rename, f.rename_id, renameExprs_id]

theorem renameExprs_id : (es : List Expr) → renameExprs id es = es
  | [] => by rw [renameExprs]
  | e :: es => by rw [renameExprs, e.rename_id, renameExprs_id]

theorem renameOptional_id : (e : Option Expr) → renameOptional id e = e
  | none => by rw [renameOptional]
  | some e => by rw [renameOptional, e.rename_id]

theorem renameElements_id : (es : List (Option Expr)) → renameElements id es = es
  | [] => by rw [renameElements]
  | none :: es => by rw [renameElements, renameElements_id]
  | some e :: es => by rw [renameElements, e.rename_id, renameElements_id]

theorem renameProperties_id : (ps : List Property) → renameProperties id ps = ps
  | [] => by rw [renameProperties]
  | ⟨key, value, _, _⟩ :: ps => by
    rw [renameProperties, key.rename_id, value.rename_id, ite_self, renameProperties_id]

/-- A function without a name gets none. -/
theorem Function.rename_id : (f : Function) → f.rename id = f
  | ⟨name, params, body, _, _⟩ => by
    rw [Function.rename, renameExprs_id, renameStmts_id, Option.map_id_fun, id]

theorem renameDeclarators_id : (ds : List Declarator) → renameDeclarators id ds = ds
  | [] => by rw [renameDeclarators]
  | ⟨target, init⟩ :: ds => by
    rw [renameDeclarators, target.rename_id, renameOptional_id, renameDeclarators_id]

theorem VarDecl.rename_id : (d : VarDecl) → d.rename id = d
  | ⟨_, ds⟩ => by rw [VarDecl.rename, renameDeclarators_id]

theorem renameInit_id : (init : Option ForInit) → renameInit id init = init
  | none => by rw [renameInit]
  | some (.var d) => by rw [renameInit, d.rename_id]
  | some (.expr e) => by rw [renameInit, e.rename_id]

theorem Stmt.rename_id : (s : Stmt) → s.rename id = s
  | .empty | .jump _ _ | .unsupported _ => by rw [Stmt.rename]
  | .var d => by rw [Stmt.rename, d.rename_id]
  | .function f => by rw [Stmt.rename, f.rename_id]
  | .expr e => by rw [Stmt.rename, e.rename_id]
  | .block body => by rw [Stmt.rename, renameStmts_id]
  | .branch t c a => by rw [Stmt.rename, t.rename_id, c.rename_id, renameAlternate_id]
  | .whileLoop t b | .doWhile b t => by rw [Stmt.rename, t.rename_id, b.rename_id]
  | .forLoop i t u b => by
    rw [Stmt.rename, renameInit_id, renameOptional_id, renameOptional_id, b.rename_id]
  | .ret e => by rw [Stmt.rename, renameOptional_id]
  | .labeled _ b => by rw [Stmt.rename, b.rename_id]

theorem renameAlternate_id : (s : Option Stmt) → renameAlternate id s = s
  | none => by rw [renameAlternate]
  | some s => by rw [renameAlternate, s.rename_id]

theorem renameStmts_id : (ss : List Stmt) → renameStmts id ss = ss
  | [] => by rw [renameStmts]
  | s :: ss => by rw [renameStmts, s.rename_id, renameStmts_id]

end

/-- A scope is made of names and slots, and slots are never renamed. -/
theorem Scope.rename_id (scope : Scope) : scope.rename id = scope := by
  simp [Scope.rename]

end ScriptSsa
