import ScriptSsa.Scope.Basic

/-!
What stands directly in a body: the uses of variables and the functions that are reached without entering
another function.

The search for captured names goes down through nested functions with a stack of shadows. Here a body is
read one function at a time, and `usesOf_eq` says that the search is what its items contribute, each under
the shadows that are already there.
-/

namespace ScriptSsa

/-- A use of a variable or a nested function. -/
inductive Item where
  | use (use : Use)
  | function (function : Function)

/-- The uses that an item contributes below the given shadows. -/
def Item.uses (shadows : List Shadow) : Item → List Use
  | use u => u.escaping shadows
  | function f => f.uses shadows

mutual

/-- The items of an expression. The name that `delete` is applied to counts as a read. -/
def Expr.items : Expr → List Item
  | .ident name => [.use ⟨.read, name⟩]
  | .literal _ | .this | .unsupported _ => []
  | .array es => itemsOfElements es
  | .object ps => itemsOfProperties ps
  | .function f => [.function f]
  | .unary _ e => e.items
  | .update _ _ (.ident name) => [.use ⟨.write, name⟩, .use ⟨.read, name⟩]
  | .update _ _ e => e.items
  | .binary _ l r => l.items ++ r.items
  | .logical _ l r => l.items ++ r.items
  | .assign op (.ident name) r =>
    .use ⟨.write, name⟩ :: (if op.binary?.isSome then [.use ⟨.read, name⟩] else []) ++ r.items
  | .assign _ l r => l.items ++ r.items
  | .conditional t c a => t.items ++ c.items ++ a.items
  | .sequence es => itemsOfExprs es
  | .member o p computed => o.items ++ if computed then p.items else []
  | .call f es => f.items ++ itemsOfExprs es
  | .new f es => f.items ++ itemsOfExprs es

def itemsOfExprs : List Expr → List Item
  | [] => []
  | e :: es => e.items ++ itemsOfExprs es

def itemsOfElements : List (Option Expr) → List Item
  | [] => []
  | none :: es => itemsOfElements es
  | some e :: es => e.items ++ itemsOfElements es

def itemsOfProperties : List Property → List Item
  | [] => []
  | ⟨key, value, _, computed⟩ :: ps =>
    (if computed then key.items else []) ++ value.items ++ itemsOfProperties ps

end

def itemsOfOptional : Option Expr → List Item
  | none => []
  | some e => e.items

def itemsOfDeclarators : List Declarator → List Item
  | [] => []
  | ⟨target, init⟩ :: ds => target.items ++ itemsOfOptional init ++ itemsOfDeclarators ds

def VarDecl.items : VarDecl → List Item
  | ⟨_, ds⟩ => itemsOfDeclarators ds

def itemsOfInit : Option ForInit → List Item
  | none => []
  | some (.var d) => d.items
  | some (.expr e) => e.items

mutual

def Stmt.items : Stmt → List Item
  | .var d => d.items
  | .function f => [.function f]
  | .expr e => e.items
  | .block body => itemsOf body
  | .branch t c a => t.items ++ c.items ++ itemsOfAlternate a
  | .whileLoop t b => t.items ++ b.items
  | .doWhile b t => b.items ++ t.items
  | .forLoop i t u b => itemsOfInit i ++ itemsOfOptional t ++ itemsOfOptional u ++ b.items
  | .ret e => itemsOfOptional e
  | .labeled _ b => b.items
  | .empty | .jump _ _ | .unsupported _ => []

def itemsOfAlternate : Option Stmt → List Item
  | none => []
  | some s => s.items

/-- The items of a function's body. -/
def itemsOf : List Stmt → List Item
  | [] => []
  | s :: ss => s.items ++ itemsOf ss

end

mutual

/-- The uses in an expression are those of the items that stand directly in it, each under the same shadows. -/
theorem Expr.uses_eq (shadows : List Shadow) :
    (e : Expr) → e.uses shadows = e.items.flatMap (Item.uses shadows)
  | .ident _ => by simp [Expr.uses, Expr.items, Item.uses]
  | .literal _ | .this | .unsupported _ => by simp [Expr.uses, Expr.items]
  | .array es => by rw [Expr.uses, Expr.items, usesOfElements_eq]
  | .object ps => by rw [Expr.uses, Expr.items, usesOfProperties_eq]
  | .function _ => by simp [Expr.uses, Expr.items, Item.uses]
  | .unary _ e => by rw [Expr.uses, Expr.items, e.uses_eq shadows]
  | .update _ _ e => by
    have ih := e.uses_eq shadows
    cases e <;> simp_all [Expr.uses, Expr.items, Item.uses]
  | .binary _ l r => by
    rw [Expr.uses, Expr.items, List.flatMap_append, l.uses_eq shadows, r.uses_eq shadows]
  | .logical _ l r => by
    rw [Expr.uses, Expr.items, List.flatMap_append, l.uses_eq shadows, r.uses_eq shadows]
  | .assign op l r => by
    have hl := l.uses_eq shadows
    have hr := r.uses_eq shadows
    by_cases h : op.binary?.isSome <;> cases l <;> simp_all [Expr.uses, Expr.items, Item.uses]
  | .conditional t c a => by
    rw [Expr.uses, Expr.items, List.flatMap_append, List.flatMap_append, t.uses_eq shadows,
      c.uses_eq shadows, a.uses_eq shadows]
  | .sequence es => by rw [Expr.uses, Expr.items, usesOfExprs_eq]
  | .member o p computed => by
    have ho := o.uses_eq shadows
    have hp := p.uses_eq shadows
    cases computed <;> simp [Expr.uses, Expr.items, ho, hp]
  | .call f es => by
    rw [Expr.uses, Expr.items, List.flatMap_append, f.uses_eq shadows, usesOfExprs_eq]
  | .new f es => by
    rw [Expr.uses, Expr.items, List.flatMap_append, f.uses_eq shadows, usesOfExprs_eq]

theorem usesOfExprs_eq (shadows : List Shadow) :
    (es : List Expr) → usesOfExprs shadows es = (itemsOfExprs es).flatMap (Item.uses shadows)
  | [] => by simp [usesOfExprs, itemsOfExprs]
  | e :: es => by
    rw [usesOfExprs, itemsOfExprs, List.flatMap_append, e.uses_eq shadows, usesOfExprs_eq]

theorem usesOfElements_eq (shadows : List Shadow) :
    (es : List (Option Expr)) →
      usesOfElements shadows es = (itemsOfElements es).flatMap (Item.uses shadows)
  | [] => by simp [usesOfElements, itemsOfElements]
  | none :: es => by rw [usesOfElements, itemsOfElements, usesOfElements_eq]
  | some e :: es => by
    rw [usesOfElements, itemsOfElements, List.flatMap_append, e.uses_eq shadows, usesOfElements_eq]

/-- A key that is not computed uses nothing. -/
theorem usesOfProperties_eq (shadows : List Shadow) :
    (ps : List Property) →
      usesOfProperties shadows ps = (itemsOfProperties ps).flatMap (Item.uses shadows)
  | [] => by simp [usesOfProperties, itemsOfProperties]
  | ⟨key, value, _, computed⟩ :: ps => by
    have hkey := key.uses_eq shadows
    have hvalue := value.uses_eq shadows
    have hps := usesOfProperties_eq shadows ps
    cases computed <;> simp [usesOfProperties, itemsOfProperties, hkey, hvalue, hps]

end

theorem usesOfOptional_eq (shadows : List Shadow) (e : Option Expr) :
    usesOfOptional shadows e = (itemsOfOptional e).flatMap (Item.uses shadows) := by
  cases e with
  | none => simp [usesOfOptional, itemsOfOptional]
  | some e => rw [usesOfOptional, itemsOfOptional, e.uses_eq shadows]

/-- The target of a declarator counts as a use, for patterns have expressions in them. -/
theorem usesOfDeclarators_eq (shadows : List Shadow) (ds : List Declarator) :
    usesOfDeclarators shadows ds = (itemsOfDeclarators ds).flatMap (Item.uses shadows) := by
  induction ds with
  | nil => simp [usesOfDeclarators, itemsOfDeclarators]
  | cons d ds ih =>
      obtain ⟨target, init⟩ := d
      rw [usesOfDeclarators, itemsOfDeclarators, List.flatMap_append, List.flatMap_append,
        target.uses_eq shadows, usesOfOptional_eq, ih]

theorem VarDecl.uses_eq (shadows : List Shadow) (d : VarDecl) :
    d.uses shadows = d.items.flatMap (Item.uses shadows) := by
  obtain ⟨kind, ds⟩ := d
  rw [VarDecl.uses, VarDecl.items, usesOfDeclarators_eq]

theorem usesOfInit_eq (shadows : List Shadow) (init : Option ForInit) :
    usesOfInit shadows init = (itemsOfInit init).flatMap (Item.uses shadows) := by
  match init with
  | none => simp [usesOfInit, itemsOfInit]
  | some (.var d) => rw [usesOfInit, itemsOfInit, d.uses_eq shadows]
  | some (.expr e) => rw [usesOfInit, itemsOfInit, e.uses_eq shadows]

mutual

/-- Statements declare names, but they add no shadows: that is left to functions. -/
theorem Stmt.uses_eq (shadows : List Shadow) :
    (s : Stmt) → s.uses shadows = s.items.flatMap (Item.uses shadows)
  | .var d => by rw [Stmt.uses, Stmt.items, d.uses_eq shadows]
  | .function _ => by simp [Stmt.uses, Stmt.items, Item.uses]
  | .expr e => by rw [Stmt.uses, Stmt.items, e.uses_eq shadows]
  | .block body => by rw [Stmt.uses, Stmt.items, usesOf_eq]
  | .branch t c a => by
    rw [Stmt.uses, Stmt.items, List.flatMap_append, List.flatMap_append, t.uses_eq shadows,
      c.uses_eq shadows, usesOfAlternate_eq]
  | .whileLoop t b => by
    rw [Stmt.uses, Stmt.items, List.flatMap_append, t.uses_eq shadows, b.uses_eq shadows]
  | .doWhile b t => by
    rw [Stmt.uses, Stmt.items, List.flatMap_append, t.uses_eq shadows, b.uses_eq shadows]
  | .forLoop i t u b => by
    rw [Stmt.uses, Stmt.items, List.flatMap_append, List.flatMap_append, List.flatMap_append,
      usesOfInit_eq, usesOfOptional_eq, usesOfOptional_eq, b.uses_eq shadows]
  | .ret e => by rw [Stmt.uses, Stmt.items, usesOfOptional_eq]
  | .labeled _ b => by rw [Stmt.uses, Stmt.items, b.uses_eq shadows]
  | .empty | .jump _ _ | .unsupported _ => by simp [Stmt.uses, Stmt.items]

theorem usesOfAlternate_eq (shadows : List Shadow) :
    (s : Option Stmt) → usesOfAlternate shadows s = (itemsOfAlternate s).flatMap (Item.uses shadows)
  | none => by simp [usesOfAlternate, itemsOfAlternate]
  | some s => by rw [usesOfAlternate, itemsOfAlternate, s.uses_eq shadows]

/-- So the uses in a body are told by its items. -/
theorem usesOf_eq (shadows : List Shadow) :
    (body : List Stmt) → usesOf shadows body = (itemsOf body).flatMap (Item.uses shadows)
  | [] => by simp [usesOf, itemsOf]
  | s :: ss => by rw [usesOf, itemsOf, List.flatMap_append, s.uses_eq shadows, usesOf_eq]

end

end ScriptSsa
