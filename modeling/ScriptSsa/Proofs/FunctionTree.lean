import ScriptSsa.Proofs.Support
import ScriptSsa.Syntax.Walk

/-!
The tree of a script's functions.

A node of the tree is a function. Below it stand the functions directly inside it: first those that it declares, at
whatever statement position, then those of its expressions, both in the order in which lowering meets them. Whether
control can reach the place makes no difference. `count_walk` says that the tree leaves no function out: a walk
over the whole script meets the same functions.
-/

namespace ScriptSsa

/-- Something for each function: what belongs to the function itself, then the trees of the functions directly
inside it. -/
inductive FunctionTree (α : Type) where
  | node (label : α) (inner : List (FunctionTree α))

namespace FunctionTree

variable {α β : Type}

/-- What belongs to the outermost function. -/
def label : FunctionTree α → α
  | node label _ => label

/-- The trees of the functions directly inside it. -/
def inner : FunctionTree α → List (FunctionTree α)
  | node _ inner => inner

mutual

def map (f : α → β) : FunctionTree α → FunctionTree β
  | node label inner => node (f label) (mapAll f inner)

def mapAll (f : α → β) : List (FunctionTree α) → List (FunctionTree β)
  | [] => []
  | tree :: trees => tree.map f :: mapAll f trees

end

mutual

/-- The labels, each after those below it. -/
def postorder : FunctionTree α → List α
  | node label inner => postorderAll inner ++ [label]

def postorderAll : List (FunctionTree α) → List α
  | [] => []
  | tree :: trees => tree.postorder ++ postorderAll trees

end

mutual

/-- The trees of all functions, the outermost first. -/
def nodes : FunctionTree α → List (FunctionTree α)
  | node label inner => node label inner :: nodesAll inner

def nodesAll : List (FunctionTree α) → List (FunctionTree α)
  | [] => []
  | tree :: trees => tree.nodes ++ nodesAll trees

end

/-- Labels are changed tree by tree. -/
theorem mapAll_eq (f : α → β) (trees : List (FunctionTree α)) : mapAll f trees = trees.map (map f) := by
  induction trees with
  | nil => rfl
  | cons tree trees ih => rw [mapAll, ih, List.map_cons]

/-- Trees that stand side by side are gone through one after the other. -/
theorem postorderAll_append (trees trees' : List (FunctionTree α)) :
    postorderAll (trees ++ trees') = postorderAll trees ++ postorderAll trees' := by
  induction trees with
  | nil => rfl
  | cons tree trees ih => rw [List.cons_append, postorderAll, ih, postorderAll, List.append_assoc]

theorem nodesAll_append (trees trees' : List (FunctionTree α)) :
    nodesAll (trees ++ trees') = nodesAll trees ++ nodesAll trees' := by
  induction trees with
  | nil => rfl
  | cons tree trees ih => rw [List.cons_append, nodesAll, ih, nodesAll, List.append_assoc]

/-- Induction from the inner functions outwards. -/
@[elab_as_elim]
theorem induct {motive : FunctionTree α → Prop}
    (node : ∀ label inner, (∀ tree ∈ inner, motive tree) → motive (.node label inner)) :
    (tree : FunctionTree α) → motive tree
  | .node label inner => node label inner fun tree _ => induct node tree

end FunctionTree

mutual

/-- The functions directly in an expression, in the order in which they are lowered. -/
def Expr.trees : Expr → List (FunctionTree Function)
  | .ident _ | .literal _ | .this | .unsupported _ => []
  | .array es => treesOfElements es
  | .object ps => treesOfProperties ps
  | .function f => [f.tree]
  | .unary _ e => e.trees
  | .update _ _ e => e.trees
  | .binary _ l r => l.trees ++ r.trees
  | .logical _ l r => l.trees ++ r.trees
  | .assign _ l r => r.trees ++ l.trees
  | .conditional t c a => t.trees ++ (c.trees ++ a.trees)
  | .sequence es => treesOfExprs es
  | .member o p _ => p.trees ++ o.trees
  | .call f es => f.trees ++ treesOfExprs es
  | .new f es => f.trees ++ treesOfExprs es

def treesOfExprs : List Expr → List (FunctionTree Function)
  | [] => []
  | e :: es => e.trees ++ treesOfExprs es

def treesOfOptional : Option Expr → List (FunctionTree Function)
  | none => []
  | some e => e.trees

def treesOfElements : List (Option Expr) → List (FunctionTree Function)
  | [] => []
  | none :: es => treesOfElements es
  | some e :: es => e.trees ++ treesOfElements es

def treesOfProperties : List Property → List (FunctionTree Function)
  | [] => []
  | ⟨key, value, _, _⟩ :: ps => key.trees ++ (value.trees ++ treesOfProperties ps)

/-- A function and all functions inside it. -/
def Function.tree : Function → FunctionTree Function
  | ⟨name, params, body, isGenerator, isAsync⟩ =>
    .node ⟨name, params, body, isGenerator, isAsync⟩ (declaredTreesOf body ++ treesOf body)

def treesOfDeclarators : List Declarator → List (FunctionTree Function)
  | [] => []
  | ⟨target, init⟩ :: ds => target.trees ++ (treesOfOptional init ++ treesOfDeclarators ds)

def VarDecl.trees : VarDecl → List (FunctionTree Function)
  | ⟨_, ds⟩ => treesOfDeclarators ds

def treesOfInit : Option ForInit → List (FunctionTree Function)
  | none => []
  | some (.var d) => d.trees
  | some (.expr e) => e.trees

/-- The functions directly in the expressions of a statement. -/
def Stmt.trees : Stmt → List (FunctionTree Function)
  | .var d => d.trees
  | .expr e => e.trees
  | .block body => treesOf body
  | .branch t c a => t.trees ++ (c.trees ++ treesOfAlternate a)
  | .whileLoop t b => t.trees ++ b.trees
  | .doWhile b t => t.trees ++ b.trees
  | .forLoop i t u b => treesOfInit i ++ (treesOfOptional t ++ (b.trees ++ treesOfOptional u))
  | .ret e => treesOfOptional e
  | .labeled _ b => b.trees
  | .function _ | .empty | .jump _ _ | .unsupported _ => []

def treesOfAlternate : Option Stmt → List (FunctionTree Function)
  | none => []
  | some s => s.trees

def treesOf : List Stmt → List (FunctionTree Function)
  | [] => []
  | s :: ss => s.trees ++ treesOf ss

/-- The functions that a statement declares. -/
def Stmt.declaredTrees : Stmt → List (FunctionTree Function)
  | .function f => [f.tree]
  | .block body => declaredTreesOf body
  | .branch _ c a => c.declaredTrees ++ declaredTreesOfAlternate a
  | .whileLoop _ b => b.declaredTrees
  | .doWhile b _ => b.declaredTrees
  | .forLoop _ _ _ b => b.declaredTrees
  | .labeled _ b => b.declaredTrees
  | .var _ | .expr _ | .empty | .jump _ _ | .ret _ | .unsupported _ => []

def declaredTreesOfAlternate : Option Stmt → List (FunctionTree Function)
  | none => []
  | some s => s.declaredTrees

def declaredTreesOf : List Stmt → List (FunctionTree Function)
  | [] => []
  | s :: ss => s.declaredTrees ++ declaredTreesOf ss

end

/-- Below a function stand those that it declares, then those in its code. -/
theorem Function.tree_eq (fn : Function) : fn.tree = .node fn (declaredTreesOf fn.body ++ treesOf fn.body) := by
  cases fn
  rfl

/-! A walk over the whole script meets the same functions. -/

section Walk

variable (name : Option String)

/-- How many functions of the trees have the name. -/
def countNamed (trees : List (FunctionTree Function)) : Nat :=
  (FunctionTree.postorderAll trees).countP fun f => f.name = name

/-- How often a walk enters a function of that name. -/
def countEvents (events : List Event) : Nat := events.count (.function name)

@[simp] theorem countNamed_nil : countNamed name [] = 0 := rfl

@[simp] theorem countNamed_append (trees trees' : List (FunctionTree Function)) :
    countNamed name (trees ++ trees') = countNamed name trees + countNamed name trees' := by
  rw [countNamed, FunctionTree.postorderAll_append, List.countP_append]
  rfl

/-- A function counts itself behind what is below it. -/
theorem countNamed_tree (fn : Function) :
    countNamed name [fn.tree] =
      countNamed name (declaredTreesOf fn.body) + countNamed name (treesOf fn.body) +
        if fn.name = name then 1 else 0 := by
  rw [← countNamed_append, countNamed, fn.tree_eq, FunctionTree.postorderAll, FunctionTree.postorderAll,
    FunctionTree.postorder, List.append_nil, List.countP_append, List.countP_singleton]
  simp only [decide_eq_true_eq]
  rfl

@[simp] theorem countEvents_nil : countEvents name [] = 0 := rfl

@[simp] theorem countEvents_append (events events' : List Event) :
    countEvents name (events ++ events') = countEvents name events + countEvents name events' :=
  List.count_append

/-- To enter a node that is no function changes no count. -/
@[simp] theorem countEvents_enter {event : Event} (h : event ≠ .function name) (below : List Event) :
    countEvents name (event.enter (fun _ => true) below) = countEvents name below :=
  List.count_cons_of_ne h

@[simp] theorem countEvents_ident (x : String) : countEvents name [.ident x] = 0 :=
  List.count_eq_zero.mpr (by simp)

/-- The walk meets a function with its name when it enters it. -/
theorem countEvents_function (own : Option String) (below : List Event) :
    countEvents name (Event.enter (fun _ => true) (.function own) below) =
      countEvents name below + if own = name then 1 else 0 := by
  rw [countEvents, Event.enter, List.count_cons]
  simp [countEvents]

/-- Names have no functions in them. -/
theorem Expr.trees_of_ident? {e : Expr} (h : e.ident?.isSome = true) : e.trees = [] := by
  cases e with
  | ident x => rfl
  | _ => cases h

theorem Expr.count_walk_of_ident? {e : Expr} (h : e.ident?.isSome = true) :
    countEvents name (e.walk fun _ => true) = 0 := by
  cases e with
  | ident x =>
      rw [Expr.walk]
      simp
  | _ => cases h

theorem Expr.trees_of_isPropertyName {e : Expr} (h : e.isPropertyName = true) : e.trees = [] := by
  cases e with
  | ident x => rfl
  | literal l => rfl
  | _ => cases h

/-- Parameters that can be lowered are names, and a walk meets no function in names. -/
theorem count_walkExprs_params {params : List Expr} (h : (params.all fun e => e.ident?.isSome) = true) :
    countEvents name (walkExprs (fun _ => true) params) = 0 := by
  induction params with
  | nil => rfl
  | cons e es ih =>
      rw [List.all_cons, Bool.and_eq_true] at h
      rw [walkExprs, countEvents_append, Expr.count_walk_of_ident? name h.1, ih h.2]

/-- The walk meets the functions of the statement. -/
def Stmt.Counted (s : Stmt) : Prop :=
  countEvents name (s.walk fun _ => true) = countNamed name s.declaredTrees + countNamed name s.trees

variable {name}

theorem Stmt.Counted.whileLoop {t : Expr} {b : Stmt}
    (ht : countEvents name (t.walk fun _ => true) = countNamed name t.trees) (hb : b.Counted name) :
    (Stmt.whileLoop t b).Counted name := by
  rw [Stmt.Counted] at hb ⊢
  simp only [Stmt.walk, Stmt.declaredTrees, Stmt.trees, countEvents_enter, ne_eq, reduceCtorEq, not_false_eq_true,
    countEvents_append, countNamed_append, ht, hb]
  omega

theorem Stmt.Counted.doWhile {t : Expr} {b : Stmt}
    (ht : countEvents name (t.walk fun _ => true) = countNamed name t.trees) (hb : b.Counted name) :
    (Stmt.doWhile b t).Counted name := by
  rw [Stmt.Counted] at hb ⊢
  simp only [Stmt.walk, Stmt.declaredTrees, Stmt.trees, countEvents_enter, ne_eq, reduceCtorEq, not_false_eq_true,
    countEvents_append, countNamed_append, ht, hb]
  omega

theorem Stmt.Counted.forLoop {i : Option ForInit} {t u : Option Expr} {b : Stmt}
    (hi : countEvents name (walkInit (fun _ => true) i) = countNamed name (treesOfInit i))
    (ht : countEvents name (walkOptional (fun _ => true) t) = countNamed name (treesOfOptional t))
    (hu : countEvents name (walkOptional (fun _ => true) u) = countNamed name (treesOfOptional u))
    (hb : b.Counted name) : (Stmt.forLoop i t u b).Counted name := by
  rw [Stmt.Counted] at hb ⊢
  simp only [Stmt.walk, Stmt.declaredTrees, Stmt.trees, countEvents_enter, ne_eq, reduceCtorEq, not_false_eq_true,
    countEvents_append, countNamed_append, hi, ht, hu, hb]
  omega

variable (name)

mutual

/-- In what can be lowered, the walk over the syntax meets each function as often as the trees have it, name by name. -/
theorem Expr.count_walk : (e : Expr) → e.isSupported = true →
    countEvents name (e.walk fun _ => true) = countNamed name e.trees
  | .ident x, _ => by
    rw [Expr.walk, Expr.trees]
    simp
  | .literal l, _ => by
    rw [Expr.walk, Expr.trees]
    simp
  | .this, _ => by
    rw [Expr.walk, Expr.trees]
    simp
  | .array es, h => by
    rw [Expr.isSupported] at h
    simp [Expr.walk, Expr.trees, count_walkElements es h]
  | .object ps, h => by
    rw [Expr.isSupported] at h
    simp [Expr.walk, Expr.trees, count_walkProperties ps h]
  | .function f, h => by
    rw [Expr.isSupported] at h
    simp [Expr.walk, Expr.trees, f.count_walk h]
  | .unary op e, h => by
    rw [Expr.isSupported] at h
    simp [Expr.walk, Expr.trees, e.count_walk h]
  | .update op isPrefix e, h => by
    rw [Expr.isSupported, Bool.and_eq_true] at h
    simp [Expr.walk, Expr.trees, e.count_walk h.2]
  | .binary op l r, h | .logical op l r, h => by
    rw [Expr.isSupported, Bool.and_eq_true] at h
    simp [Expr.walk, Expr.trees, l.count_walk h.1, r.count_walk h.2]
  | .assign op l r, h => by
    rw [Expr.isSupported, Bool.and_eq_true, Bool.and_eq_true] at h
    simp [Expr.walk, Expr.trees, l.count_walk h.1.2, r.count_walk h.2, Nat.add_comm]
  | .conditional t c a, h => by
    rw [Expr.isSupported, Bool.and_eq_true, Bool.and_eq_true] at h
    simp [Expr.walk, Expr.trees, t.count_walk h.1.1, c.count_walk h.1.2, a.count_walk h.2]
  | .sequence es, h => by
    rw [Expr.isSupported] at h
    simp [Expr.walk, Expr.trees, count_walkExprs es h]
  | .member o p computed, h => by
    rw [Expr.isSupported, Bool.and_eq_true] at h
    have hp := p.count_walk
    have ho := o.count_walk h.2
    cases computed with
    | true => simp [Expr.walk, Expr.trees, ho, hp h.1, Nat.add_comm]
    | false => simp [Expr.walk, Expr.trees, ho, Expr.trees_of_ident? h.1]
  | .call f es, h | .new f es, h => by
    rw [Expr.isSupported, Bool.and_eq_true] at h
    simp [Expr.walk, Expr.trees, f.count_walk h.1, count_walkExprs es h.2]
  | .unsupported kind, h => by
    rw [Expr.isSupported] at h
    cases h

theorem count_walkExprs : (es : List Expr) → areSupportedExprs es = true →
    countEvents name (walkExprs (fun _ => true) es) = countNamed name (treesOfExprs es)
  | [], _ => rfl
  | e :: es, h => by
    rw [areSupportedExprs, Bool.and_eq_true] at h
    simp [walkExprs, treesOfExprs, e.count_walk h.1, count_walkExprs es h.2]

theorem count_walkOptional : (e : Option Expr) → isSupportedOptional e = true →
    countEvents name (walkOptional (fun _ => true) e) = countNamed name (treesOfOptional e)
  | none, _ => rfl
  | some e, h => e.count_walk h

theorem count_walkElements : (es : List (Option Expr)) → areSupportedElements es = true →
    countEvents name (walkElements (fun _ => true) es) = countNamed name (treesOfElements es)
  | [], _ => rfl
  | none :: es, h => count_walkElements es h
  | some e :: es, h => by
    rw [areSupportedElements, Bool.and_eq_true] at h
    simp [walkElements, treesOfElements, e.count_walk h.1, count_walkElements es h.2]

theorem count_walkProperties : (ps : List Property) → areSupportedProperties ps = true →
    countEvents name (walkProperties (fun _ => true) ps) = countNamed name (treesOfProperties ps)
  | [], _ => rfl
  | ⟨key, value, kind, computed⟩ :: ps, h => by
    simp only [areSupportedProperties, Bool.and_eq_true, Bool.not_eq_true'] at h
    obtain ⟨⟨⟨⟨_, hcomputed⟩, hkey⟩, hvalue⟩, hrest⟩ := h
    simp [walkProperties, treesOfProperties, hcomputed, Expr.trees_of_isPropertyName hkey, value.count_walk hvalue,
      count_walkProperties ps hrest]

/-- The function itself included. -/
theorem Function.count_walk : (f : Function) → f.isSupported = true →
    countEvents name (f.walk fun _ => true) = countNamed name [f.tree]
  | ⟨own, params, body, isGenerator, isAsync⟩, h => by
    rw [Function.isSupported, Bool.and_eq_true, Bool.and_eq_true] at h
    rw [Function.walk, countEvents_function, countNamed_tree, countEvents_append, count_walkExprs_params name h.1.2,
      count_walkStmts body [] h.2, Nat.zero_add]

theorem count_walkDeclarators : (ds : List Declarator) → areSupportedDeclarators ds = true →
    countEvents name (walkDeclarators (fun _ => true) ds) = countNamed name (treesOfDeclarators ds)
  | [], _ => rfl
  | ⟨target, init⟩ :: ds, h => by
    rw [areSupportedDeclarators, Bool.and_eq_true, Bool.and_eq_true] at h
    simp [walkDeclarators, treesOfDeclarators, Expr.count_walk_of_ident? name h.1.1, Expr.trees_of_ident? h.1.1,
      count_walkOptional init h.1.2, count_walkDeclarators ds h.2]

theorem VarDecl.count_walk : (d : VarDecl) → d.isSupported = true →
    countEvents name (d.walk fun _ => true) = countNamed name d.trees
  | ⟨kind, ds⟩, h => by
    rw [VarDecl.isSupported, Bool.and_eq_true] at h
    simp [VarDecl.walk, VarDecl.trees, count_walkDeclarators ds h.2]

theorem count_walkInit : (i : Option ForInit) → isSupportedInit i = true →
    countEvents name (walkInit (fun _ => true) i) = countNamed name (treesOfInit i)
  | none, _ => rfl
  | some (.var d), h => d.count_walk h
  | some (.expr e), h => e.count_walk h

/-- What a statement declares and what stands in its code are counted apart, and the walk meets both where they stand.
-/
theorem Stmt.count_walk : (s : Stmt) → ∀ loops, s.isSupported loops = true → s.Counted name
  | .var d, _, h => by
    rw [Stmt.isSupported] at h
    simp [Stmt.Counted, Stmt.walk, Stmt.declaredTrees, Stmt.trees, d.count_walk h]
  | .function f, _, h => by
    rw [Stmt.isSupported] at h
    simp [Stmt.Counted, Stmt.walk, Stmt.declaredTrees, Stmt.trees, f.count_walk h]
  | .expr e, _, h => by
    rw [Stmt.isSupported] at h
    simp [Stmt.Counted, Stmt.walk, Stmt.declaredTrees, Stmt.trees, e.count_walk h]
  | .block body, loops, h => by
    rw [Stmt.isSupported] at h
    simp [Stmt.Counted, Stmt.walk, Stmt.declaredTrees, Stmt.trees, count_walkStmts body loops h]
  | .empty, _, _ | .jump _ _, _, _ => by
    simp [Stmt.Counted, Stmt.walk, Stmt.declaredTrees, Stmt.trees]
  | .branch t c a, loops, h => by
    rw [Stmt.isSupported, Bool.and_eq_true, Bool.and_eq_true] at h
    have hc := c.count_walk loops h.1.2
    rw [Stmt.Counted] at hc ⊢
    simp only [Stmt.walk, Stmt.declaredTrees, Stmt.trees, countEvents_enter, ne_eq, reduceCtorEq, not_false_eq_true,
      countEvents_append, countNamed_append, t.count_walk h.1.1, hc, count_walkAlternate a loops h.2]
    omega
  | .whileLoop t b, loops, h => by
    rw [Stmt.isSupported, Bool.and_eq_true] at h
    exact .whileLoop (t.count_walk h.1) (b.count_walk _ h.2)
  | .doWhile b t, loops, h => by
    rw [Stmt.isSupported, Bool.and_eq_true] at h
    exact .doWhile (t.count_walk h.1) (b.count_walk _ h.2)
  | .forLoop i t u b, loops, h => by
    simp only [Stmt.isSupported, Bool.and_eq_true] at h
    exact .forLoop (count_walkInit i h.1.1.1) (count_walkOptional t h.1.1.2) (count_walkOptional u h.1.2)
      (b.count_walk _ h.2)
  | .ret e, _, h => by
    rw [Stmt.isSupported] at h
    simp [Stmt.Counted, Stmt.walk, Stmt.declaredTrees, Stmt.trees, count_walkOptional e h]
  | .labeled label b, loops, h => by
    rw [Stmt.isSupported] at h
    have hb := b.count_walk_loop [label] loops h
    rw [Stmt.Counted] at hb ⊢
    simp [Stmt.walk, Stmt.declaredTrees, Stmt.trees, hb]
  | .unsupported kind, _, h => by
    rw [Stmt.isSupported] at h
    cases h

/-- Labels do not hide what stands in the loop behind them. -/
theorem Stmt.count_walk_loop : (s : Stmt) → ∀ labels loops, s.isSupportedLoop labels loops = true → s.Counted name
  | .labeled label b, labels, loops, h => by
    rw [Stmt.isSupportedLoop] at h
    have hb := b.count_walk_loop _ loops h
    rw [Stmt.Counted] at hb ⊢
    simp [Stmt.walk, Stmt.declaredTrees, Stmt.trees, hb]
  | .whileLoop t b, labels, loops, h => by
    rw [Stmt.isSupportedLoop, Bool.and_eq_true] at h
    exact .whileLoop (t.count_walk h.1) (b.count_walk _ h.2)
  | .doWhile b t, labels, loops, h => by
    rw [Stmt.isSupportedLoop, Bool.and_eq_true] at h
    exact .doWhile (t.count_walk h.1) (b.count_walk _ h.2)
  | .forLoop i t u b, labels, loops, h => by
    simp only [Stmt.isSupportedLoop, Bool.and_eq_true] at h
    exact .forLoop (count_walkInit i h.1.1.1) (count_walkOptional t h.1.1.2) (count_walkOptional u h.1.2)
      (b.count_walk _ h.2)
  | .var _, _, _, h | .function _, _, _, h | .expr _, _, _, h | .block _, _, _, h | .empty, _, _, h
  | .branch _ _ _, _, _, h | .jump _ _, _, _, h | .ret _, _, _, h | .unsupported _, _, _, h => by
    simp [Stmt.isSupportedLoop] at h

theorem count_walkAlternate : (s : Option Stmt) → ∀ loops, isSupportedAlternate loops s = true →
    countEvents name (walkAlternate (fun _ => true) s) =
      countNamed name (declaredTreesOfAlternate s) + countNamed name (treesOfAlternate s)
  | none, _, _ => rfl
  | some s, loops, h => s.count_walk loops h

/-- So the walk over a body meets all functions below it. -/
theorem count_walkStmts : (ss : List Stmt) → ∀ loops, areSupported loops ss = true →
    countEvents name (walkStmts (fun _ => true) ss) =
      countNamed name (declaredTreesOf ss) + countNamed name (treesOf ss)
  | [], _, _ => rfl
  | s :: ss, loops, h => by
    rw [areSupported, Bool.and_eq_true] at h
    rw [walkStmts, declaredTreesOf, treesOf, countEvents_append, countNamed_append, countNamed_append,
      s.count_walk loops h.1, count_walkStmts ss loops h.2]
    omega

end

end Walk

end ScriptSsa
