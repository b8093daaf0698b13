import ScriptSsa.Proofs.FunctionTree
import ScriptSsa.Proofs.ReadsAndCalls

/-!
What the lowering of a syntax tree comes to, as far as the tree tells.

A summary collects what is counted while a part of a tree is lowered: its reads of local variables, its calls and
merges, the functions it finishes, the trees these form, and whether it can be lowered inside loops with given
labels. The summary of a part is put together from those of the parts inside it, in the order in which these are
lowered. A body is gone over twice, once for the functions that it declares and once for its code.
-/

namespace ScriptSsa

@[ext]
structure Summary where
  reads : Nat
  calls : List Expr
  merges : Nat
  functions : List Function
  trees : List (FunctionTree Function)
  /-- Whether nothing is refused inside loops with the given labels. -/
  supported : List (List String) → Bool

namespace Summary

/-- Of two parts, one lowered after the other. -/
instance : Append Summary where
  append σ τ := ⟨σ.reads + τ.reads, σ.calls ++ τ.calls, σ.merges + τ.merges, σ.functions ++ τ.functions,
    σ.trees ++ τ.trees, fun loops => σ.supported loops && τ.supported loops⟩

/-- Nothing that counts is done. -/
def idle : Summary := ⟨0, [], 0, [], [], fun _ => true⟩

/-- A name is read. -/
def read (names : Names) (name : String) : Summary := { idle with reads := names.localRead name }

def merge : Summary := { idle with merges := 1 }

/-- A jump needs a loop that its label selects. -/
def jump (label : Option String) : Summary := { idle with supported := fun loops => loops.any (selects label) }

/-- Of the body of a loop with the given labels. -/
def inLoop (labels : List String) (σ : Summary) : Summary :=
  { σ with supported := fun loops => σ.supported (labels :: loops) }

variable (σ τ : Summary)

@[simp] theorem reads_append : (σ ++ τ).reads = σ.reads + τ.reads := rfl

@[simp] theorem calls_append : (σ ++ τ).calls = σ.calls ++ τ.calls := rfl

@[simp] theorem merges_append : (σ ++ τ).merges = σ.merges + τ.merges := rfl

@[simp] theorem functions_append : (σ ++ τ).functions = σ.functions ++ τ.functions := rfl

@[simp] theorem trees_append : (σ ++ τ).trees = σ.trees ++ τ.trees := rfl

@[simp] theorem supported_append (loops : List (List String)) :
    (σ ++ τ).supported loops = (σ.supported loops && τ.supported loops) := rfl

@[simp] theorem append_idle : σ ++ idle = σ := by
  apply Summary.ext <;> simp [idle]
  funext loops
  simp

@[simp] theorem idle_append : idle ++ σ = σ := by
  apply Summary.ext <;> simp [idle]
  funext loops
  simp

end Summary

/-! Expressions. -/

def Expr.summary (names : Names) (e : Expr) : Summary :=
  ⟨e.localReads names, e.calls, e.merges, e.functions, e.trees, fun _ => e.isSupported⟩

/-- The key of a property access. -/
def keySummary (names : Names) (property : Expr) (computed : Bool) : Summary :=
  ⟨if computed then property.localReads names else 0, if computed then property.calls else [], property.merges,
    property.functions, property.trees, fun _ => if computed then property.isSupported else property.ident?.isSome⟩

/-- The key of a property in an object literal, which cannot be computed. -/
def propertyKeySummary (names : Names) (kind : PropertyKind) (computed : Bool) (key : Expr) : Summary :=
  ⟨if computed then key.localReads names else 0, if computed then key.calls else [], key.merges, key.functions,
    key.trees, fun _ => kind = .init && !computed && key.isPropertyName⟩

def summaryOfExprs (names : Names) (es : List Expr) : Summary :=
  ⟨localReadsOfExprs names es, callsOfExprs es, mergesOfExprs es, functionsOfExprs es, treesOfExprs es,
    fun _ => areSupportedExprs es⟩

def summaryOfElements (names : Names) (es : List (Option Expr)) : Summary :=
  ⟨localReadsOfElements names es, callsOfElements es, mergesOfElements es, functionsOfElements es, treesOfElements es,
    fun _ => areSupportedElements es⟩

def summaryOfProperties (names : Names) (ps : List Property) : Summary :=
  ⟨localReadsOfProperties names ps, callsOfProperties ps, mergesOfProperties ps, functionsOfProperties ps,
    treesOfProperties ps, fun _ => areSupportedProperties ps⟩

/-- The calls and merges of a nested function are its own. -/
def Function.summary (names : Names) (fn : Function) : Summary :=
  ⟨fn.localReads names, [], 0, fn.functions, [fn.tree], fun _ => fn.isSupported⟩

variable (names : Names)

namespace Expr

theorem summary_array (es : List (Option Expr)) : (array es).summary names = summaryOfElements names es := rfl

theorem summary_object (ps : List Property) : (object ps).summary names = summaryOfProperties names ps := rfl

/-- Deleting a bare name does not read it. -/
theorem summary_unary {op : UnaryOp} {e : Expr} (h : ∀ name, op = .delete → e ≠ .ident name) :
    (unary op e).summary names = e.summary names := by
  cases op with
  | delete =>
      cases e with
      | ident name => exact absurd rfl (h name rfl)
      | _ => rfl
  | _ => rfl

theorem summary_binary (op : BinaryOp) (l r : Expr) :
    (binary op l r).summary names = l.summary names ++ r.summary names := rfl

/-- A logical operator merges its two arms, of which the first only hands its value on. -/
theorem summary_logical (op : LogicalOp) (l r : Expr) :
    (logical op l r).summary names = l.summary names ++ (.merge ++ (.idle ++ r.summary names)) := by
  rw [Summary.idle_append]
  refine Summary.ext ?_ rfl ?_ rfl rfl rfl
  · exact congrArg (l.localReads names + ·) (Nat.zero_add _).symm
  · exact (Nat.add_assoc _ _ _).trans (congrArg _ (Nat.add_comm _ _))

theorem summary_conditional (t c a : Expr) :
    (conditional t c a).summary names = t.summary names ++ (.merge ++ (c.summary names ++ a.summary names)) := by
  refine Summary.ext ?_ rfl ?_ (List.append_assoc _ _ _) rfl ?_
  · simp [summary, localReads, Summary.merge, Summary.idle, Nat.add_assoc]
  · simp [summary, merges, Summary.merge, Summary.idle]
    omega
  · funext loops
    exact Bool.and_assoc _ _ _

/-- The key of a member expression is lowered before its object. -/
theorem summary_member (o p : Expr) (computed : Bool) :
    (member o p computed).summary names = keySummary names p computed ++ o.summary names :=
  Summary.ext (Nat.add_comm _ _) rfl rfl rfl rfl rfl

/-- Only a compound assignment reads its target. -/
theorem summary_assign_ident (op : AssignOp) (name : String) (r : Expr) :
    (assign op (.ident name) r).summary names =
      r.summary names ++ if op.binary?.isSome then .read names name else .idle := by
  cases h : op.binary?.isSome <;>
    simp [summary, localReads, calls, merges, functions, trees, isSupported, isReference, Summary.ext_iff,
      Summary.read, Summary.idle, h, Nat.add_comm, funext_iff]

/-- The value of an assignment is lowered before the property it is stored into. -/
theorem summary_assign_member (op : AssignOp) (o p : Expr) (computed : Bool) (r : Expr) :
    (assign op (.member o p computed) r).summary names = r.summary names ++ (member o p computed).summary names := by
  refine Summary.ext (Nat.add_comm _ _) rfl (Nat.add_comm _ _) rfl rfl ?_
  funext loops
  exact Bool.and_comm _ _

end Expr

theorem summaryOfExprs_cons (e : Expr) (es : List Expr) :
    summaryOfExprs names (e :: es) = e.summary names ++ summaryOfExprs names es := rfl

theorem summaryOfElements_cons (e : Expr) (es : List (Option Expr)) :
    summaryOfElements names (some e :: es) = e.summary names ++ summaryOfElements names es := rfl

/-- The key of a property is lowered before its value. -/
theorem summaryOfProperties_cons (key value : Expr) (kind : PropertyKind) (computed : Bool) (ps : List Property) :
    summaryOfProperties names (⟨key, value, kind, computed⟩ :: ps) =
      propertyKeySummary names kind computed key ++ (value.summary names ++ summaryOfProperties names ps) := by
  refine Summary.ext (Nat.add_assoc _ _ _) rfl (Nat.add_assoc _ _ _) (List.append_assoc _ _ _) rfl ?_
  funext loops
  exact Bool.and_assoc _ _ _

/-! Statements. -/

def summaryOfOptional (e : Option Expr) : Summary :=
  ⟨localReadsOfOptional names e, callsOfOptional e, mergesOfOptional e, functionsOfOptional e, treesOfOptional e,
    fun _ => isSupportedOptional e⟩

def summaryOfDeclarators (ds : List Declarator) : Summary :=
  ⟨localReadsOfDeclarators names ds, callsOfDeclarators ds, mergesOfDeclarators ds, functionsOfDeclarators ds,
    treesOfDeclarators ds, fun _ => areSupportedDeclarators ds⟩

def VarDecl.summary (d : VarDecl) : Summary :=
  ⟨d.localReads names, d.calls, d.merges, d.functions, d.trees, fun _ => d.isSupported⟩

def summaryOfInit (init : Option ForInit) : Summary :=
  ⟨localReadsOfInit names init, callsOfInit init, mergesOfInit init, functionsOfInit init, treesOfInit init,
    fun _ => isSupportedInit init⟩

/-- The code of a statement, without the functions that it declares. -/
def Stmt.summary (s : Stmt) : Summary :=
  ⟨s.ownReads names, s.calls, s.merges, s.functions, s.trees, fun loops => s.hasSupportedCode loops⟩

/-- The code of a statement that stands after labels. -/
def Stmt.loopSummary (labels : List String) (s : Stmt) : Summary :=
  { s.summary names with supported := fun loops => s.hasSupportedLoopCode labels loops }

def summaryOfAlternate (s : Option Stmt) : Summary :=
  ⟨ownReadsOfAlternate names s, callsOfAlternate s, mergesOfAlternate s, functionsOfAlternate s, treesOfAlternate s,
    fun loops => hasSupportedCodeAlternate loops s⟩

def summaryOf (body : List Stmt) : Summary :=
  ⟨ownReadsOf names body, callsOf body, mergesOf body, functionsOf body, treesOf body,
    fun loops => haveSupportedCode loops body⟩

/-- A declarator without initializer leaves no code. -/
theorem summaryOfDeclarators_skip (name : String) (ds : List Declarator) :
    summaryOfDeclarators names (⟨.ident name, none⟩ :: ds) = summaryOfDeclarators names ds := by
  refine Summary.ext (Nat.zero_add _) rfl ?_ rfl rfl rfl
  exact Nat.zero_add _

/-- The name that is declared is written, and writes are not counted. -/
theorem summaryOfDeclarators_cons (name : String) (init : Expr) (ds : List Declarator) :
    summaryOfDeclarators names (⟨.ident name, some init⟩ :: ds) =
      init.summary names ++ summaryOfDeclarators names ds := by
  refine Summary.ext rfl rfl ?_ rfl rfl rfl
  exact congrArg (· + _) (Nat.zero_add _)

theorem summaryOf_cons (s : Stmt) (ss : List Stmt) :
    summaryOf names (s :: ss) = s.summary names ++ summaryOf names ss := rfl

namespace Stmt

/-- The arms of a branch are not merged: no value comes out of them. -/
theorem summary_branch (t : Expr) (c : Stmt) (a : Option Stmt) :
    (branch t c a).summary names = t.summary names ++ (c.summary names ++ summaryOfAlternate names a) := by
  refine Summary.ext rfl rfl (Nat.add_assoc _ _ _) (List.append_assoc _ _ _) rfl ?_
  funext loops
  exact Bool.and_assoc _ _ _

theorem summary_whileLoop (t : Expr) (b : Stmt) :
    (whileLoop t b).summary names = (whileLoop t b).loopSummary names [] := rfl

theorem summary_doWhile (b : Stmt) (t : Expr) :
    (doWhile b t).summary names = (doWhile b t).loopSummary names [] := rfl

theorem summary_forLoop (i : Option ForInit) (t u : Option Expr) (b : Stmt) :
    (forLoop i t u b).summary names = (forLoop i t u b).loopSummary names [] := rfl

variable (labels : List String)

/-- The test is lowered before the body, which alone is inside the loop. -/
theorem loopSummary_whileLoop (t : Expr) (b : Stmt) :
    (whileLoop t b).loopSummary names labels = t.summary names ++ ((b.summary names).inLoop labels ++ .idle) := by
  rw [Summary.append_idle]
  rfl

/-- Its test, too, is lowered before its body. -/
theorem loopSummary_doWhile (b : Stmt) (t : Expr) :
    (doWhile b t).loopSummary names labels = t.summary names ++ ((b.summary names).inLoop labels ++ .idle) := by
  rw [Summary.append_idle]
  rfl

/-- The update is lowered last, though it is written before the body. -/
theorem loopSummary_forLoop (i : Option ForInit) (t u : Option Expr) (b : Stmt) :
    (forLoop i t u b).loopSummary names labels = summaryOfInit names i ++
      (summaryOfOptional names t ++ ((b.summary names).inLoop labels ++ summaryOfOptional names u)) := by
  refine Summary.ext rfl rfl ?_ ?_ rfl ?_
  · simp only [loopSummary, summary, merges, Summary.merges_append, summaryOfInit, summaryOfOptional, Summary.inLoop]
    omega
  · simp [loopSummary, summary, functions, summaryOfInit, summaryOfOptional, Summary.inLoop]
  · funext loops
    simp [loopSummary, hasSupportedLoopCode, summaryOfInit, summaryOfOptional, Summary.inLoop, summary,
      Bool.and_assoc, Bool.and_comm (b.hasSupportedCode _)]

end Stmt

/-! Declared functions. -/

/-- The reads in functions that stand side by side. -/
def hoistedReads : List (FunctionTree Function) → Nat
  | [] => 0
  | t :: ts => t.label.localReads names + hoistedReads ts

/-- The functions of two parts are hoisted one after another. -/
theorem hoistedReads_append (trees trees' : List (FunctionTree Function)) :
    hoistedReads names (trees ++ trees') = hoistedReads names trees + hoistedReads names trees' := by
  induction trees with
  | nil => exact (Nat.zero_add _).symm
  | cons t ts ih =>
      rw [List.cons_append, hoistedReads, hoistedReads, ih, Nat.add_assoc]

def Stmt.declaredSummary (s : Stmt) : Summary :=
  ⟨hoistedReads names s.declaredTrees, [], 0, s.declaredFunctions, s.declaredTrees, fun _ => s.hasSupportedDeclarations⟩

def declaredSummaryOfAlternate (s : Option Stmt) : Summary :=
  ⟨hoistedReads names (declaredTreesOfAlternate s), [], 0, declaredFunctionsOfAlternate s, declaredTreesOfAlternate s,
    fun _ => hasSupportedDeclarationsAlternate s⟩

def declaredSummaryOf (body : List Stmt) : Summary :=
  ⟨hoistedReads names (declaredTreesOf body), [], 0, declaredFunctionsOf body, declaredTreesOf body,
    fun _ => haveSupportedDeclarations body⟩

/-- To declare a function is to lower it. -/
theorem Stmt.declaredSummary_function (fn : Function) :
    (Stmt.function fn).declaredSummary names = fn.summary names := by
  cases fn
  rfl

theorem Stmt.declaredSummary_branch (t : Expr) (c : Stmt) (a : Option Stmt) :
    (Stmt.branch t c a).declaredSummary names = c.declaredSummary names ++ declaredSummaryOfAlternate names a :=
  Summary.ext (hoistedReads_append names _ _) rfl rfl rfl rfl rfl

theorem declaredSummaryOf_cons (s : Stmt) (ss : List Stmt) :
    declaredSummaryOf names (s :: ss) = s.declaredSummary names ++ declaredSummaryOf names ss :=
  Summary.ext (hoistedReads_append names _ _) rfl rfl rfl rfl rfl

mutual

/-- The reads of a statement are shared out between the two passes over it. -/
theorem Stmt.localReads_split : (s : Stmt) →
    s.localReads names = hoistedReads names s.declaredTrees + s.ownReads names
  | .function ⟨_, _, _, _, _⟩ => rfl
  | .block body => localReadsOf_split body
  | .branch t c a => by
    have hc := c.localReads_split
    have ha := localReadsOfAlternate_split a
    simp only [Stmt.localReads, Stmt.ownReads, Stmt.declaredTrees, hoistedReads_append]
    omega
  | .whileLoop t b => by
    have hb := b.localReads_split
    simp only [Stmt.localReads, Stmt.ownReads, Stmt.declaredTrees]
    omega
  | .doWhile b t => by
    have hb := b.localReads_split
    simp only [Stmt.localReads, Stmt.ownReads, Stmt.declaredTrees]
    omega
  | .forLoop i t u b => by
    have hb := b.localReads_split
    simp only [Stmt.localReads, Stmt.ownReads, Stmt.declaredTrees]
    omega
  | .labeled _ b => b.localReads_split
  | .var _ | .expr _ | .ret _ => (Nat.zero_add _).symm
  | .empty | .jump _ _ | .unsupported _ => rfl

theorem localReadsOfAlternate_split : (s : Option Stmt) →
    localReadsOfAlternate names s = hoistedReads names (declaredTreesOfAlternate s) + ownReadsOfAlternate names s
  | none => rfl
  | some s => s.localReads_split

theorem localReadsOf_split : (body : List Stmt) →
    localReadsOf names body = hoistedReads names (declaredTreesOf body) + ownReadsOf names body
  | [] => rfl
  | s :: ss => by
    have hs := s.localReads_split
    have hss := localReadsOf_split ss
    simp only [localReadsOf, ownReadsOf, declaredTreesOf, hoistedReads_append]
    omega

end

end ScriptSsa
