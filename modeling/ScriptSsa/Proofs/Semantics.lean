import ScriptSsa.Lowering.Operation
import ScriptSsa.Proofs.Machine

/-!
Running a script.

A structured semantics of scripts without functions, in which expressions have no effects and assignments stand
alone. There is one store for all names; the names that the script declares start as `undefined`, the others as
the globals are. Fuel bounds the number of rounds of each loop.

Two things about loops are as lowering has them: a `do` loop enters its body in every round without testing, and
a `continue` starts the next round of a `for` loop without the update.
-/

namespace ScriptSsa

/-- How a statement ends. -/
inductive Completion (V : Type*) where
  | normal
  /-- A jump that is still looking for its loop. -/
  | jump (kind : Jump) (label : Option String)
  | ret (value : V)

variable {V : Type*} (I : Interp V)

mutual

/-- The value of an expression without effects. Any other expression counts as `undefined`. -/
def Expr.value (store : String → V) : Expr → V
  | .ident name => store name
  | .literal l => I.constant l.constant
  | .this => I.this
  | .unary op argument => I.unary op (argument.value store)
  | .binary op left right => I.binary op (left.value store) (right.value store)
  | .logical .or left right =>
    if I.truthy (left.value store) then left.value store else right.value store
  | .logical .and left right =>
    if I.truthy (left.value store) then right.value store else left.value store
  | .conditional test consequent alternate =>
    if I.truthy (test.value store) then consequent.value store else alternate.value store
  | .sequence expressions => valueOfLast store expressions
  | _ => I.constant .undefined

/-- The value of the last expression, or `undefined`. -/
def valueOfLast (store : String → V) : List Expr → V
  | [] => I.constant .undefined
  | [e] => e.value store
  | _ :: es => valueOfLast store es

end

mutual

/-- Whether the expression is one without effects. -/
def Expr.isPure : Expr → Bool
  | .ident _ | .literal _ | .this => true
  | .unary op argument => op ≠ .delete && argument.isPure
  | .binary _ left right => left.isPure && right.isPure
  | .logical _ left right => left.isPure && right.isPure
  | .conditional test consequent alternate => test.isPure && consequent.isPure && alternate.isPure
  | .sequence expressions => allPure expressions
  | _ => false

def allPure : List Expr → Bool
  | [] => true
  | e :: es => e.isPure && allPure es

end

/-- The value of an optional expression, with a constant in the place of an absent one. -/
def valueOr (absent : Constant) (store : String → V) (e : Option Expr) : V :=
  e.elim (I.constant absent) (Expr.value I store)

/-- What an expression whose value is not used does: it may be an assignment. -/
def Expr.act (store : String → V) : Expr → String → V
  | .assign .assign (.ident name) right => Function.update store name (right.value I store)
  | _ => store

def Expr.isAction : Expr → Bool
  | .assign .assign (.ident _) right => right.isPure
  | e => e.isPure

/-- What a declarator with an initializer does. -/
def Declarator.act (store : String → V) : Declarator → String → V
  | ⟨.ident name, some init⟩ => Function.update store name (init.value I store)
  | _ => store

def VarDecl.act (store : String → V) (d : VarDecl) : String → V := d.declarators.foldl (Declarator.act I) store

def VarDecl.isCore (d : VarDecl) : Bool := d.declarators.all fun d => d.target.isPure && d.init.all Expr.isPure

def ForInit.act (store : String → V) : Option ForInit → String → V
  | none => store
  | some (.var d) => d.act I store
  | some (.expr e) => e.act I store

def ForInit.isCore : Option ForInit → Bool
  | none => true
  | some (.var d) => d.isCore
  | some (.expr e) => e.isAction

/-- Whether a jump with this label selects a loop with these labels. -/
def selects (label : Option String) (labels : List String) : Bool := label.all labels.contains

theorem Loop.accepts_eq_selects (label : Option String) (l : Loop) : l.accepts label = selects label l.labels := by
  cases label <;> rfl

/-- How a round of a loop ends. -/
inductive Round (V : Type*) where
  | again (store : String → V)
  | done (completion : Completion V) (store : String → V)

/-- One round of a loop. -/
def round (labels : List String) (enters : (String → V) → Bool) (update : (String → V) → String → V)
    (body : (String → V) → Option (Completion V × (String → V))) (store : String → V) : Option (Round V) :=
  if enters store then
    match body store with
    | none => none
    | some (.normal, store') => some (.again (update store'))
    | some (.jump kind label, store') =>
      if selects label labels then
        match kind with
        | .exit => some (.done .normal store')
        | .next => some (.again store')
      else some (.done (.jump kind label) store')
    | some (.ret value, store') => some (.done (.ret value) store')
  else some (.done .normal store)

/-- A loop, for so many rounds at most. -/
def rounds (labels : List String) (enters : (String → V) → Bool) (update : (String → V) → String → V)
    (body : (String → V) → Option (Completion V × (String → V))) :
    Nat → (String → V) → Option (Completion V × (String → V))
  | 0, _ => none
  | n + 1, store =>
    match round labels enters update body store with
    | none => none
    | some (.again store') => rounds labels enters update body n store'
    | some (.done completion store') => some (completion, store')

mutual

/-- Runs a statement that stands behind the given labels. No result means that some loop is not done after
`fuel` rounds. -/
def Stmt.exec (fuel : Nat) (labels : List String) :
    Stmt → (String → V) → Option (Completion V × (String → V))
  | .var d, store => some (.normal, d.act I store)
  | .expr e, store => some (.normal, e.act I store)
  | .block body, store => execAll fuel body store
  | .branch test consequent alternate, store =>
    if I.truthy (test.value I store) then consequent.exec fuel [] store
    else execAlternate fuel alternate store
  | .whileLoop test body, store =>
    rounds labels (fun store => I.truthy (test.value I store)) id (body.exec fuel []) fuel store
  | .doWhile body _, store => rounds labels (fun _ => true) id (body.exec fuel []) fuel store
  | .forLoop init test update body, store =>
    rounds labels (fun store => I.truthy (valueOr I (.bool true) store test))
      (fun store => update.elim store (Expr.act I store)) (body.exec fuel []) fuel (ForInit.act I store init)
  | .jump kind label, store => some (.jump kind label, store)
  | .ret argument, store => some (.ret (valueOr I .undefined store argument), store)
  | .labeled label body, store => body.exec fuel (labels ++ [label]) store
  | .empty, store | .function _, store | .unsupported _, store => some (.normal, store)

def execAlternate (fuel : Nat) : Option Stmt → (String → V) → Option (Completion V × (String → V))
  | none, store => some (.normal, store)
  | some s, store => s.exec fuel [] store

/-- Runs statements until one of them ends otherwise than normally. -/
def execAll (fuel : Nat) : List Stmt → (String → V) → Option (Completion V × (String → V))
  | [], store => some (.normal, store)
  | s :: ss, store =>
    match s.exec fuel [] store with
    | some (.normal, store') => execAll fuel ss store'
    | other => other

end

mutual

/-- Whether the statement is made of those that have a meaning here. -/
def Stmt.isCore : Stmt → Bool
  | .var d => d.isCore
  | .expr e => e.isAction
  | .block body => allCore body
  | .branch test consequent alternate => test.isPure && consequent.isCore && alternateIsCore alternate
  | .whileLoop test body => test.isPure && body.isCore
  | .doWhile body test => test.isPure && body.isCore
  | .forLoop init test update body =>
    ForInit.isCore init && test.all Expr.isPure && update.all Expr.isAction && body.isCore
  | .ret argument => argument.all Expr.isPure
  | .labeled _ body => body.isCore
  | .empty | .jump _ _ => true
  | .function _ | .unsupported _ => false

def alternateIsCore : Option Stmt → Bool
  | none => true
  | some s => s.isCore

def allCore : List Stmt → Bool
  | [] => true
  | s :: ss => s.isCore && allCore ss

end

namespace Program

/-- The store that a script starts with. -/
def store (p : Program) (globals : String → V) (name : String) : V :=
  if name ∈ hoistedVars p.body then I.constant .undefined else globals name

/-- The end of a run: declared names are locals, the others are globals. -/
def outcome (p : Program) (globals : String → V) : Completion V × (String → V) → Outcome V
  | (completion, store) => {
    result := match completion with
      | .ret value => some value
      | .normal | .jump _ _ => none
    locals := fun name => if name ∈ hoistedVars p.body then some (store name) else none
    globals := fun name => if name ∈ hoistedVars p.body then globals name else store name }

def run (p : Program) (globals : String → V) (fuel : Nat) : Option (Outcome V) :=
  (execAll I fuel p.body (p.store I globals)).map (p.outcome globals)

def isCore (p : Program) : Bool := allCore p.body

end Program

end ScriptSsa
