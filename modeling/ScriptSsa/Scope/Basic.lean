import ScriptSsa.Scope.Capture

/-!
The scope of a function: the names it declares and where each of them lives.

A name that a nested function uses lives in a slot of the declaring function's context; every other
declared name is a local variable. Slots are numbered in declaration order, and the function's own name,
when a nested function reads it, takes the last one.
-/

namespace ScriptSsa

/-- Where a declared name lives. -/
inductive Storage where
  /-- In a local variable, seen by the declaring function alone. -/
  | localVar
  /-- In a slot of the declaring function's context. -/
  | slot (index : Nat)
deriving DecidableEq, Inhabited, Repr

structure Scope where
  /-- The function's own name, unless a declaration hides it. -/
  ownName : Option String
  params : List String
  /-- Hoisted variables that are not parameters, each at its first place. -/
  vars : List String
  /-- The names of hoisted function declarations, in source order. -/
  functions : List (Option String)
  /-- The declared names, each once: parameters, variables, functions. -/
  storage : List (String × Storage)
  /-- The slot that holds the function itself. -/
  ownSlot : Option Nat
deriving DecidableEq, Inhabited, Repr

namespace Scope

/-- Gives the chosen names consecutive slots from `next` on. -/
def assignSlots (chosen : String → Bool) : (next : Nat) → List String → List (String × Storage)
  | _, [] => []
  | next, name :: names =>
    if chosen name then (name, .slot next) :: assignSlots chosen (next + 1) names
    else (name, .localVar) :: assignSlots chosen next names

/-- The scope of a function with the given own name, parameter names and body. -/
def ofBody (ownName : Option String) (params : List String) (body : List Stmt) : Scope :=
  let vars := (hoistedVars body).filter fun name => !params.contains name
  let functions := hoistedFunctions body
  let declared := (params ++ vars ++ functions.filterMap id).eraseDups
  let ownName := ownName.filter fun name => !declared.contains name
  let uses := escapingUses body
  let captured (name : String) : Bool := uses.any fun use => use.name = name
  -- A write never means the function itself.
  let ownCaptured := ownName.any fun name => uses.contains ⟨.read, name⟩
  { ownName, params, vars, functions
    storage := assignSlots captured 0 declared
    ownSlot := if ownCaptured then some (declared.countP captured) else none }

/-- The name of a parameter, which must be an identifier. -/
def paramName (param : Expr) : Except BuildError String :=
  match param.ident? with
  | some name => .ok name
  | none => .error (.unsupported ("parameter pattern " ++ param.kind))

/-- The scope of a function. -/
def ofFunction (ownName : Option String) (params : List Expr) (body : List Stmt) :
    Except BuildError Scope := do
  return ofBody ownName (← params.mapM paramName) body

/-- Where a name of this function lives. -/
def storage? (scope : Scope) (name : String) : Option Storage :=
  (scope.storage.find? fun s => s.1 = name).map Prod.snd

/-- Whether a read of the name means the function itself. -/
def isOwn (scope : Scope) (name : String) : Bool := scope.ownName = some name

/-- How many slots the function's context has. -/
def contextSize (scope : Scope) : Nat :=
  (scope.storage.countP fun s => s.2 ≠ .localVar) + if scope.ownSlot.isSome then 1 else 0

end Scope

end ScriptSsa
