import ScriptSsa.Scope.Basic

/-!
What a name means at a place inside nested functions.

The scopes around the place are searched from the innermost outwards. The first one that declares the
name decides; a function's own name decides for reads alone. Where no scope does, the name is global.
-/

namespace ScriptSsa

inductive Resolution where
  /-- The function itself. -/
  | own
  | localVar
  /-- A slot of the function that is `depth` functions further out. -/
  | slot (depth index : Nat)
  | global
deriving DecidableEq, Inhabited, Repr

namespace Scope

/-- Searches the scopes from the one that is `depth` functions out. -/
def resolveFrom (access : Access) (name : String) :
    (depth : Nat) → List Scope → Except Fault Resolution
  | _, [] => .ok .global
  | depth, scope :: outer =>
    match scope.storage? name with
    | some (.slot index) => .ok (.slot depth index)
    | some .localVar => if depth = 0 then .ok .localVar else .error (.unslotted name)
    | none =>
      if access = .read ∧ scope.isOwn name then
        if depth = 0 then .ok .own
        else
          match scope.ownSlot with
          | some index => .ok (.slot depth index)
          | none => resolveFrom access name (depth + 1) outer
      else resolveFrom access name (depth + 1) outer

/-- What a name means inside the given scopes, the innermost first. -/
def resolve (scopes : List Scope) (access : Access) (name : String) : Except Fault Resolution :=
  resolveFrom access name 0 scopes

end Scope

/-- The scopes around a place, the innermost first, and the rule by which names are looked up in them.
Lowering asks the rule and never looks into the scopes itself. -/
structure Names where
  scopes : List Scope
  rule : List Scope → Access → String → Except Fault Resolution

namespace Names

def find (names : Names) (access : Access) (name : String) : Except Fault Resolution :=
  names.rule names.scopes access name

/-- The names inside a nested function. -/
def enter (names : Names) (scope : Scope) : Names := { names with scopes := scope :: names.scopes }

end Names

end ScriptSsa
