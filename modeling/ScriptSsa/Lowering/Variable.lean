import ScriptSsa.Lowering.Builder
import ScriptSsa.Scope.Resolution

/-!
Reads and writes of variables, and the code on entry to a function that gives them their first values.
-/

namespace ScriptSsa.Build

def resolve (names : Names) (access : Access) (name : String) : Build Resolution := fun s =>
  match names.find access name with
  | .ok r => .ok r s
  | .error fault => .error (.fault fault) s

def readName (names : Names) (name : String) : Build Operand := do
  match ← resolve names .read name with
  | .own => emit .self []
  | .localVar =>
    let _ ← freshInstr
    return .localVar name
  | .slot depth index =>
    let depth ← count depth
    let index ← count index
    emit .loadContext [depth, index]
  | .global => emit .loadGlobal [← constant (.string name)]

def storeContext (depth index : Nat) (value : Operand) : Build Unit := do
  let depth ← count depth
  let index ← count index
  perform .storeContext [depth, index, value]

/-- Stores a value and gives the value of the assignment. -/
def writeName (names : Names) (name : String) (value : Operand) : Build Operand := do
  match ← resolve names .write name with
  | .localVar =>
    bindLocal name value
    return .localVar name
  | .slot depth index =>
    storeContext depth index value
    return value
  | .global | .own =>
    let key ← constant (.string name)
    perform .storeGlobal [key, value]
    return value

/-- Stores the arguments from the given position on into the parameters. -/
def loadParams (names : Names) : (position : Nat) → List String → Build Unit
  | _, [] => return ()
  | position, name :: rest => do
    let position' ← count position
    let argument ← emit .loadArg [position']
    let _ ← writeName names name argument
    loadParams names (position + 1) rest

/-- Stores the function itself into its slot. -/
def loadSelf : Option Nat → Build Unit
  | none => return ()
  | some slot => do
    let self ← emit .self []
    storeContext 0 slot self

/-- Gives each hoisted variable the value `undefined`, as a local even when it has a slot. -/
def clearVars : List String → Build Unit
  | [] => return ()
  | name :: rest => do
    let undefined ← literal .undefined
    bindLocal name undefined
    clearVars rest

/-- The start of a function, up to its hoisted function declarations. -/
def prologue (names : Names) (scope : Scope) : Build Unit := do
  loadParams names 0 scope.params
  loadSelf scope.ownSlot
  clearVars scope.vars

end ScriptSsa.Build
