import ScriptSsa.Binary64.Basic

/-!
Instructions: an opcode, its operands, an id and, for the value of a local variable, the name it is
bound to.
-/

namespace ScriptSsa

/-- An instruction id, unique over all graphs of one construction. -/
structure InstrId where
  index : Nat
deriving DecidableEq, Inhabited, Repr

/-- A block id, unique over all graphs of one construction. -/
structure BlockId where
  index : Nat
deriving DecidableEq, Inhabited, Repr

def InstrId.text (id : InstrId) : String := "i" ++ toString id.index

def BlockId.text (id : BlockId) : String := "B" ++ toString id.index

/-- A constant value embedded in an instruction. -/
inductive Constant where
  | undefined
  | null
  | bool (value : Bool)
  | number (value : Binary64)
  | string (value : String)
deriving DecidableEq, Inhabited, Repr

/-- An input of an instruction. -/
inductive Operand where
  /-- The result of another instruction. -/
  | instr (id : InstrId)
  /-- The current value of a local variable. -/
  | localVar (name : String)
  | constant (value : Constant)
  /-- A number of elements or arguments, an argument position, a context depth or a slot. -/
  | count (n : Nat)
  /-- The entry block of a nested function. -/
  | block (id : BlockId)
deriving DecidableEq, Inhabited, Repr

inductive Opcode where
  | literal | loadGlobal | storeGlobal | deleteGlobal | loadContext | storeContext
  | loadArg | self | this | global | nop
  | loadProperty | storeProperty | deleteProperty | array | object | function
  | binary | unary
  | pushArg | call | new
  | branch | ret | phi | toPhi
deriving DecidableEq, Inhabited, Repr

namespace Opcode

/-- Every opcode, once. -/
def all : List Opcode :=
  [literal, loadGlobal, storeGlobal, deleteGlobal, loadContext, storeContext, loadArg, self, this,
    global, nop, loadProperty, storeProperty, deleteProperty, array, object, function, binary, unary,
    pushArg, call, new, branch, ret, phi, toPhi]

/-- The word a listing writes for an opcode. -/
def mnemonic : Opcode → String
  | literal => "literal"
  | loadGlobal => "loadGlobal"
  | storeGlobal => "storeGlobal"
  | deleteGlobal => "deleteGlobal"
  | loadContext => "loadContext"
  | storeContext => "storeContext"
  | loadArg => "loadArg"
  | self => "self"
  | this => "this"
  | global => "global"
  | nop => "nop"
  | loadProperty => "loadProperty"
  | storeProperty => "storeProperty"
  | deleteProperty => "deleteProperty"
  | array => "array"
  | object => "object"
  | function => "fn"
  | binary => "binary"
  | unary => "unary"
  | pushArg => "pushArg"
  | call => "call"
  | new => "new"
  | branch => "branch"
  | ret => "ret"
  | phi => "phi"
  | toPhi => "to_phi"

/-- The opcode with the given word. -/
def ofMnemonic? (word : String) : Option Opcode := all.find? fun op => op.mnemonic == word

theorem ofMnemonic?_mnemonic (op : Opcode) : ofMnemonic? op.mnemonic = some op := by
  cases op <;> decide

/-- Whether the instruction yields a value that others can use. -/
def yieldsValue : Opcode → Bool
  | storeGlobal | storeContext | storeProperty | pushArg | branch | ret | toPhi => false
  | _ => true

end Opcode

structure Instr where
  id : InstrId
  opcode : Opcode
  operands : List Operand
  /-- The local variable that this instruction's value becomes. -/
  binding : Option String
deriving DecidableEq, Inhabited, Repr

end ScriptSsa
