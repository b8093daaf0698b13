import ScriptSsa.Lowering.Variable
import ScriptSsa.Syntax.Basic

/-!
Operators, property access, assignment and calls, for operands that are already lowered or are given as
the code that lowers them.
-/

namespace ScriptSsa

/-- The constant that a literal stands for. -/
def Literal.constant : Literal → Constant
  | .null => .null
  | .bool b => .bool b
  | .number x => .number x
  | .string s => .string s

/-- A property that an assignment stores into. -/
structure Target where
  object : Operand
  key : Operand
deriving DecidableEq, Inhabited, Repr

/-- A chain of property accesses that are not carried out yet: a base object and the keys that apply to
it, the outermost first. -/
structure Chain where
  base : Operand
  keys : List Operand
deriving DecidableEq, Inhabited, Repr

namespace Build

def one : Constant := .number (.ofNat 1)

def unary (op : UnaryOp) (argument : Operand) : Build Operand := do
  let op ← operator op.symbol
  emit .unary [op, argument]

def binary (op : BinaryOp) (left right : Operand) : Build Operand := do
  let op ← operator op.symbol
  emit .binary [op, left, right]

/-- The key of a property access. Unless it is computed it must be an identifier, which names it. -/
def memberKey (property : Expr) (computed : Bool) (evaluate : Build Operand) : Build Operand :=
  if computed then evaluate
  else
    match property.ident? with
    | some name => literal (.string name)
    | none => unsupported ("member name " ++ property.kind)

/-- The key of a property in an object literal. -/
def propertyKey (kind : PropertyKind) (computed : Bool) (key : Expr) : Build Operand :=
  if kind ≠ .init then unsupported "property accessor"
  else if computed then unsupported "computed property key"
  else
    match key with
    | .ident name => literal (.string name)
    | .literal l => literal l.constant
    | e => unsupported ("property key " ++ e.kind)

def loadProperty (target : Target) : Build Operand :=
  emit .loadProperty [target.object, target.key]

def storeProperty (target : Target) (value : Operand) : Build Unit :=
  perform .storeProperty [target.object, target.key, value]

/-- The property at the end of a chain. The keys are taken from the innermost outwards, each held back until the
next one loads through it, so that the outermost is left for whoever stores or loads there. -/
def chainTarget (kind : String) (chain : Chain) : Build Target :=
  match chain.keys.reverse with
  | [] => unsupported ("assignment to " ++ kind)
  | innermost :: keys =>
    keys.foldlM (fun target outer => do return ⟨← loadProperty target, outer⟩) ⟨chain.base, innermost⟩

/-- Assignment to a variable. A compound assignment reads the variable after the right-hand side. -/
def assignName (names : Names) (name : String) (op : AssignOp) (value : Build Operand) :
    Build Operand :=
  match op.binary? with
  | none => do writeName names name (← value)
  | some op => do
    let op ← operator op.symbol
    let value ← value
    let old ← readName names name
    let result ← emit .binary [op, old, value]
    writeName names name result

/-- Assignment to a property. The right-hand side comes before the property is found. -/
def assignMember (op : AssignOp) (target : Build Target) (value : Build Operand) : Build Operand :=
  match op.binary? with
  | none => do
    let value ← value
    storeProperty (← target) value
    return value
  | some op => do
    let op ← operator op.symbol
    let value ← value
    let target ← target
    let old ← loadProperty target
    let result ← emit .binary [op, old, value]
    storeProperty target result
    return result

/-- A step of a variable by one: before the read it yields the new value, after it the old one. -/
def updateName (names : Names) (name : String) (op : UpdateOp) (isPrefix : Bool) : Build Operand :=
  if isPrefix then do
    let op ← operator op.binary.symbol
    let one ← literal one
    let old ← readName names name
    let result ← emit .binary [op, old, one]
    writeName names name result
  else do
    let current ← readName names name
    let old ← emit .nop [current]
    let op ← operator op.binary.symbol
    let one ← literal one
    let result ← emit .binary [op, old, one]
    let _ ← writeName names name result
    return old

/-- A step of a property by one. -/
def updateMember (op : UpdateOp) (isPrefix : Bool) (target : Build Target) : Build Operand :=
  if isPrefix then do
    let op ← operator op.binary.symbol
    let one ← literal one
    let target ← target
    let old ← loadProperty target
    let result ← emit .binary [op, old, one]
    storeProperty target result
    return result
  else do
    let target ← target
    let current ← loadProperty target
    let old ← emit .nop [current]
    let op ← operator op.binary.symbol
    let one ← literal one
    let result ← emit .binary [op, old, one]
    storeProperty target result
    return old

/-- Pushes arguments, the last one first, so that the first ends on top. -/
def pushArgs (arguments : List Operand) : Build Unit :=
  arguments.reverse.forM fun argument => perform .pushArg [argument]

/-- A call with the given receiver. -/
def call (function : Operand) (receiver : Build Operand) (arguments : List Operand) :
    Build Operand := do
  pushArgs arguments
  let receiver ← receiver
  let size ← count arguments.length
  emit .call [function, receiver, size]

def new (function : Operand) (arguments : List Operand) : Build Operand := do
  pushArgs arguments
  let size ← count arguments.length
  emit .new [function, size]

end Build

end ScriptSsa
