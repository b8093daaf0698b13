import ScriptSsa.Graph.Queue
import ScriptSsa.Lowering.Supply

/-!
A graph under construction, and the steps that build it.

A step of type `Build` changes the builder and may fail; the ids drawn before a failure stay drawn. A step
that relies on a promise of the construction, such as that a block has no successors yet, checks it and
fails with a `Fault` if it is broken.
-/

namespace ScriptSsa

/-- A loop whose body is being lowered.

Each `break` and each `continue` opens a merge block. The merge blocks of a loop's breaks form a chain
after `breakEntry`, those of its continues one after `continueEntry`. -/
structure Loop where
  labels : List String
  /-- The block that holds the update code; the body falls through into it. -/
  continueEntry : BlockId
  /-- The end of the chain of continues. -/
  continueTarget : BlockId
  /-- Merge blocks of the continues so far. -/
  continues : List BlockId
  /-- The block that the test leaves for. -/
  breakEntry : BlockId
  /-- Merge blocks of the breaks so far. -/
  breaks : List BlockId
deriving DecidableEq, Inhabited, Repr

namespace Loop

/-- The end of the chain of breaks. -/
def breakTarget (loop : Loop) : BlockId := loop.breaks.getLastD loop.breakEntry

/-- Whether a jump with this label selects the loop. -/
def accepts (label : Option String) (loop : Loop) : Bool :=
  match label with
  | none => true
  | some l => loop.labels.contains l

end Loop

structure Builder where
  supply : Supply
  /-- The graphs of finished nested functions. -/
  finished : GraphQueue
  /-- The blocks of the function under construction, in order of creation. -/
  blocks : List Block
  /-- The block that instructions go to. -/
  current : BlockId
  /-- The loops around the current place, the innermost first. -/
  loops : List Loop
  phis : Phi.Recorder
deriving DecidableEq, Inhabited, Repr

namespace Builder

def block? (s : Builder) (id : BlockId) : Option Block := s.blocks.find? fun b => b.id = id

/-- Changes the block with the given id. -/
def modifyBlock (s : Builder) (id : BlockId) (f : Block → Block) : Builder :=
  { s with blocks := s.blocks.map fun b => if b.id = id then f b else b }

end Builder

/-- A step of a construction. -/
abbrev Build := EStateM BuildError Builder

namespace Build

variable {α : Type}

def fail (e : BuildError) : Build α := fun s => .error e s

def unsupported (what : String) : Build α := fail (.unsupported what)

/-- Goes on with a result, or fails with its error. -/
def lift (result : Except BuildError α) : Build α := fun s =>
  match result with
  | .ok a => .ok a s
  | .error e => .error e s

/-! Blocks. -/

/-- Draws an instruction id. -/
def freshInstr : Build InstrId := fun s =>
  .ok s.supply.nextInstr { s with supply := s.supply.dropInstr }

/-- Creates an empty block without entering it. -/
def newBlock : Build BlockId := fun s =>
  .ok s.supply.nextBlock
    { s with supply := s.supply.dropBlock, blocks := s.blocks ++ [.empty s.supply.nextBlock] }

/-- The block that instructions go to. -/
def current : Build BlockId := fun s => .ok s.current s

/-- A block of the graph under construction. -/
def getBlock (id : BlockId) : Build Block := fun s =>
  match s.block? id with
  | some b => .ok b s
  | none => .error (.fault (.foreignBlock id)) s

def modifyBlock (id : BlockId) (f : Block → Block) : Build Unit := fun s =>
  match s.block? id with
  | some _ => .ok () (s.modifyBlock id f)
  | none => .error (.fault (.foreignBlock id)) s

/-- Makes a block the current one. -/
def switchTo (id : BlockId) : Build Unit := fun s =>
  match s.block? id with
  | some _ => .ok () { s with current := id }
  | none => .error (.fault (.foreignBlock id)) s

/-- Sets the successors of a block, which it must not have yet. -/
def link (id : BlockId) (succs : List BlockId) : Build Unit := fun s =>
  match s.block? id with
  | some b =>
    if b.succs.isEmpty then
      match succs.find? fun target => (s.block? target).isNone with
      | some target => .error (.fault (.foreignBlock target)) s
      | none => .ok () (s.modifyBlock id fun b => { b with succs })
    else .error (.fault (.linkedTwice id)) s
  | none => .error (.fault (.foreignBlock id)) s

/-- Sets the successors of the current block. -/
def linkCurrent (succs : List BlockId) : Build Unit := do link (← current) succs

/-- Whether control has left the current block. -/
def isTerminated : Build Bool := do return (← getBlock (← current)).isTerminated

/-- Links the current block to the target unless control has left it. -/
def fallThrough (target : BlockId) : Build Unit := do
  if ← isTerminated then return () else linkCurrent [target]

/-- Enters a new block if control has left the current one. What follows is then unreachable. -/
def ensureOpen : Build Unit := do
  if ← isTerminated then switchTo (← newBlock) else return ()

/-! Instructions. -/

/-- Appends an instruction, bound to the given variable, to the current block. -/
def emitBound (binding : Option String) (opcode : Opcode) (operands : List Operand) :
    Build InstrId := do
  let id ← freshInstr
  modifyBlock (← current) fun b => { b with instrs := b.instrs ++ [⟨id, opcode, operands, binding⟩] }
  return id

/-- Appends an instruction whose result is not used. -/
def perform (opcode : Opcode) (operands : List Operand) : Build Unit := do
  let _ ← emitBound none opcode operands

/-- Appends an instruction and gives its result. -/
def emit (opcode : Opcode) (operands : List Operand) : Build Operand := do
  return .instr (← emitBound none opcode operands)

def constant (c : Constant) : Build Operand := do
  let _ ← freshInstr
  return .constant c

def count (n : Nat) : Build Operand := do
  let _ ← freshInstr
  return .count n

def blockRef (id : BlockId) : Build Operand := do
  let _ ← freshInstr
  return .block id

/-- The constant that spells an operator. -/
def operator (symbol : String) : Build Operand := constant (.string symbol)

/-- Appends an instruction that yields a constant. -/
def literal (c : Constant) : Build Operand := do emit .literal [← constant c]

end Build

/-- The block with its last instruction bound to a variable, if that instruction just produced the value
and can take a binding. A phi cannot. -/
def Block.bindLast? (b : Block) (name : String) (value : Operand) : Option Block :=
  match b.instrs.getLast?, value with
  | some last, .instr id =>
    if last.id = id ∧ last.binding = none ∧ last.opcode.yieldsValue ∧ last.opcode ≠ .phi then
      some { b with instrs := b.instrs.dropLast ++ [{ last with binding := some name }] }
    else none
  | _, _ => none

namespace Build

/-- Makes a value the current one of a local variable. The instruction that just produced the value takes
the binding; any other value goes through a `nop`. -/
def bindLocal (name : String) (value : Operand) : Build Unit := do
  let b ← getBlock (← current)
  match b.bindLast? name value with
  | some bound => modifyBlock b.id fun _ => bound
  | none => let _ ← emitBound (some name) .nop [value]

/-! Phis. -/

def openPhi (phi : InstrId) (join : BlockId) : Build Unit := fun s =>
  .ok () { s with phis := s.phis.openPhi phi join }

/-- Records that a value flows from the current block into a phi, and ends the block with it. -/
def contribute (phi : InstrId) (value : Operand) : Build Unit := do
  let source ← current
  let recorder ← lift ((← get).phis.contribute phi source value)
  modify fun s => { s with phis := recorder }
  perform .toPhi [.instr phi, value]

/-- Enters a merge block, which starts with its phi. -/
def enterJoin (join : BlockId) (phi : InstrId) : Build Unit := do
  switchTo join
  let b ← getBlock join
  if b.isEmpty then modifyBlock join fun b => { b with instrs := [⟨phi, .phi, [], none⟩] }
  else fail (.fault (.occupiedJoin join))

/-! Loops. -/

def pushLoop (loop : Loop) : Build Unit := modify fun s => { s with loops := loop :: s.loops }

/-- Leaves the innermost loop. -/
def popLoop : Build Loop := fun s =>
  match s.loops with
  | loop :: outer => .ok loop { s with loops := outer }
  | [] => .error (.fault .missingLoop) s

def setLoops (loops : List Loop) : Build Unit := modify fun s => { s with loops }

/-! Functions. -/

/-- Builds the graph of a nested function and returns to the graph under construction. The nested
function shares the supply of ids and the queue of finished graphs, and nothing else. -/
def inNewGraph (name : Option String) (body : Build Unit) : Build Graph := fun s =>
  let entry := s.supply.nextBlock
  let inner : Builder :=
    { supply := s.supply.dropBlock, finished := s.finished, blocks := [.empty entry],
      current := entry, loops := [], phis := .empty }
  match body inner with
  | .error e t => .error e { s with supply := t.supply, finished := t.finished }
  | .ok () t =>
    let outer := { s with supply := t.supply, finished := t.finished }
    match t.phis.finish with
    | .error e => .error e outer
    | .ok phis => .ok ⟨entry, name, t.blocks, phis⟩ outer

/-- Queues the graph of a nested function. -/
def queue (graph : Graph) : Build Unit := modify fun s => { s with finished := s.finished.push graph }

end Build

end ScriptSsa
