import Mathlib.Logic.Relation
import ScriptSsa.Proofs.Growth

/-!
Running code with effects.

What instructions do to the world is left open, as is what counts as true. A run keeps the value of each
instruction, what was given to each phi last, and the arguments that have been pushed and not been taken by a call
yet, with the first argument of a call on top. As in `Growth`, a run is looked at while its graph is still growing.
-/

namespace ScriptSsa

universe u

/-- What instructions mean, for values in `V` and a world in `W`. -/
structure Effects (V W : Type u) where
  constant : Constant → V
  truthy : V → Bool
  this : V
  self : V
  /-- The receiver of a plain call. -/
  global : V
  loadGlobal : String → StateM W V
  storeGlobal : String → V → StateM W PUnit
  deleteGlobal : String → StateM W V
  loadContext : (depth index : Nat) → StateM W V
  storeContext : (depth index : Nat) → V → StateM W PUnit
  loadProperty : (object key : V) → StateM W V
  storeProperty : (object key value : V) → StateM W PUnit
  deleteProperty : (object key : V) → StateM W V
  array : Nat → StateM W V
  object : Nat → StateM W V
  unary : UnaryOp → V → StateM W V
  binary : BinaryOp → V → V → StateM W V
  call : (function receiver : V) → (arguments : List V) → StateM W V
  new : (function : V) → (arguments : List V) → StateM W V

namespace Effects

/-- What a run has stored so far. -/
structure Memory (V W : Type u) where
  locals : String → V
  values : InstrId → V
  /-- What each phi was given last. -/
  delivered : InstrId → V
  /-- Arguments that no call has taken yet, the last one that was pushed on top. -/
  stack : List V
  world : W

variable {V W : Type u} (I : Effects V W)

namespace Memory

/-- The value of an operand. Counts and blocks are none. -/
def read (m : Memory V W) : Operand → Option V
  | .instr id => some (m.values id)
  | .localVar name => some (m.locals name)
  | .constant c => some (I.constant c)
  | .count _ | .block _ => none

/-- Keeps the value of an instruction, and the world as the instruction leaves it. -/
def keep (m : Memory V W) (i : Instr) (result : V × W) : Memory V W :=
  { m with
    values := Function.update m.values i.id result.1
    locals := i.binding.elim m.locals fun name => Function.update m.locals name result.1
    world := result.2 }

/-- What an instruction yields that takes no arguments from the stack, and the world after it. -/
def result (m : Memory V W) (opcode : Opcode) (operands : List Operand) : Option (V × W) :=
  match opcode, operands with
  | .literal, [.constant c] => some (I.constant c, m.world)
  | .this, [] => some (I.this, m.world)
  | .self, [] => some (I.self, m.world)
  | .global, [] => some (I.global, m.world)
  | .nop, [value] => (m.read I value).map fun x => (x, m.world)
  | .loadGlobal, [.constant (.string name)] => some (I.loadGlobal name m.world)
  | .deleteGlobal, [.constant (.string name)] => some (I.deleteGlobal name m.world)
  | .loadContext, [.count depth, .count index] => some (I.loadContext depth index m.world)
  | .loadProperty, [object, key] =>
    (m.read I object).bind fun o => (m.read I key).map fun k => I.loadProperty o k m.world
  | .deleteProperty, [object, key] =>
    (m.read I object).bind fun o => (m.read I key).map fun k => I.deleteProperty o k m.world
  | .array, [.count n] => some (I.array n m.world)
  | .object, [.count n] => some (I.object n m.world)
  | .unary, [.constant (.string op), value] =>
    (UnaryOp.ofSymbol? op).bind fun op => (m.read I value).map fun x => I.unary op x m.world
  | .binary, [.constant (.string op), left, right] =>
    (BinaryOp.ofSymbol? op).bind fun op =>
      (m.read I left).bind fun x => (m.read I right).map fun y => I.binary op x y m.world
  | _, _ => none

/-- The memory after an instruction that control passes through. -/
def perform (m : Memory V W) (i : Instr) : Option (Memory V W) :=
  match i.opcode, i.operands with
  | .storeGlobal, [.constant (.string name), value] =>
    (m.read I value).map fun x => { m with world := (I.storeGlobal name x m.world).2 }
  | .storeContext, [.count depth, .count index, value] =>
    (m.read I value).map fun x => { m with world := (I.storeContext depth index x m.world).2 }
  | .storeProperty, [object, key, value] =>
    (m.read I object).bind fun o => (m.read I key).bind fun k => (m.read I value).map fun x =>
      { m with world := (I.storeProperty o k x m.world).2 }
  | .pushArg, [value] => (m.read I value).map fun x => { m with stack := x :: m.stack }
  | .call, [function, receiver, .count n] =>
    (m.read I function).bind fun f => (m.read I receiver).bind fun r =>
      if n ≤ m.stack.length then
        some (keep { m with stack := m.stack.drop n } i (I.call f r (m.stack.take n) m.world))
      else none
  | .new, [function, .count n] =>
    (m.read I function).bind fun f =>
      if n ≤ m.stack.length then
        some (keep { m with stack := m.stack.drop n } i (I.new f (m.stack.take n) m.world))
      else none
  | .toPhi, [.instr phi, value] =>
    (m.read I value).map fun x => { m with delivered := Function.update m.delivered phi x }
  | .phi, [] => some (m.keep i (m.delivered i.id, m.world))
  | opcode, operands => (m.result I opcode operands).map (m.keep i)

end Memory

/-- A place in a block, and the memory there. -/
structure Config (V W : Type u) where
  block : BlockId
  index : Nat
  memory : Memory V W

/-- One step of a run. There is none from the end of a block that has no successor, nor from an instruction that
leaves the function or is not one of those that expressions are made of. -/
def step (code : BlockId → Option Block) (c : Config V W) : Option (Config V W) :=
  (code c.block).bind fun b =>
    match b.instrs[c.index]? with
    | none =>
      match b.succs with
      | [target] => some ⟨target, 0, c.memory⟩
      | _ => none
    | some i =>
      match i.opcode, i.operands, b.succs with
      | .branch, [value], [onTrue, onFalse] =>
        (c.memory.read I value).map fun x => ⟨if I.truthy x then onTrue else onFalse, 0, c.memory⟩
      | _, _, _ => (c.memory.perform I i).map fun m => ⟨c.block, c.index + 1, m⟩

/-- The run from one place comes to the other. -/
def Reaches (code : BlockId → Option Block) : Config V W → Config V W → Prop :=
  Relation.ReflTransGen fun c c' => step I code c = some c'

variable {I} {code : BlockId → Option Block} {b : Block} {id : BlockId} {index : Nat} {m m' : Memory V W}

/-- An instruction that takes nothing from the stack keeps what it yields. -/
theorem Memory.perform_of_result {i : Instr} {r : V × W} (h : m.result I i.opcode i.operands = some r) :
    m.perform I i = some (m.keep i r) := by
  rw [perform]
  split
  case h_9 =>
    rw [h]
    rfl
  -- the other opcodes have no result
  all_goals
    next hop hoperands =>
      rw [hop, hoperands] at h
      cases (h : none = some r)

/-! One lemma for each kind of step. -/

theorem step_plain {i : Instr} (hcode : code id = some b) (hi : b.instrs[index]? = some i)
    (hbranch : i.opcode ≠ .branch) (h : m.perform I i = some m') :
    step I code ⟨id, index, m⟩ = some ⟨id, index + 1, m'⟩ := by
  simp only [step, hcode, hi, Option.bind_some]
  split
  · contradiction
  · rw [h]
    rfl

theorem step_branch {i : Instr} {value : Operand} {x : V} {onTrue onFalse : BlockId} (hcode : code id = some b)
    (hi : b.instrs[index]? = some i) (hop : i.opcode = .branch) (hoperands : i.operands = [value])
    (hsuccs : b.succs = [onTrue, onFalse]) (hx : m.read I value = some x) :
    step I code ⟨id, index, m⟩ = some ⟨if I.truthy x then onTrue else onFalse, 0, m⟩ := by
  simp only [step, hcode, hi, hop, hoperands, hsuccs, hx, Option.bind_some, Option.map_some]

theorem step_jump {target : BlockId} (hcode : code id = some b) (hend : b.instrs.length ≤ index)
    (hsuccs : b.succs = [target]) : step I code ⟨id, index, m⟩ = some ⟨target, 0, m⟩ := by
  simp only [step, hcode, List.getElem?_eq_none hend, hsuccs, Option.bind_some]

end Effects

end ScriptSsa
