import Mathlib.Logic.Function.Basic
import ScriptSsa.Graph.Basic
import ScriptSsa.Syntax.Operator

/-!
Running a graph.

The values, the operators and what counts as true are left open. Instructions run in order. A value that an
instruction yields is kept under its id, and under the name that it is bound to. A `toPhi` keeps a value for its
phi, a `branch` goes to one of the two successors, and a block without successors ends the run.
-/

namespace ScriptSsa

/-- What constants, operators and conditions mean. -/
structure Interp (V : Type*) where
  constant : Constant → V
  this : V
  unary : UnaryOp → V → V
  binary : BinaryOp → V → V → V
  truthy : V → Bool

/-- What a run has stored so far. -/
structure Memory (V : Type*) where
  locals : String → Option V
  values : InstrId → Option V
  /-- What each phi was given last. -/
  delivered : InstrId → Option V
  globals : String → V

variable {V : Type*} (I : Interp V)

namespace Memory

/-- The value of an operand. Counts and blocks are none. -/
def read (m : Memory V) : Operand → Option V
  | .instr id => m.values id
  | .localVar name => m.locals name
  | .constant c => some (I.constant c)
  | .count _ | .block _ => none

/-- Keeps the value of an instruction. -/
def keep (m : Memory V) (i : Instr) (value : V) : Memory V :=
  { m with
    values := Function.update m.values i.id (some value)
    locals := i.binding.elim m.locals fun name => Function.update m.locals name (some value) }

/-- The value that an instruction yields. -/
def result (m : Memory V) (i : Instr) : Option V :=
  match i.opcode, i.operands with
  | .literal, [.constant c] => some (I.constant c)
  | .loadGlobal, [.constant (.string name)] => some (m.globals name)
  | .this, [] => some I.this
  | .nop, [value] => m.read I value
  | .unary, [.constant (.string op), value] =>
    (UnaryOp.ofSymbol? op).bind fun op => (m.read I value).map (I.unary op)
  | .binary, [.constant (.string op), left, right] =>
    (BinaryOp.ofSymbol? op).bind fun op =>
      (m.read I left).bind fun left => (m.read I right).map (I.binary op left)
  | .phi, [] => m.delivered i.id
  | _, _ => none

/-- The memory after an instruction that control passes through. -/
def perform (m : Memory V) (i : Instr) : Option (Memory V) :=
  match i.opcode, i.operands with
  | .storeGlobal, [.constant (.string name), value] =>
    (m.read I value).map fun v => { m with globals := Function.update m.globals name v }
  | .toPhi, [.instr phi, value] =>
    (m.read I value).map fun v => { m with delivered := Function.update m.delivered phi (some v) }
  | _, _ => (m.result I i).map (m.keep i)

end Memory

/-- A place in a block, and the memory there. -/
structure Config (V : Type*) where
  block : BlockId
  index : Nat
  memory : Memory V

/-- What a step leads to. -/
inductive Next (V : Type*) where
  | go (config : Config V)
  /-- The run ends, with a value if it was returned. -/
  | halt (result : Option V) (memory : Memory V)
  | stuck

def step (code : BlockId → Option Block) (c : Config V) : Next V :=
  match code c.block with
  | none => .stuck
  | some b =>
    match b.instrs[c.index]? with
    | none =>
      match b.succs with
      | [] => .halt none c.memory
      | [target] => .go ⟨target, 0, c.memory⟩
      | _ => .stuck
    | some i =>
      match i.opcode, i.operands with
      | .ret, [value] => (c.memory.read I value).elim .stuck fun v => .halt (some v) c.memory
      | .branch, [value] =>
        match c.memory.read I value, b.succs with
        | some v, [onTrue, onFalse] => .go ⟨if I.truthy v then onTrue else onFalse, 0, c.memory⟩
        | _, _ => .stuck
      | _, _ => (c.memory.perform I i).elim .stuck fun m => .go ⟨c.block, c.index + 1, m⟩

/-- So many steps, or fewer if the run ends before. -/
def run (code : BlockId → Option Block) : Nat → Config V → Next V
  | 0, c => .go c
  | n + 1, c =>
    match step I code c with
    | .go c' => run code n c'
    | other => other

/-- How a run ends: with a returned value or none, and with what the names stand for then. -/
structure Outcome (V : Type*) where
  result : Option V
  locals : String → Option V
  globals : String → V

def Next.outcome? : Next V → Option (Outcome V)
  | halt result m => some ⟨result, m.locals, m.globals⟩
  | _ => none

/-- The entry of a graph, where nothing but the globals has a value. -/
def Graph.start (g : Graph) (globals : String → V) : Config V :=
  ⟨g.entry, 0, ⟨fun _ => none, fun _ => none, fun _ => none, globals⟩⟩

/-- Runs a graph from its entry for so many steps. -/
def Graph.run (g : Graph) (globals : String → V) (n : Nat) : Next V :=
  ScriptSsa.run I g.block? n (g.start globals)

variable {I} {code : BlockId → Option Block} {b : Block} {id : BlockId} {index n : Nat} {m m' : Memory V}
  {c c' c'' : Config V}

theorem run_add (n k : Nat) (c : Config V) :
    run I code (n + k) c = match run I code n c with
      | .go c' => run I code k c'
      | other => other := by
  induction n generalizing c with
  | zero => rw [Nat.zero_add, run]
  | succ n ih =>
      rw [Nat.succ_add, run, run]
      cases step I code c with
      | go c' => exact ih c'
      | halt | stuck => rfl

/-- A run that goes on after so many steps went on after fewer. -/
theorem run_go_of_le {k : Nat} (h : run I code n c = .go c') (hle : k ≤ n) : ∃ c'', run I code k c = .go c'' := by
  obtain ⟨d, rfl⟩ := Nat.exists_eq_add_of_le hle
  rw [run_add] at h
  cases hk : run I code k c with
  | go c'' => exact ⟨c'', rfl⟩
  | halt | stuck => rw [hk] at h; cases h

/-- A run that has ended stays as it is. -/
theorem run_halt_of_le {k : Nat} {result : Option V} (h : run I code n c = .halt result m) (hle : n ≤ k) :
    run I code k c = .halt result m := by
  obtain ⟨d, rfl⟩ := Nat.exists_eq_add_of_le hle
  rw [run_add, h]

/-- The run from `c` comes to `c'`. -/
def Reaches (I : Interp V) (code : BlockId → Option Block) (c c' : Config V) : Prop :=
  ∃ n, run I code n c = .go c'

/-- The run from `c` takes so many steps without ending. -/
def Lasts (I : Interp V) (code : BlockId → Option Block) (n : Nat) (c : Config V) : Prop :=
  ∃ c', run I code n c = .go c'

/-- The run from `c` ends. -/
def Halts (I : Interp V) (code : BlockId → Option Block) (c : Config V) (result : Option V) (m : Memory V) : Prop :=
  ∃ n, run I code n c = .halt result m

namespace Reaches

theorem refl (c : Config V) : Reaches I code c c := ⟨0, rfl⟩

theorem of_step (h : step I code c = .go c') : Reaches I code c c' := ⟨1, by rw [run, h]; rfl⟩

theorem trans (h : Reaches I code c c') (h' : Reaches I code c' c'') : Reaches I code c c'' := by
  obtain ⟨n, hn⟩ := h
  obtain ⟨k, hk⟩ := h'
  exact ⟨n + k, by rw [run_add, hn]; exact hk⟩

theorem halts {result : Option V} (h : Reaches I code c c') (h' : Halts I code c' result m) :
    Halts I code c result m := by
  obtain ⟨n, hn⟩ := h
  obtain ⟨k, hk⟩ := h'
  exact ⟨n + k, by rw [run_add, hn]; exact hk⟩

theorem lasts (h : Reaches I code c c') (h' : Lasts I code n c') : Lasts I code n c := by
  obtain ⟨k, hk⟩ := h
  obtain ⟨c'', hn⟩ := h'
  have hrun : run I code (k + n) c = .go c'' := by
    rw [run_add, hk]
    exact hn
  exact run_go_of_le hrun (Nat.le_add_left n k)

end Reaches

theorem Lasts.of_step (h : step I code c = .go c') (h' : Lasts I code n c') : Lasts I code (n + 1) c := by
  obtain ⟨c'', hn⟩ := h'
  exact ⟨c'', by rw [run, h]; exact hn⟩

theorem Lasts.mono {k : Nat} (h : Lasts I code n c) (hle : k ≤ n) : Lasts I code k c :=
  let ⟨_, hn⟩ := h
  run_go_of_le hn hle

/-- A run that ends in one way is not stuck, and ends in no other way. -/
theorem Halts.run_eq {result : Option V} (h : Halts I code c result m) (n : Nat) :
    (∃ c', run I code n c = .go c') ∨ run I code n c = .halt result m := by
  obtain ⟨k, hk⟩ := h
  rcases Nat.le_total k n with hle | hle
  · exact .inr (run_halt_of_le hk hle)
  · obtain ⟨d, rfl⟩ := Nat.exists_eq_add_of_le hle
    rw [run_add] at hk
    cases hn : run I code n c with
    | go c' => exact .inl ⟨c', rfl⟩
    | halt | stuck => rw [hn] at hk; exact .inr hk

theorem Halts.of_step {result : Option V} (h : step I code c = .halt result m) : Halts I code c result m :=
  ⟨1, by rw [run, h]⟩

/-! One lemma for each kind of step. -/

theorem step_plain {i : Instr} (hcode : code id = some b) (hi : b.instrs[index]? = some i)
    (hret : i.opcode ≠ .ret) (hbranch : i.opcode ≠ .branch) (h : m.perform I i = some m') :
    step I code ⟨id, index, m⟩ = .go ⟨id, index + 1, m'⟩ := by
  simp only [step, hcode, hi]
  split
  · contradiction
  · contradiction
  · rw [h]
    rfl

theorem step_branch {i : Instr} {value : Operand} {v : V} {onTrue onFalse : BlockId}
    (hcode : code id = some b) (hi : b.instrs[index]? = some i) (hop : i.opcode = .branch)
    (hoperands : i.operands = [value]) (hsuccs : b.succs = [onTrue, onFalse]) (hv : m.read I value = some v) :
    step I code ⟨id, index, m⟩ = .go ⟨if I.truthy v then onTrue else onFalse, 0, m⟩ := by
  simp only [step, hcode, hi, hop, hoperands, hsuccs, hv]

theorem step_ret {i : Instr} {value : Operand} {v : V} (hcode : code id = some b)
    (hi : b.instrs[index]? = some i) (hop : i.opcode = .ret) (hoperands : i.operands = [value])
    (hv : m.read I value = some v) : step I code ⟨id, index, m⟩ = .halt (some v) m := by
  simp only [step, hcode, hi, hop, hoperands, hv, Option.elim_some]

theorem step_jump {target : BlockId} (hcode : code id = some b) (hend : b.instrs.length ≤ index)
    (hsuccs : b.succs = [target]) : step I code ⟨id, index, m⟩ = .go ⟨target, 0, m⟩ := by
  simp only [step, hcode, List.getElem?_eq_none hend, hsuccs]

theorem step_end (hcode : code id = some b) (hend : b.instrs.length ≤ index) (hsuccs : b.succs = []) :
    step I code ⟨id, index, m⟩ = .halt none m := by
  simp only [step, hcode, List.getElem?_eq_none hend, hsuccs]

end ScriptSsa
