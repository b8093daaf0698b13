import ScriptSsa.Phi

/-!
Control-flow graphs, one for each function.
-/

namespace ScriptSsa

/-- A straight-line run of instructions.

Control leaves through the successors: none (a return, or the end of the function), one (a jump), or
two after a branch, the one taken on true first. -/
structure Block where
  id : BlockId
  instrs : List Instr
  succs : List BlockId
deriving DecidableEq, Inhabited, Repr

namespace Block

def empty (id : BlockId) : Block := ⟨id, [], []⟩

def isEmpty (b : Block) : Bool := b.instrs.isEmpty

/-- Whether control can no longer fall through to what follows. -/
def isTerminated (b : Block) : Bool :=
  !b.succs.isEmpty || b.instrs.getLast?.any fun i => i.opcode = .ret

end Block

/-- The graph of a function. -/
structure Graph where
  entry : BlockId
  /-- The function's own name, if it has one. -/
  name : Option String
  /-- In order of creation, the entry first. -/
  blocks : List Block
  phis : Phi.Table
deriving DecidableEq, Inhabited, Repr

namespace Graph

def block? (g : Graph) (id : BlockId) : Option Block := g.blocks.find? fun b => b.id = id

/-- All instructions, block by block. -/
def instrs (g : Graph) : List Instr := g.blocks.flatMap Block.instrs

def instr? (g : Graph) (id : InstrId) : Option Instr := g.instrs.find? fun i => i.id = id

/-- The edges of the graph, by source block. -/
def edges (g : Graph) : List (BlockId × BlockId) :=
  g.blocks.flatMap fun b => b.succs.map fun s => (b.id, s)

theorem mem_edges {g : Graph} {source target : BlockId} :
    (source, target) ∈ g.edges ↔ ∃ b ∈ g.blocks, b.id = source ∧ target ∈ b.succs := by
  simp only [edges, List.mem_flatMap, List.mem_map, Prod.mk.injEq]
  constructor
  · rintro ⟨b, hb, s, hs, rfl, rfl⟩
    exact ⟨b, hb, rfl, hs⟩
  · rintro ⟨b, hb, rfl, hs⟩
    exact ⟨b, hb, target, hs, rfl, rfl⟩

/-- The sources of the given edges into a block. An edge that is listed twice counts twice. -/
def sources (edges : List (BlockId × BlockId)) (id : BlockId) : List BlockId :=
  (edges.filter fun e => e.2 = id).map Prod.fst

/-- The predecessors of a block. -/
def preds (g : Graph) (id : BlockId) : List BlockId := sources g.edges id

/-- Every block that the graph holds or names as a successor, once, by increasing id. -/
def mentioned (g : Graph) : List BlockId :=
  ((g.blocks.flatMap fun b => b.id :: b.succs).mergeSort fun a b => a.index ≤ b.index).eraseReps

/-- The predecessors of every mentioned block. -/
def predecessors (g : Graph) : List (BlockId × List BlockId) :=
  let edges := g.edges
  g.mentioned.map fun id => (id, sources edges id)

end Graph

end ScriptSsa
