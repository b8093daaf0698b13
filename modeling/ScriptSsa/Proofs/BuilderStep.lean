import Mathlib.Data.List.Nodup
import Mathlib.Order.Basic
import ScriptSsa.Lowering.Control

/-!
The steps of a construction as functions from builder to builder.

A step of type `Build` checks what it relies on before it changes the builder. Here the changes stand alone,
and one equation for each step says that it makes its change and nothing else when the check succeeds.
-/

namespace ScriptSsa

namespace Supply

/-- The second supply is left of the first. -/
instance : LE Supply := ⟨fun a b => a.instrs ≤ b.instrs ∧ a.blocks ≤ b.blocks⟩

instance : Preorder Supply where
  le_refl a := ⟨Nat.le_refl a.instrs, Nat.le_refl a.blocks⟩
  le_trans _ _ _ h h' := ⟨Nat.le_trans h.1 h'.1, Nat.le_trans h.2 h'.2⟩

theorem le_dropInstr (a : Supply) : a ≤ a.dropInstr := ⟨Nat.le_succ _, Nat.le_refl _⟩

theorem le_dropBlock (a : Supply) : a ≤ a.dropBlock := ⟨Nat.le_refl _, Nat.le_succ _⟩

end Supply

namespace Builder

/-- The ids of the blocks, in order of creation. -/
def ids (s : Builder) : List BlockId := s.blocks.map Block.id

/-- The block that instructions go to is `b`. -/
def At (s : Builder) (b : Block) : Prop := s.block? s.current = some b

/-- The current block has no successors yet. -/
def Unlinked (s : Builder) : Prop := ∃ b, s.At b ∧ b.succs = []

/-- The id of the block that is created after `k` more. -/
def later (s : Builder) (k : Nat) : BlockId := ⟨s.supply.blocks + k⟩

/-- The ids of all blocks have been drawn. -/
def Fresh (s : Builder) : Prop := ∀ id ∈ s.ids, id.index < s.supply.blocks

/-! The changes. -/

/-- Draws an instruction id. -/
def draw (s : Builder) : Builder := { s with supply := s.supply.dropInstr }

/-- Adds an empty block. -/
def alloc (s : Builder) : Builder :=
  { s with supply := s.supply.dropBlock, blocks := s.blocks ++ [.empty s.supply.nextBlock] }

def enter (s : Builder) (id : BlockId) : Builder := { s with current := id }

def link (s : Builder) (id : BlockId) (succs : List BlockId) : Builder :=
  s.modifyBlock id fun b => { b with succs }

/-- Adds an instruction at the end of the current block. -/
def emit (s : Builder) (binding : Option String) (opcode : Opcode) (operands : List Operand) : Builder :=
  s.draw.modifyBlock s.current fun b =>
    { b with instrs := b.instrs ++ [⟨s.supply.nextInstr, opcode, operands, binding⟩] }

/-- Puts another block in the place of the current one. -/
def replace (s : Builder) (b : Block) : Builder := s.modifyBlock s.current fun _ => b

/-- Whether control has left the current block. -/
def terminated (s : Builder) : Bool := (s.block? s.current).any Block.isTerminated

/-- Links the current block to the target unless control has left it. -/
def fallTo (s : Builder) (target : BlockId) : Builder :=
  if s.terminated then s else s.link s.current [target]

/-- Enters a new block if control has left the current one. -/
def reopen (s : Builder) : Builder := if s.terminated then s.alloc.enter (s.later 0) else s

/-- Makes a value the current one of a local variable. -/
def bindLocal (s : Builder) (name : String) (value : Operand) : Builder :=
  match (s.block? s.current).bind fun b => b.bindLast? name value with
  | some bound => s.replace bound
  | none => s.emit (some name) .nop [value]

/-! Branches and merges. -/

/-- Ends the current block with a branch into two new blocks; a third is to join them. -/
def split (s : Builder) (condition : Operand) : Builder :=
  (s.emit none .branch [condition]).alloc.alloc.alloc.link s.current [s.later 0, s.later 1]

def withPhis (s : Builder) (phis : Phi.Recorder) : Builder := { s with phis }

/-- The arm of a merge that is lowered first. -/
def firstArm (s : Builder) (trueFirst : Bool) : BlockId := if trueFirst then s.later 0 else s.later 1

/-- The arm of a merge that is lowered second. -/
def otherArm (s : Builder) (trueFirst : Bool) : BlockId := if trueFirst then s.later 1 else s.later 0

/-- Branches into the arms of a merge and enters the first. -/
def openMerge (s : Builder) (condition : Operand) (trueFirst : Bool) : Builder :=
  ((s.draw.split condition).withPhis (s.phis.openPhi s.supply.nextInstr (s.later 2))).enter
    (s.firstArm trueFirst)

/-- Ends an arm: its value flows into the phi of the join. -/
def deliver (s : Builder) (phi : InstrId) (join : BlockId) (entry : Phi.Entry) (value : Operand) :
    Builder :=
  ((s.withPhis ⟨s.phis.entries.insert phi ⟨entry.block, entry.inputs ++ [⟨s.current, value⟩]⟩⟩).emit
    none .toPhi [.instr phi, value]).link s.current [join]

/-- Enters a join and places its phi. -/
def place (s : Builder) (phi : InstrId) (join : BlockId) : Builder :=
  (s.enter join).modifyBlock join fun b => { b with instrs := [⟨phi, .phi, [], none⟩] }

/-! Loops. -/

def withLoops (s : Builder) (loops : List Loop) : Builder := { s with loops }

/-- Creates the blocks of a loop and enters the one of its test. They are, from `s.later 0` on, the one that
holds the update code, the one that the test leaves for, the header, the test and the body. -/
def openLoop (s : Builder) (testFirst : Bool) : Builder :=
  ((s.alloc.alloc.alloc.alloc.alloc.link s.current [s.later 2]).link (s.later 2)
    [if testFirst then s.later 3 else s.later 4]).enter (s.later 3)

/-- Ends the test of a loop and enters the body. -/
def openBody (s : Builder) (condition : Operand) (body breakEntry : BlockId) (loop : Loop) : Builder :=
  (((s.emit none .branch [condition]).link s.current [body, breakEntry]).withLoops
    (loop :: s.loops)).enter body

/-- Ends the body of a loop and enters the block of the update code. -/
def openUpdate (s : Builder) (loop : Loop) (outer : List Loop) : Builder :=
  ((s.withLoops outer).fallTo loop.continueEntry).enter loop.continueEntry

/-- Leads the chain of continues back to the header. -/
def closeContinues (s : Builder) (loop : Loop) (header : BlockId) : Builder :=
  match loop.continues with
  | [] => s.link s.current [header]
  | first :: _ => (s.link s.current [first]).link loop.continueTarget [header]

/-- Closes a loop after its update code and enters the block behind it. -/
def closeLoop (s : Builder) (loop : Loop) (header : BlockId) : Builder :=
  let closed := s.closeContinues loop header
  (closed.alloc.link loop.breakTarget [closed.later 0]).enter (closed.later 0)

end Builder

namespace Loop

/-- The loop with one more merge block in the chain of its breaks or continues. -/
def extend (jump : Jump) (loop : Loop) (join : BlockId) : Loop :=
  match jump with
  | .exit => { loop with breaks := loop.breaks ++ [join] }
  | .next => { loop with continueTarget := join, continues := loop.continues ++ [join] }

/-- The end of the chain that a jump extends. -/
def chainEnd (jump : Jump) (loop : Loop) : BlockId :=
  match jump with
  | .exit => loop.breakTarget
  | .next => loop.continueTarget

/-- Whether a jump links the end of its chain at once. The block of the update code waits for its link
until the loop is closed. -/
def linksAtOnce (jump : Jump) (loop : Loop) : Bool :=
  match jump with
  | .exit => true
  | .next => !loop.continues.isEmpty

/-- The end that a loop keeps for its chain of continues is the last of their merge blocks, and the entry of the chain
as long as there is none. -/
def Chained (loop : Loop) : Prop := loop.continueTarget = loop.continues.getLastD loop.continueEntry

/-- Without a `continue`, the chain starts at the block of the update code. -/
theorem Chained.continueTarget_eq_entry {loop : Loop} (h : loop.Chained) (hnil : loop.continues = []) :
    loop.continueTarget = loop.continueEntry := by
  rw [h, hnil, List.getLastD_nil]

/-- The jump whose link has to wait is the first `continue`, and its chain ends at the block of the update code. -/
theorem Chained.chainEnd_eq_entry {jump : Jump} {loop : Loop} (h : loop.Chained) (hlater : ¬ loop.linksAtOnce jump) :
    loop.chainEnd jump = loop.continueEntry := by
  cases jump with
  | exit => exact absurd rfl hlater
  | next => exact h.continueTarget_eq_entry (by simpa [linksAtOnce] using hlater)

/-- A jump keeps the chains in order. -/
theorem Chained.extend {loop : Loop} (h : loop.Chained) (jump : Jump) (join : BlockId) :
    (loop.extend jump join).Chained := by
  cases jump with
  | exit => exact h
  | next => simp [Chained, Loop.extend, List.getLastD_eq_getLast?]

end Loop

namespace Builder

/-- Leaves the current block for a new merge block of a loop. -/
def jumpTo (s : Builder) (jump : Jump) (inner : List Loop) (loop : Loop) (outer : List Loop) : Builder :=
  let linked := s.alloc.link s.current [s.later 0]
  let chained := if loop.linksAtOnce jump then linked.link (loop.chainEnd jump) [s.later 0] else linked
  chained.withLoops (inner ++ loop.extend jump (s.later 0) :: outer)

/-! Functions. -/

/-- The builder on entry to a nested function. -/
def nested (s : Builder) : Builder where
  supply := s.supply.dropBlock
  finished := s.finished
  blocks := [.empty s.supply.nextBlock]
  current := s.supply.nextBlock
  loops := []
  phis := .empty

/-- Back from a nested function, whose graph is queued. -/
def resume (s t : Builder) (graph : Graph) : Builder :=
  { s with supply := t.supply, finished := t.finished.push graph }

/-! The blocks after a change. -/

variable {s : Builder} {id j : BlockId} {b : Block}

theorem block?_id (h : s.block? id = some b) : b.id = id := by
  simpa using List.find?_some h

theorem mem_of_block? (h : s.block? id = some b) : b ∈ s.blocks := List.mem_of_find?_eq_some h

theorem mem_ids_of_block? (h : s.block? id = some b) : id ∈ s.ids :=
  List.mem_map.mpr ⟨b, mem_of_block? h, block?_id h⟩

theorem exists_block? (h : id ∈ s.ids) : ∃ b, s.block? id = some b := by
  obtain ⟨b, hb, rfl⟩ := List.mem_map.mp h
  rw [← Option.isSome_iff_exists, block?, List.find?_isSome]
  exact ⟨b, hb, by simp⟩

/-- As long as ids are distinct, each block is found under its own. -/
theorem block?_of_mem (hnodup : s.ids.Nodup) (h : b ∈ s.blocks) : s.block? b.id = some b := by
  obtain ⟨c, hc⟩ := exists_block? (List.mem_map_of_mem h)
  have heq : c = b := List.inj_on_of_nodup_map hnodup (mem_of_block? hc) h (block?_id hc)
  rw [hc, heq]

@[simp] theorem block?_draw : s.draw.block? j = s.block? j := rfl

@[simp] theorem block?_enter : (s.enter id).block? j = s.block? j := rfl

@[simp] theorem block?_withPhis {phis : Phi.Recorder} : (s.withPhis phis).block? j = s.block? j := rfl

@[simp] theorem block?_withLoops {loops : List Loop} : (s.withLoops loops).block? j = s.block? j := rfl

@[simp] theorem ids_draw : s.draw.ids = s.ids := rfl

@[simp] theorem ids_enter : (s.enter id).ids = s.ids := rfl

@[simp] theorem ids_withPhis {phis : Phi.Recorder} : (s.withPhis phis).ids = s.ids := rfl

@[simp] theorem ids_withLoops {loops : List Loop} : (s.withLoops loops).ids = s.ids := rfl

/-- A change of one block leaves all others, if it does not change the id. -/
theorem block?_modifyBlock {f : Block → Block} (hf : ∀ b, b.id = id → (f b).id = id) :
    (s.modifyBlock id f).block? j = if j = id then (s.block? id).map f else s.block? j := by
  have hid : ∀ b, (if b.id = id then f b else b).id = b.id := by
    intro b
    split
    · next h => rw [hf b h, h]
    · rfl
  unfold block? modifyBlock
  rw [List.find?_map]
  have hfun : (fun b : Block => decide (b.id = j)) ∘ (fun b => if b.id = id then f b else b) =
      fun b => decide (b.id = j) := by
    funext b
    simp only [Function.comp, hid]
  rw [hfun]
  by_cases hj : j = id
  · subst hj
    rw [if_pos rfl]
    cases hfind : s.blocks.find? fun b => decide (b.id = j) with
    | none => rfl
    | some b =>
        have hb : b.id = j := by simpa using List.find?_some hfind
        simp [hb]
  · rw [if_neg hj]
    cases hfind : s.blocks.find? fun b => decide (b.id = j) with
    | none => rfl
    | some b =>
        have hb : b.id = j := by simpa using List.find?_some hfind
        simp [hb, hj]

/-- Where the block with an id stands among the others, which a change to it leaves alone. -/
theorem blocks_modifyBlock (hnodup : s.ids.Nodup) (hb : s.block? id = some b) :
    ∃ before after, s.blocks = before ++ b :: after ∧
      ∀ f, (s.modifyBlock id f).blocks = before ++ f b :: after := by
  have hid : b.id = id := block?_id hb
  obtain ⟨before, after, hblocks⟩ := List.append_of_mem (mem_of_block? hb)
  rw [ids, hblocks, List.map_append, List.map_cons, List.nodup_middle, List.nodup_cons,
    ← List.map_append] at hnodup
  refine ⟨before, after, hblocks, fun f => ?_⟩
  have hother : ∀ c ∈ before ++ after, (if c.id = id then f c else c) = c := by
    intro c hc
    refine if_neg fun heq => hnodup.1 ?_
    rw [hid, ← heq]
    exact List.mem_map_of_mem hc
  have hbefore : before.map (fun c => if c.id = id then f c else c) = before :=
    (List.map_congr_left fun c hc => hother c (List.mem_append_left _ hc)).trans (List.map_id' _)
  have hafter : after.map (fun c => if c.id = id then f c else c) = after :=
    (List.map_congr_left fun c hc => hother c (List.mem_append_right _ hc)).trans (List.map_id' _)
  rw [modifyBlock, hblocks, List.map_append, List.map_cons, hbefore, hafter, if_pos hid]

/-- All that matters of a change is what it does to the block. -/
theorem modifyBlock_congr {f g : Block → Block} (hnodup : s.ids.Nodup) (hb : s.block? id = some b)
    (h : f b = g b) : s.modifyBlock id f = s.modifyBlock id g := by
  obtain ⟨before, after, _, hblocks⟩ := blocks_modifyBlock hnodup hb
  have heq : (s.modifyBlock id f).blocks = (s.modifyBlock id g).blocks := by rw [hblocks, hblocks, h]
  exact congrArg (fun blocks => { s with blocks }) heq

/-- What is read off the blocks one by one does not change if nothing of it changes in the block. -/
theorem flatMap_modifyBlock {α : Type*} {read : Block → List α} {f : Block → Block}
    (hf : ∀ b ∈ s.blocks, b.id = id → read (f b) = read b) :
    (s.modifyBlock id f).blocks.flatMap read = s.blocks.flatMap read := by
  rw [modifyBlock, List.flatMap_map]
  apply List.flatMap_congr
  intro b hb
  split
  · next hid => exact hf b hb hid
  · rfl

/-- What is read off the blocks one by one gets what the block gets. -/
theorem perm_flatMap_modifyBlock {α : Type*} {read : Block → List α} {f : Block → Block} (new : List α)
    (hnodup : s.ids.Nodup) (hb : s.block? id = some b) (hf : (read (f b)).Perm (new ++ read b)) :
    ((s.modifyBlock id f).blocks.flatMap read).Perm (new ++ s.blocks.flatMap read) := by
  obtain ⟨before, after, hblocks, hmodified⟩ := blocks_modifyBlock hnodup hb
  rw [hmodified, hblocks, List.flatMap_append, List.flatMap_append, List.flatMap_cons, List.flatMap_cons]
  refine ((hf.append_right _).append_left _).trans ?_
  rw [List.append_assoc]
  exact List.perm_append_comm_assoc _ _ _

theorem modifyBlock_modifyBlock {f g : Block → Block} (hf : ∀ b, b.id = id → (f b).id = id) :
    (s.modifyBlock id f).modifyBlock id g = s.modifyBlock id fun b => g (f b) := by
  refine congrArg (fun blocks => { s with blocks }) ?_
  rw [modifyBlock, List.map_map]
  apply List.map_congr_left
  intro b _
  by_cases h : b.id = id
  · simp [h, hf b h]
  · simp [h]

theorem ids_modifyBlock {f : Block → Block} (hf : ∀ b, b.id = id → (f b).id = id) :
    (s.modifyBlock id f).ids = s.ids := by
  unfold ids modifyBlock
  rw [List.map_map]
  apply List.map_congr_left
  intro b _
  by_cases h : b.id = id
  · simp [h, hf b h]
  · simp [h]

/-- To link a block replaces its successors and keeps its code. -/
theorem block?_link {succs : List BlockId} :
    (s.link id succs).block? j =
      if j = id then (s.block? id).map fun b => { b with succs } else s.block? j :=
  block?_modifyBlock fun _ h => h

@[simp] theorem ids_link {succs : List BlockId} : (s.link id succs).ids = s.ids :=
  ids_modifyBlock fun _ h => h

/-- An instruction goes to the current block only. -/
theorem block?_emit {binding : Option String} {opcode : Opcode} {operands : List Operand} :
    (s.emit binding opcode operands).block? j =
      if j = s.current then
        (s.block? s.current).map fun b =>
          { b with instrs := b.instrs ++ [⟨s.supply.nextInstr, opcode, operands, binding⟩] }
      else s.block? j :=
  block?_modifyBlock fun _ h => h

@[simp] theorem ids_emit {binding : Option String} {opcode : Opcode} {operands : List Operand} :
    (s.emit binding opcode operands).ids = s.ids :=
  ids_modifyBlock fun _ h => h

theorem block?_replace (h : b.id = s.current) :
    (s.replace b).block? j = if j = s.current then (s.block? s.current).map fun _ => b else s.block? j :=
  block?_modifyBlock fun _ _ => h

theorem ids_replace (h : b.id = s.current) : (s.replace b).ids = s.ids :=
  ids_modifyBlock fun _ _ => h

theorem block?_place {phi : InstrId} :
    (s.place phi id).block? j =
      if j = id then (s.block? id).map fun b => { b with instrs := [⟨phi, .phi, [], none⟩] }
      else s.block? j :=
  block?_modifyBlock fun _ h => h

/-- A join is entered when it is still empty, so its phi comes first. -/
theorem At_place {phi : InstrId} (h : s.block? id = some (.empty id)) :
    (s.place phi id).At ⟨id, [⟨phi, .phi, [], none⟩], []⟩ := by
  change (s.place phi id).block? id = _
  rw [block?_place, if_pos rfl, h]
  rfl

@[simp] theorem ids_place {phi : InstrId} : (s.place phi id).ids = s.ids :=
  ids_modifyBlock fun _ h => h

@[simp] theorem ids_alloc : s.alloc.ids = s.ids ++ [s.later 0] := by
  simp only [ids, alloc, List.map_append]
  rfl

/-- No block has the id of one that is still to be created. -/
theorem Fresh.later_notMem (h : s.Fresh) (k : Nat) : s.later k ∉ s.ids := by
  intro hmem
  have hlt := h _ hmem
  simp only [later] at hlt
  omega

theorem Fresh.alloc (h : s.Fresh) : s.alloc.Fresh := by
  intro id hid
  rw [ids_alloc] at hid
  change id.index < s.supply.blocks + 1
  rcases List.mem_append.mp hid with hid | hid
  · have hlt := h id hid
    omega
  · rw [List.mem_singleton.mp hid]
    exact Nat.lt_succ_self _

theorem block?_alloc_of_ne (h : j ≠ s.later 0) : s.alloc.block? j = s.block? j := by
  have hne : s.later 0 ≠ j := Ne.symm h
  change List.find? (fun b => decide (b.id = j)) (s.blocks ++ [.empty (s.later 0)]) = _
  rw [List.find?_append]
  simp [Block.empty, hne, block?]

/-- To create a block takes none away. -/
theorem block?_alloc_of_some (h : s.block? j = some b) : s.alloc.block? j = some b := by
  change List.find? (fun b => decide (b.id = j)) (s.blocks ++ [.empty (s.later 0)]) = _
  rw [block?] at h
  rw [List.find?_append, h, Option.some_or]

/-- The block that is created is empty. -/
theorem block?_alloc_self (h : s.later 0 ∉ s.ids) : s.alloc.block? (s.later 0) = some (.empty (s.later 0)) := by
  have hnone : s.block? (s.later 0) = none := by
    rw [← Option.not_isSome_iff_eq_none]
    intro hsome
    obtain ⟨b, hb⟩ := Option.isSome_iff_exists.mp hsome
    exact h (mem_ids_of_block? hb)
  change List.find? (fun b => decide (b.id = s.later 0)) (s.blocks ++ [.empty (s.later 0)]) = _
  rw [List.find?_append]
  rw [block?] at hnone
  simp [hnone, Block.empty]

/-- The current block after an instruction: the same block with one more at its end. -/
theorem At_emit {binding : Option String} {opcode : Opcode} {operands : List Operand} (h : s.At b) :
    (s.emit binding opcode operands).At
      { b with instrs := b.instrs ++ [⟨s.supply.nextInstr, opcode, operands, binding⟩] } := by
  change (s.emit binding opcode operands).block? s.current = _
  rw [block?_emit, if_pos rfl, h]
  rfl

theorem At_alloc (h : s.At b) : s.alloc.At b := block?_alloc_of_some h

theorem At_link {succs : List BlockId} (h : s.At b) : (s.link s.current succs).At { b with succs } := by
  change (s.link s.current succs).block? s.current = _
  rw [block?_link, if_pos rfl, h]
  rfl

theorem At_link_of_ne {succs : List BlockId} (h : s.At b) (hne : s.current ≠ id) : (s.link id succs).At b := by
  change (s.link id succs).block? s.current = _
  rw [block?_link, if_neg hne]
  exact h

/-- The header of a loop is still empty when the current block is linked to it. -/
theorem Fresh.block?_header (h : s.Fresh) (hcurrent : s.current ∈ s.ids) :
    (s.alloc.alloc.alloc.alloc.alloc.link s.current [s.later 2]).block? (s.later 2) =
      some (.empty (s.later 2)) := by
  have hne : s.later 2 ≠ s.current := fun heq => h.later_notMem 2 (heq ▸ hcurrent)
  have hnew := block?_alloc_self (h.alloc.alloc.later_notMem 0)
  rw [block?_link, if_neg hne]
  exact block?_alloc_of_some (block?_alloc_of_some hnew)

/-- The header of a loop leads to the test, or past it into the body. -/
theorem Fresh.block?_openLoop (h : s.Fresh) (hcurrent : s.current ∈ s.ids) {testFirst : Bool} :
    (s.openLoop testFirst).block? (s.later 2) =
      some ⟨s.later 2, [], [if testFirst then s.later 3 else s.later 4]⟩ := by
  rw [openLoop, block?_enter, block?_link, if_pos rfl, h.block?_header hcurrent]
  rfl

/-- A branch creates its two arms and the join, in this order. -/
@[simp] theorem ids_split {condition : Operand} :
    (s.split condition).ids = s.ids ++ [s.later 0] ++ [s.later 1] ++ [s.later 2] := by
  rw [split, ids_link, ids_alloc, ids_alloc, ids_alloc, ids_emit]
  rfl

@[simp] theorem ids_openMerge {condition : Operand} {trueFirst : Bool} :
    (s.openMerge condition trueFirst).ids = s.ids ++ [s.later 0] ++ [s.later 1] ++ [s.later 2] :=
  ids_split (s := s.draw)

@[simp] theorem ids_deliver {phi : InstrId} {join : BlockId} {entry : Phi.Entry} {value : Operand} :
    (s.deliver phi join entry value).ids = s.ids := by
  rw [deliver, ids_link, ids_emit]
  rfl

/-- A loop creates all its blocks at the start. -/
@[simp] theorem ids_openLoop {testFirst : Bool} :
    (s.openLoop testFirst).ids =
      s.ids ++ [s.later 0] ++ [s.later 1] ++ [s.later 2] ++ [s.later 3] ++ [s.later 4] := by
  rw [openLoop, ids_enter, ids_link, ids_link, ids_alloc, ids_alloc, ids_alloc, ids_alloc, ids_alloc]
  rfl

@[simp] theorem ids_openBody {condition : Operand} {body breakEntry : BlockId} {loop : Loop} :
    (s.openBody condition body breakEntry loop).ids = s.ids := by
  rw [openBody, ids_enter, ids_withLoops, ids_link, ids_emit]

@[simp] theorem ids_closeContinues {loop : Loop} {header : BlockId} :
    (s.closeContinues loop header).ids = s.ids := by
  unfold closeContinues
  split
  · exact ids_link
  · rw [ids_link, ids_link]

@[simp] theorem ids_fallTo {target : BlockId} : (s.fallTo target).ids = s.ids := by
  unfold fallTo
  split
  · rfl
  · exact ids_link

@[simp] theorem ids_openUpdate {loop : Loop} {outer : List Loop} : (s.openUpdate loop outer).ids = s.ids :=
  ids_fallTo (s := s.withLoops outer)

@[simp] theorem supply_fallTo {target : BlockId} : (s.fallTo target).supply = s.supply := by
  unfold fallTo
  split <;> rfl

@[simp] theorem supply_closeContinues {loop : Loop} {header : BlockId} :
    (s.closeContinues loop header).supply = s.supply := by
  unfold closeContinues
  split <;> rfl

theorem supply_le_reopen : s.supply ≤ s.reopen.supply := by
  unfold reopen
  split
  · exact s.supply.le_dropBlock
  · exact le_refl _

/-- A split draws an id for its branch and three for its blocks. -/
theorem supply_le_split {condition : Operand} : s.supply ≤ (s.split condition).supply :=
  ⟨Nat.le_succ _, by change _ ≤ s.supply.blocks + 1 + 1 + 1; omega⟩

theorem supply_le_openMerge {condition : Operand} {trueFirst : Bool} :
    s.supply.dropInstr ≤ (s.openMerge condition trueFirst).supply :=
  supply_le_split (s := s.draw)

theorem supply_le_openLoop {testFirst : Bool} : s.supply ≤ (s.openLoop testFirst).supply :=
  ⟨Nat.le_refl _, by change _ ≤ s.supply.blocks + 1 + 1 + 1 + 1 + 1; omega⟩

theorem supply_le_closeLoop {loop : Loop} {header : BlockId} :
    s.supply ≤ (s.closeLoop loop header).supply := by
  change s.supply ≤ (s.closeContinues loop header).supply.dropBlock
  rw [supply_closeContinues]
  exact s.supply.le_dropBlock

/-- A jump creates one block. -/
theorem supply_jumpTo {jump : Jump} {inner outer : List Loop} {loop : Loop} :
    (s.jumpTo jump inner loop outer).supply = s.supply.dropBlock := by
  simp only [jumpTo]
  split <;> rfl

theorem supply_le_jumpTo {jump : Jump} {inner outer : List Loop} {loop : Loop} :
    s.supply ≤ (s.jumpTo jump inner loop outer).supply := by
  rw [supply_jumpTo]
  exact s.supply.le_dropBlock

end Builder

/-- An instruction that takes a binding is the last one of its block, and yields the value. -/
theorem Block.bindLast?_eq_some {b bound : Block} {name : String} {value : Operand}
    (h : b.bindLast? name value = some bound) :
    ∃ init last, b.instrs = init ++ [last] ∧ value = .instr last.id ∧ last.binding = none ∧
      last.opcode.yieldsValue = true ∧ last.opcode ≠ .phi ∧
      bound = { b with instrs := init ++ [{ last with binding := some name }] } := by
  unfold bindLast? at h
  split at h
  · next last id hlast =>
    split at h
    · next hcond =>
      obtain ⟨rfl, hbinding, hyields, hphi⟩ := hcond
      refine ⟨b.instrs.dropLast, last, ?_, rfl, hbinding, hyields, hphi, (Option.some.inj h).symm⟩
      exact (List.dropLast_append_getLast? last hlast).symm
    · cases h
  · cases h

theorem Block.bindLast?_id {b bound : Block} {name : String} {value : Operand}
    (h : b.bindLast? name value = some bound) : bound.id = b.id := by
  obtain ⟨_, _, _, _, _, _, _, rfl⟩ := bindLast?_eq_some h
  rfl

theorem Block.bindLast?_succs {b bound : Block} {name : String} {value : Operand}
    (h : b.bindLast? name value = some bound) : bound.succs = b.succs := by
  obtain ⟨_, _, _, _, _, _, _, rfl⟩ := bindLast?_eq_some h
  rfl

namespace Builder

variable {s : Builder} {id : BlockId}

theorem ids_replace_bound {b bound : Block} {name : String} {value : Operand} (hat : s.At b)
    (hbound : b.bindLast? name value = some bound) : (s.replace bound).ids = s.ids :=
  ids_replace ((Block.bindLast?_id hbound).trans (block?_id hat))

/-- The instruction that has just been added takes the binding. -/
theorem bindLocal_emit {b : Block} {name : String} {opcode : Opcode} {operands : List Operand}
    (hnodup : s.ids.Nodup) (hat : s.At b) (hyields : opcode.yieldsValue = true) (hphi : opcode ≠ .phi) :
    (s.emit none opcode operands).bindLocal name (.instr s.supply.nextInstr) =
      s.emit (some name) opcode operands := by
  have hlast : Block.bindLast?
      { b with instrs := b.instrs ++ [⟨s.supply.nextInstr, opcode, operands, none⟩] } name
        (.instr s.supply.nextInstr) =
      some { b with instrs := b.instrs ++ [⟨s.supply.nextInstr, opcode, operands, some name⟩] } := by
    simp [Block.bindLast?, hyields, hphi]
  rw [bindLocal, At_emit hat, Option.bind_some, hlast]
  change (s.draw.modifyBlock s.current _).modifyBlock s.current _ = _
  rw [modifyBlock_modifyBlock]
  · exact modifyBlock_congr (s := s.draw) hnodup hat rfl
  · exact fun _ hid => hid

/-- A value that no instruction has just produced goes through a `nop`. -/
theorem bindLocal_nop {b : Block} {name : String} {value : Operand} (hat : s.At b)
    (hnone : b.bindLast? name value = none) : s.bindLocal name value = s.emit (some name) .nop [value] := by
  rw [bindLocal, hat, Option.bind_some, hnone]

/-- Where the last instruction yields the value, it is bound itself and no `nop` is needed. -/
theorem bindLocal_replace {b bound : Block} {name : String} {value : Operand} (hat : s.At b)
    (hbound : b.bindLast? name value = some bound) : s.bindLocal name value = s.replace bound := by
  rw [bindLocal, hat, Option.bind_some, hbound]

theorem ids_prefix_reopen : s.ids <+: s.reopen.ids := by
  unfold reopen
  split
  · rw [ids_enter, ids_alloc]
    exact List.prefix_append _ _
  · exact List.prefix_rfl

/-- A loop is closed with one more block, the one behind it. -/
theorem ids_closeLoop {loop : Loop} {header : BlockId} :
    (s.closeLoop loop header).ids = s.ids ++ [(s.closeContinues loop header).later 0] := by
  rw [closeLoop, ids_enter, ids_link, ids_alloc, ids_closeContinues]

theorem ids_jumpTo {kind : Jump} {inner outer : List Loop} {loop : Loop} :
    (s.jumpTo kind inner loop outer).ids = s.ids ++ [s.later 0] := by
  simp only [jumpTo, ids_withLoops]
  split
  · rw [ids_link, ids_link, ids_alloc]
  · rw [ids_link, ids_alloc]

@[simp] theorem loops_fallTo : (s.fallTo id).loops = s.loops := by
  unfold fallTo
  split <;> rfl

@[simp] theorem loops_openUpdate {loop : Loop} {outer : List Loop} : (s.openUpdate loop outer).loops = outer :=
  loops_fallTo (s := s.withLoops outer)

@[simp] theorem phis_enter : (s.enter id).phis = s.phis := rfl

@[simp] theorem phis_fallTo : (s.fallTo id).phis = s.phis := by
  unfold fallTo
  split <;> rfl

@[simp] theorem loops_reopen : s.reopen.loops = s.loops := by
  unfold reopen
  split <;> rfl

@[simp] theorem phis_reopen : s.reopen.phis = s.phis := by
  unfold reopen
  split <;> rfl

@[simp] theorem loops_closeContinues {loop : Loop} : (s.closeContinues loop id).loops = s.loops := by
  unfold closeContinues
  split <;> rfl

@[simp] theorem phis_closeContinues {loop : Loop} : (s.closeContinues loop id).phis = s.phis := by
  unfold closeContinues
  split <;> rfl

@[simp] theorem finished_enter : (s.enter id).finished = s.finished := rfl

@[simp] theorem finished_fallTo : (s.fallTo id).finished = s.finished := by
  unfold fallTo
  split <;> rfl

@[simp] theorem finished_reopen : s.reopen.finished = s.finished := by
  unfold reopen
  split <;> rfl

/-- Loops and jumps finish no graph. -/
@[simp] theorem finished_closeLoop {loop : Loop} : (s.closeLoop loop id).finished = s.finished := by
  change (s.closeContinues loop id).finished = s.finished
  unfold closeContinues
  split <;> rfl

@[simp] theorem finished_jumpTo {kind : Jump} {inner outer : List Loop} {loop : Loop} :
    (s.jumpTo kind inner loop outer).finished = s.finished := by
  simp only [jumpTo]
  split <;> rfl

@[simp] theorem loops_closeLoop {loop : Loop} : (s.closeLoop loop id).loops = s.loops :=
  loops_closeContinues

@[simp] theorem phis_closeLoop {loop : Loop} : (s.closeLoop loop id).phis = s.phis :=
  phis_closeContinues

@[simp] theorem phis_jumpTo {kind : Jump} {inner outer : List Loop} {loop : Loop} :
    (s.jumpTo kind inner loop outer).phis = s.phis := by
  simp only [jumpTo]
  split <;> rfl

@[simp] theorem loops_jumpTo {kind : Jump} {inner outer : List Loop} {loop : Loop} :
    (s.jumpTo kind inner loop outer).loops = inner ++ loop.extend kind (s.later 0) :: outer := rfl

end Builder

end ScriptSsa
