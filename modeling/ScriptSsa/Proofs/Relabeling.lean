import ScriptSsa.Proofs.MemberPaths
import ScriptSsa.Proofs.Renaming
import ScriptSsa.Proofs.Yields

/-!
Construction under other ids and other names.

A relabeling moves all instruction ids and all block ids by fixed distances and gives variables new names. It
carries over to everything that mentions ids or variables, up to whole builders. `Relabels ρ g m m'` says that
`m'` does to a relabeled builder what `m` does to the builder itself: the same result, relabeled by `g`, or the same
error, and the relabeled builder in the end. Steps only ever compare ids with each other, and moving ids keeps
distinct ones distinct, so each step relabels to itself.
-/

namespace ScriptSsa

/-- How far ids are moved, and the new name of each variable. -/
structure Relabeling where
  distance : Supply
  name : String → String

variable (ρ : Relabeling)

def InstrId.relabel (id : InstrId) : InstrId := ⟨ρ.distance.instrs + id.index⟩

def BlockId.relabel (id : BlockId) : BlockId := ⟨ρ.distance.blocks + id.index⟩

def Supply.relabel (supply : Supply) : Supply :=
  ⟨ρ.distance.instrs + supply.instrs, ρ.distance.blocks + supply.blocks⟩

namespace Operand

def relabel : Operand → Operand
  | instr id => instr (id.relabel ρ)
  | localVar name => localVar (ρ.name name)
  | constant c => constant c
  | count n => count n
  | block id => block (id.relabel ρ)

/-- The operand that names a global variable is a string. -/
def relabelGlobal : Operand → Operand
  | constant (.string name) => constant (.string (ρ.name name))
  | o => o.relabel ρ

end Operand

/-- Whether the first operand names a global variable. -/
def Opcode.namesGlobal : Opcode → Bool
  | loadGlobal | storeGlobal | deleteGlobal => true
  | _ => false

/-- The operands of an instruction. -/
def Opcode.relabelOperands (opcode : Opcode) (operands : List Operand) : List Operand :=
  match opcode.namesGlobal, operands with
  | true, name :: rest => name.relabelGlobal ρ :: rest.map (Operand.relabel ρ)
  | _, _ => operands.map (Operand.relabel ρ)

def Instr.relabel (i : Instr) : Instr :=
  ⟨i.id.relabel ρ, i.opcode, i.opcode.relabelOperands ρ i.operands, i.binding.map ρ.name⟩

def Block.relabel (b : Block) : Block :=
  ⟨b.id.relabel ρ, b.instrs.map (Instr.relabel ρ), b.succs.map (BlockId.relabel ρ)⟩

namespace Phi

def Input.relabel (input : Input) : Input := ⟨input.source.relabel ρ, input.value.relabel ρ⟩

def Entry.relabel (entry : Entry) : Entry := ⟨entry.block.relabel ρ, entry.inputs.map (Input.relabel ρ)⟩

def Entries.relabel (entries : Entries) : Entries :=
  entries.map (Prod.map (InstrId.relabel ρ) (Entry.relabel ρ))

def Table.relabel (table : Table) : Table := ⟨Entries.relabel ρ table.entries⟩

def Recorder.relabel (recorder : Recorder) : Recorder := ⟨Entries.relabel ρ recorder.entries⟩

end Phi

def Graph.relabel (g : Graph) : Graph :=
  ⟨g.entry.relabel ρ, g.name.map ρ.name, g.blocks.map (Block.relabel ρ), g.phis.relabel ρ⟩

def Loop.relabel (loop : Loop) : Loop where
  labels := loop.labels
  continueEntry := loop.continueEntry.relabel ρ
  continueTarget := loop.continueTarget.relabel ρ
  continues := loop.continues.map (BlockId.relabel ρ)
  breakEntry := loop.breakEntry.relabel ρ
  breaks := loop.breaks.map (BlockId.relabel ρ)

def Builder.relabel (s : Builder) : Builder where
  supply := s.supply.relabel ρ
  finished := ⟨s.finished.graphs.map (Graph.relabel ρ)⟩
  blocks := s.blocks.map (Block.relabel ρ)
  current := s.current.relabel ρ
  loops := s.loops.map (Loop.relabel ρ)
  phis := s.phis.relabel ρ

def Fault.relabel : Fault → Fault
  | foreignBlock id => foreignBlock (id.relabel ρ)
  | linkedTwice id => linkedTwice (id.relabel ρ)
  | occupiedJoin id => occupiedJoin (id.relabel ρ)
  | displacedContinue id => displacedContinue (id.relabel ρ)
  | unslotted name => unslotted (ρ.name name)
  | missingLoop => missingLoop

/-- What a script is refused for mentions neither ids nor variables. -/
def BuildError.relabel : BuildError → BuildError
  | unsupported what => unsupported what
  | unresolvedJump jump label => unresolvedJump jump label
  | unresolvedPhi phi => unresolvedPhi (phi.relabel ρ)
  | fault f => fault (f.relabel ρ)

def Target.relabel (target : Target) : Target := ⟨target.object.relabel ρ, target.key.relabel ρ⟩

def Chain.relabel (chain : Chain) : Chain := ⟨chain.base.relabel ρ, chain.keys.map (Operand.relabel ρ)⟩

variable {ρ}

/-! Relabeling keeps ids apart. -/

/-- Two instructions are told apart by their new ids. -/
theorem InstrId.relabel_inj {i j : InstrId} : i.relabel ρ = j.relabel ρ ↔ i = j := by
  cases i
  cases j
  simp [relabel]

theorem BlockId.relabel_inj {i j : BlockId} : i.relabel ρ = j.relabel ρ ↔ i = j := by
  cases i
  cases j
  simp [relabel]

/-- Where no global variable is named, all operands are relabeled alike. -/
theorem Opcode.relabelOperands_of_not {opcode : Opcode} (h : opcode.namesGlobal = false) (operands : List Operand) :
    opcode.relabelOperands ρ operands = operands.map (Operand.relabel ρ) := by
  unfold relabelOperands
  rw [h]

namespace Builder

variable {s : Builder} {id : BlockId}

/-- A block is found under its new id exactly if it was found under the old one. -/
theorem block?_relabel : (s.relabel ρ).block? (id.relabel ρ) = (s.block? id).map (Block.relabel ρ) := by
  have hid : (fun b : Block => decide (b.id = id.relabel ρ)) ∘ Block.relabel ρ = fun b => decide (b.id = id) := by
    funext b
    simp [Block.relabel, BlockId.relabel_inj]
  rw [block?, block?, relabel, List.find?_map, hid]

/-- A change of one block commutes with relabeling if it does so on blocks. -/
theorem modifyBlock_relabel {f f' : Block → Block} (hf : ∀ b, f' (b.relabel ρ) = (f b).relabel ρ) :
    (s.relabel ρ).modifyBlock (id.relabel ρ) f' = (s.modifyBlock id f).relabel ρ := by
  have hblocks : (s.blocks.map (Block.relabel ρ)).map (fun b => if b.id = id.relabel ρ then f' b else b) =
      (s.blocks.map fun b => if b.id = id then f b else b).map (Block.relabel ρ) := by
    rw [List.map_map, List.map_map]
    apply List.map_congr_left
    intro b _
    have hid : (b.relabel ρ).id = id.relabel ρ ↔ b.id = id := BlockId.relabel_inj
    by_cases h : b.id = id
    · simp only [Function.comp, if_pos h, if_pos (hid.mpr h), hf b]
    · simp only [Function.comp, if_neg h, if_neg (mt hid.mp h)]
  exact congrArg (fun blocks => { s.relabel ρ with blocks }) hblocks

end Builder

namespace Block

variable {b : Block}

theorem isEmpty_relabel : (b.relabel ρ).isEmpty = b.isEmpty := List.isEmpty_map

/-- Whether control can go on does not depend on ids or names. -/
theorem isTerminated_relabel : (b.relabel ρ).isTerminated = b.isTerminated := by
  have hlast : (b.relabel ρ).instrs.getLast? = b.instrs.getLast?.map (Instr.relabel ρ) := List.getLast?_map
  have hsuccs : (b.relabel ρ).succs.isEmpty = b.succs.isEmpty := List.isEmpty_map
  rw [isTerminated, isTerminated, hlast, hsuccs]
  cases b.instrs.getLast? <;> rfl

/-- Whether the last instruction takes a binding does not depend on ids or names either. -/
theorem bindLast?_relabel {name : String} {value : Operand} :
    (b.relabel ρ).bindLast? (ρ.name name) (value.relabel ρ) = (b.bindLast? name value).map (Block.relabel ρ) := by
  have hlast : (b.relabel ρ).instrs.getLast? = b.instrs.getLast?.map (Instr.relabel ρ) := List.getLast?_map
  unfold bindLast?
  rw [hlast]
  cases b.instrs.getLast? with
  | none => cases value <;> rfl
  | some last =>
      cases value with
      | instr id =>
          have hcond : ((last.relabel ρ).id = id.relabel ρ ∧ (last.relabel ρ).binding = none ∧
              (last.relabel ρ).opcode.yieldsValue = true ∧ (last.relabel ρ).opcode ≠ .phi) ↔
              (last.id = id ∧ last.binding = none ∧ last.opcode.yieldsValue = true ∧ last.opcode ≠ .phi) :=
            and_congr InstrId.relabel_inj (and_congr_left' Option.map_eq_none_iff)
          by_cases h : last.id = id ∧ last.binding = none ∧ last.opcode.yieldsValue = true ∧ last.opcode ≠ .phi
          · simp only [Option.map_some, Operand.relabel, if_pos h, if_pos (hcond.mpr h)]
            simp [Block.relabel, Instr.relabel]
          · simp only [Option.map_some, Operand.relabel, if_neg h, if_neg (mt hcond.mp h)]
            rfl
      | _ => rfl

end Block

namespace Phi

/-- Entries are found under the new id of their phi. -/
theorem Entries.find?_relabel {phi : InstrId} {entries : Entries} :
    (entries.relabel ρ).find? (phi.relabel ρ) = (entries.find? phi).map (Entry.relabel ρ) := by
  have hkey : (fun e : InstrId × Entry => decide (e.1 = phi.relabel ρ)) ∘
      Prod.map (InstrId.relabel ρ) (Entry.relabel ρ) = fun e => decide (e.1 = phi) := by
    funext e
    simp [InstrId.relabel_inj]
  rw [find?, find?, relabel, List.find?_map, hkey, Option.map_map, Option.map_map]
  rfl

/-- An entry keeps its place among the others. -/
theorem Entries.insert_relabel {phi : InstrId} {entry : Entry} {entries : Entries} :
    (entries.relabel ρ).insert (phi.relabel ρ) (entry.relabel ρ) = (entries.insert phi entry).relabel ρ := by
  induction entries with
  | nil => rfl
  | cons e rest ih =>
      change insert _ _ ((e.1.relabel ρ, e.2.relabel ρ) :: Entries.relabel ρ rest) = _
      by_cases h : e.1 = phi
      · rw [insert, insert, if_pos h, if_pos (InstrId.relabel_inj.mpr h)]
        rfl
      · rw [insert, insert, if_neg h, if_neg (mt InstrId.relabel_inj.mp h), ih]
        rfl

/-- A contribution fails for a phi that is not open, under either id. -/
theorem Recorder.contribute_relabel {phi : InstrId} {source : BlockId} {value : Operand} {recorder : Recorder} :
    (recorder.relabel ρ).contribute (phi.relabel ρ) (source.relabel ρ) (value.relabel ρ) =
      match recorder.contribute phi source value with
      | .ok recorder => .ok (recorder.relabel ρ)
      | .error e => .error (e.relabel ρ) := by
  have hfind := @Entries.find?_relabel ρ phi recorder.entries
  unfold contribute
  rw [relabel, hfind]
  cases recorder.entries.find? phi with
  | none => rfl
  | some entry =>
      have hentry :
          (⟨(entry.relabel ρ).block, (entry.relabel ρ).inputs ++ [⟨source.relabel ρ, value.relabel ρ⟩]⟩ : Entry) =
            Entry.relabel ρ ⟨entry.block, entry.inputs ++ [⟨source, value⟩]⟩ := by
        simp [Entry.relabel, Input.relabel]
      simp only [Option.map_some, hentry, Entries.insert_relabel]
      rfl

/-- The first phi without inputs is the same one. -/
theorem Recorder.finish_relabel {recorder : Recorder} :
    (recorder.relabel ρ).finish =
      match recorder.finish with
      | .ok table => .ok (table.relabel ρ)
      | .error e => .error (e.relabel ρ) := by
  have hempty : (fun e : InstrId × Entry => e.2.inputs.isEmpty) ∘ Prod.map (InstrId.relabel ρ) (Entry.relabel ρ) =
      fun e => e.2.inputs.isEmpty := by
    funext e
    simp [Entry.relabel]
  unfold finish
  rw [relabel, Entries.relabel, List.find?_map, hempty]
  cases List.find? (fun e => e.2.inputs.isEmpty) recorder.entries <;> rfl

end Phi

/-- A name means under `names` what its new name means under `names'`. -/
def Names.Match (ρ : Relabeling) (names names' : Names) : Prop :=
  ∀ access name, names'.find access (ρ.name name) = (names.find access name).mapError (Fault.relabel ρ)

namespace Build

variable {α β : Type}

/-- The relabeled outcome of a run. -/
def relabelResult (ρ : Relabeling) (g : α → α) :
    EStateM.Result BuildError Builder α → EStateM.Result BuildError Builder α
  | .ok a t => .ok (g a) (t.relabel ρ)
  | .error e t => .error (e.relabel ρ) (t.relabel ρ)

/-- Run from a relabeled builder, `m'` does as `m` does, relabeled. -/
def Relabels (ρ : Relabeling) (g : α → α) (m m' : Build α) : Prop :=
  ∀ s : Builder, m' (s.relabel ρ) = relabelResult ρ g (m s)

namespace Relabels

variable {g : α → α} {h : β → β} {m m' : Build α} {f f' : α → Build β}

theorem pure (a : α) : Relabels ρ g (Pure.pure a) (Pure.pure (g a)) := fun _ => rfl

/-- The continuations may differ, as long as they fit on results that correspond. -/
theorem bind (hm : Relabels ρ g m m') (hf : ∀ a, Relabels ρ h (f a) (f' (g a))) :
    Relabels ρ h (m >>= f) (m' >>= f') := by
  intro s
  have hrun := hm s
  cases hms : m s with
  | ok a t =>
      rw [hms] at hrun
      rw [bind_ok hms, bind_ok hrun]
      exact hf a t
  | error e t =>
      rw [hms] at hrun
      rw [bind_error hms, bind_error hrun]
      rfl

/-- What is refused is named by the kind of the syntax, which has no names in it. -/
theorem unsupported (what : String) : Relabels ρ g (Build.unsupported what) (Build.unsupported what) :=
  fun _ => rfl

end Relabels

/-! Steps on blocks. -/

/-- The distance between the two supplies stays the same. -/
theorem relabels_freshInstr : Relabels ρ (InstrId.relabel ρ) freshInstr freshInstr := fun _ => rfl

theorem relabels_newBlock : Relabels ρ (BlockId.relabel ρ) newBlock newBlock := by
  intro s
  have hblocks : s.blocks.map (Block.relabel ρ) ++ [Block.empty (s.relabel ρ).supply.nextBlock] =
      (s.blocks ++ [Block.empty s.supply.nextBlock]).map (Block.relabel ρ) := by
    rw [List.map_append]
    rfl
  exact congrArg (fun blocks => EStateM.Result.ok (s.supply.nextBlock.relabel ρ)
    { s.relabel ρ with supply := s.supply.dropBlock.relabel ρ, blocks }) hblocks

theorem relabels_current : Relabels ρ (BlockId.relabel ρ) current current := fun _ => rfl

theorem relabels_getBlock (block : BlockId) :
    Relabels ρ (Block.relabel ρ) (getBlock block) (getBlock (block.relabel ρ)) := by
  intro s
  rw [getBlock, getBlock, Builder.block?_relabel]
  cases s.block? block <;> rfl

theorem relabels_modifyBlock (block : BlockId) {f f' : Block → Block}
    (hf : ∀ b, f' (b.relabel ρ) = (f b).relabel ρ) :
    Relabels ρ id (modifyBlock block f) (modifyBlock (block.relabel ρ) f') := by
  intro s
  rw [modifyBlock, modifyBlock, Builder.block?_relabel, Builder.modifyBlock_relabel hf]
  cases s.block? block <;> rfl

theorem relabels_switchTo (block : BlockId) : Relabels ρ id (switchTo block) (switchTo (block.relabel ρ)) := by
  intro s
  rw [switchTo, switchTo, Builder.block?_relabel]
  cases s.block? block <;> rfl

/-- A block that has successors, or a target that is missing, is reported under its new id. -/
theorem relabels_link (block : BlockId) (succs : List BlockId) :
    Relabels ρ id (link block succs) (link (block.relabel ρ) (succs.map (BlockId.relabel ρ))) := by
  intro s
  rw [link, link, Builder.block?_relabel]
  cases s.block? block with
  | none => rfl
  | some b =>
      have hsuccs : (b.relabel ρ).succs.isEmpty = b.succs.isEmpty := List.isEmpty_map
      have hmodify := @Builder.modifyBlock_relabel ρ s block (fun b => { b with succs })
        (fun b => { b with succs := succs.map (BlockId.relabel ρ) }) fun _ => rfl
      have hfind : ((succs.map (BlockId.relabel ρ)).find? fun target => ((s.relabel ρ).block? target).isNone) =
          (succs.find? fun target => (s.block? target).isNone).map (BlockId.relabel ρ) := by
        rw [List.find?_map]
        congr 2
        funext target
        simp [Builder.block?_relabel]
      simp only [Option.map_some, hsuccs, hmodify, hfind]
      cases b.succs.isEmpty with
      | false => rfl
      | true => cases succs.find? fun target => (s.block? target).isNone <;> rfl

theorem relabels_linkCurrent (succs : List BlockId) :
    Relabels ρ id (linkCurrent succs) (linkCurrent (succs.map (BlockId.relabel ρ))) :=
  relabels_current.bind fun block => relabels_link block succs

theorem relabels_isTerminated : Relabels ρ id isTerminated isTerminated := by
  refine relabels_current.bind fun block => (relabels_getBlock block).bind fun b => ?_
  rw [Block.isTerminated_relabel]
  exact .pure _

theorem relabels_fallThrough (target : BlockId) :
    Relabels ρ id (fallThrough target) (fallThrough (target.relabel ρ)) := by
  refine relabels_isTerminated.bind fun terminated => ?_
  cases terminated with
  | true => exact .pure ()
  | false => exact relabels_linkCurrent [target]

theorem relabels_ensureOpen : Relabels ρ id ensureOpen ensureOpen := by
  refine relabels_isTerminated.bind fun terminated => ?_
  cases terminated with
  | true => exact relabels_newBlock.bind fun block => relabels_switchTo block
  | false => exact .pure ()

/-! Instructions and phis. -/

/-- The name that an instruction is bound to is renamed with it. -/
theorem relabels_emitBound (binding : Option String) (opcode : Opcode) (operands : List Operand) :
    Relabels ρ (InstrId.relabel ρ) (emitBound binding opcode operands)
      (emitBound (binding.map ρ.name) opcode (opcode.relabelOperands ρ operands)) := by
  refine relabels_freshInstr.bind fun i => relabels_current.bind fun block => ?_
  refine (relabels_modifyBlock block fun b => ?_).bind fun _ => .pure i
  simp [Block.relabel, Instr.relabel]

theorem relabels_perform {opcode : Opcode} (h : opcode.namesGlobal = false) (operands : List Operand) :
    Relabels ρ id (perform opcode operands) (perform opcode (operands.map (Operand.relabel ρ))) := by
  have hemit := @relabels_emitBound ρ none opcode operands
  rw [Opcode.relabelOperands_of_not h] at hemit
  exact hemit.bind fun _ => .pure ()

theorem relabels_emit {opcode : Opcode} (h : opcode.namesGlobal = false) (operands : List Operand) :
    Relabels ρ (Operand.relabel ρ) (emit opcode operands) (emit opcode (operands.map (Operand.relabel ρ))) := by
  have hemit := @relabels_emitBound ρ none opcode operands
  rw [Opcode.relabelOperands_of_not h] at hemit
  exact hemit.bind fun i => .pure (Operand.instr i)

/-- The constant that names a global variable gets the new name. -/
theorem relabels_emitGlobal {opcode : Opcode} (h : opcode.namesGlobal = true) (name : String)
    (operands : List Operand) :
    Relabels ρ (InstrId.relabel ρ) (emitBound none opcode (.constant (.string name) :: operands))
      (emitBound none opcode (.constant (.string (ρ.name name)) :: operands.map (Operand.relabel ρ))) := by
  have hemit := @relabels_emitBound ρ none opcode (.constant (.string name) :: operands)
  simp only [Opcode.relabelOperands, h] at hemit
  exact hemit

/-- Constants are not renamed: a string may be a property as well as a variable. -/
theorem relabels_constant (c : Constant) : Relabels ρ (Operand.relabel ρ) (constant c) (constant c) :=
  relabels_freshInstr.bind fun _ => .pure (Operand.constant c)

theorem relabels_count (n : Nat) : Relabels ρ (Operand.relabel ρ) (count n) (count n) :=
  relabels_freshInstr.bind fun _ => .pure (Operand.count n)

theorem relabels_blockRef (block : BlockId) :
    Relabels ρ (Operand.relabel ρ) (blockRef block) (blockRef (block.relabel ρ)) :=
  relabels_freshInstr.bind fun _ => .pure (Operand.block block)

theorem relabels_literal (c : Constant) : Relabels ρ (Operand.relabel ρ) (literal c) (literal c) :=
  (relabels_constant c).bind fun o => relabels_emit rfl [o]

/-- Both runs bind the last instruction, or both bind a `nop`. -/
theorem relabels_bindLocal (name : String) (value : Operand) :
    Relabels ρ id (bindLocal name value) (bindLocal (ρ.name name) (value.relabel ρ)) := by
  refine relabels_current.bind fun block => (relabels_getBlock block).bind fun b => ?_
  rw [Block.bindLast?_relabel]
  cases b.bindLast? name value with
  | none => exact (relabels_emitBound (some name) .nop [value]).bind fun _ => .pure ()
  | some bound => exact relabels_modifyBlock b.id fun _ => rfl

theorem relabels_openPhi (phi : InstrId) (join : BlockId) :
    Relabels ρ id (openPhi phi join) (openPhi (phi.relabel ρ) (join.relabel ρ)) := by
  intro s
  have hphis : (s.phis.relabel ρ).openPhi (phi.relabel ρ) (join.relabel ρ) = (s.phis.openPhi phi join).relabel ρ :=
    congrArg Phi.Recorder.mk (@Phi.Entries.insert_relabel ρ phi ⟨join, []⟩ s.phis.entries)
  exact congrArg (fun phis => EStateM.Result.ok () { s.relabel ρ with phis }) hphis

theorem relabels_contribute (phi : InstrId) (value : Operand) :
    Relabels ρ id (contribute phi value) (contribute (phi.relabel ρ) (value.relabel ρ)) := by
  refine relabels_current.bind fun source => ?_
  have hget : Relabels ρ (Builder.relabel ρ) (get : Build Builder) get := fun _ => rfl
  refine hget.bind fun s => ?_
  have hlift : Relabels ρ (Phi.Recorder.relabel ρ) (lift (s.phis.contribute phi source value))
      (lift ((s.phis.relabel ρ).contribute (phi.relabel ρ) (source.relabel ρ) (value.relabel ρ))) := by
    rw [Phi.Recorder.contribute_relabel]
    cases s.phis.contribute phi source value <;> exact fun _ => rfl
  refine hlift.bind fun recorder => ?_
  have hmodify : Relabels ρ id (modify fun s : Builder => { s with phis := recorder })
      (modify fun s : Builder => { s with phis := recorder.relabel ρ }) := fun _ => rfl
  exact hmodify.bind fun _ => relabels_perform rfl [.instr phi, value]

/-- A join that is not empty is a fault in both runs. -/
theorem relabels_enterJoin (join : BlockId) (phi : InstrId) :
    Relabels ρ id (enterJoin join phi) (enterJoin (join.relabel ρ) (phi.relabel ρ)) := by
  refine (relabels_switchTo join).bind fun _ => (relabels_getBlock join).bind fun b => ?_
  rw [Block.isEmpty_relabel]
  cases b.isEmpty with
  | true => exact relabels_modifyBlock join fun _ => rfl
  | false => exact fun _ => rfl

/-! Variables. -/

section

variable {names names' : Names} (hnames : Names.Match ρ names names')

include hnames

/-- Names that match are looked up to the same place. -/
theorem relabels_resolve (access : Access) (name : String) :
    Relabels ρ id (resolve names access name) (resolve names' access (ρ.name name)) := by
  intro s
  rw [resolve, resolve, hnames access name]
  cases names.find access name <;> rfl

/-- Only the load of a global variable shows the name. -/
theorem relabels_readName (name : String) :
    Relabels ρ (Operand.relabel ρ) (readName names name) (readName names' (ρ.name name)) := by
  refine (relabels_resolve hnames .read name).bind fun r => ?_
  cases r with
  | own => exact relabels_emit rfl []
  | localVar => exact relabels_freshInstr.bind fun _ => .pure (Operand.localVar name)
  | slot depth index =>
      exact (relabels_count depth).bind fun depth => (relabels_count index).bind fun index =>
        relabels_emit rfl [depth, index]
  | global =>
      have hload : Relabels ρ (Operand.relabel ρ) (emit .loadGlobal [.constant (.string name)])
          (emit .loadGlobal [.constant (.string (ρ.name name))]) :=
        (relabels_emitGlobal rfl name []).bind fun i => .pure (Operand.instr i)
      exact fun s => hload s.draw

end

theorem relabels_storeContext (depth index : Nat) (value : Operand) :
    Relabels ρ id (storeContext depth index value) (storeContext depth index (value.relabel ρ)) :=
  (relabels_count depth).bind fun depth => (relabels_count index).bind fun index =>
    relabels_perform rfl [depth, index, value]

section

variable {names names' : Names} (hnames : Names.Match ρ names names')

include hnames

/-- Only a local variable and a store to a global one show the name. -/
theorem relabels_writeName (name : String) (value : Operand) :
    Relabels ρ (Operand.relabel ρ) (writeName names name value)
      (writeName names' (ρ.name name) (value.relabel ρ)) := by
  refine (relabels_resolve hnames .write name).bind fun r => ?_
  cases r with
  | localVar => exact (relabels_bindLocal name value).bind fun _ => .pure (Operand.localVar name)
  | slot depth index => exact (relabels_storeContext depth index value).bind fun _ => .pure value
  | global | own =>
      have hstore : Relabels ρ id (perform .storeGlobal [.constant (.string name), value])
          (perform .storeGlobal [.constant (.string (ρ.name name)), value.relabel ρ]) :=
        (relabels_emitGlobal rfl name [value]).bind fun _ => .pure ()
      exact fun s => hstore.bind (fun _ => .pure value) s.draw

theorem relabels_loadParams (params : List String) (position : Nat) :
    Relabels ρ id (loadParams names position params) (loadParams names' position (params.map ρ.name)) := by
  induction params generalizing position with
  | nil => exact .pure ()
  | cons name rest ih =>
      refine (relabels_count position).bind fun o => (relabels_emit rfl [o]).bind fun argument => ?_
      exact (relabels_writeName hnames name argument).bind fun _ => ih (position + 1)

end

theorem relabels_loadSelf (slot : Option Nat) : Relabels ρ id (loadSelf slot) (loadSelf slot) := by
  cases slot with
  | none => exact .pure ()
  | some slot => exact (relabels_emit rfl []).bind fun self => relabels_storeContext 0 slot self

theorem relabels_clearVars (vars : List String) : Relabels ρ id (clearVars vars) (clearVars (vars.map ρ.name)) := by
  induction vars with
  | nil => exact .pure ()
  | cons name rest ih =>
      exact (relabels_literal .undefined).bind fun o => (relabels_bindLocal name o).bind fun _ => ih

/-- The parameters and variables of a renamed scope are the renamed ones, in the same order. -/
theorem relabels_prologue {names names' : Names} (hnames : Names.Match ρ names names') (scope : Scope) :
    Relabels ρ id (prologue names scope) (prologue names' (scope.rename ρ.name)) :=
  (relabels_loadParams hnames scope.params 0).bind fun _ => (relabels_loadSelf scope.ownSlot).bind fun _ =>
    relabels_clearVars scope.vars

/-! Functions. -/

/-- A graph is finished in both runs or in neither, and carries the new name of its function. -/
theorem relabels_inNewGraph {body body' : Build Unit} (hbody : Relabels ρ id body body') (name : Option String) :
    Relabels ρ (Graph.relabel ρ) (inNewGraph name body) (inNewGraph (name.map ρ.name) body') := by
  intro s
  have hrun : body' (s.relabel ρ).nested = relabelResult ρ id (body s.nested) := hbody s.nested
  cases hms : body s.nested with
  | error e t =>
      rw [hms] at hrun
      rw [inNewGraph_error hms, inNewGraph_error hrun]
      rfl
  | ok _ t =>
      rw [hms] at hrun
      have hfinish : (t.relabel ρ).phis.finish = _ := Phi.Recorder.finish_relabel
      rw [inNewGraph_of_ok hms, inNewGraph_of_ok hrun, hfinish]
      cases t.phis.finish <;> rfl

theorem relabels_functionValue (g : Graph) :
    Relabels ρ (Operand.relabel ρ) (functionValue g) (functionValue (g.relabel ρ)) := by
  have hqueue : Relabels ρ id (queue g) (queue (g.relabel ρ)) := by
    intro s
    have hgraphs : s.finished.graphs.map (Graph.relabel ρ) ++ [g.relabel ρ] =
        (s.finished.graphs ++ [g]).map (Graph.relabel ρ) := by
      rw [List.map_append]
      rfl
    exact congrArg (fun graphs => EStateM.Result.ok () { s.relabel ρ with finished := ⟨graphs⟩ }) hgraphs
  exact hqueue.bind fun _ => (relabels_blockRef g.entry).bind fun entry => relabels_emit rfl [entry]

/-- Whether a function is refused does not depend on names. -/
theorem relabels_checkOrdinary (isGenerator isAsync : Bool) :
    Relabels ρ id (checkOrdinary isGenerator isAsync) (checkOrdinary isGenerator isAsync) := by
  cases isGenerator <;> cases isAsync <;> exact fun _ => rfl

/-! Operations. -/

theorem relabels_unary (op : UnaryOp) (argument : Operand) :
    Relabels ρ (Operand.relabel ρ) (unary op argument) (unary op (argument.relabel ρ)) :=
  (relabels_constant _).bind fun o => relabels_emit rfl [o, argument]

theorem relabels_binary (op : BinaryOp) (left right : Operand) :
    Relabels ρ (Operand.relabel ρ) (binary op left right) (binary op (left.relabel ρ) (right.relabel ρ)) :=
  (relabels_constant _).bind fun o => relabels_emit rfl [o, left, right]

/-- A key that is not computed is a name, but not that of a variable. -/
theorem relabels_memberKey {property : Expr} {computed : Bool} {evaluate evaluate' : Build Operand}
    (h : computed = true → Relabels ρ (Operand.relabel ρ) evaluate evaluate') :
    Relabels ρ (Operand.relabel ρ) (memberKey property computed evaluate)
      (memberKey (if computed then property.rename ρ.name else property) computed evaluate') := by
  cases computed with
  | true => exact h rfl
  | false =>
      simp only [memberKey, Bool.false_eq_true, if_false]
      cases property.ident? with
      | none => exact .unsupported _
      | some name => exact relabels_literal _

/-- A key that is not computed keeps its spelling, for it is no variable. -/
theorem relabels_propertyKey (kind : PropertyKind) (computed : Bool) (key : Expr) :
    Relabels ρ (Operand.relabel ρ) (propertyKey kind computed key)
      (propertyKey kind computed (if computed then key.rename ρ.name else key)) := by
  cases kind with
  | init =>
      cases computed with
      | true => exact .unsupported _
      | false =>
          cases key with
          | ident name => exact relabels_literal _
          | literal l => exact relabels_literal _
          | _ => exact .unsupported _
  | _ => exact .unsupported _

theorem relabels_loadProperty (target : Target) :
    Relabels ρ (Operand.relabel ρ) (loadProperty target) (loadProperty (target.relabel ρ)) :=
  relabels_emit rfl [target.object, target.key]

theorem relabels_storeProperty (target : Target) (value : Operand) :
    Relabels ρ id (storeProperty target value) (storeProperty (target.relabel ρ) (value.relabel ρ)) :=
  relabels_perform rfl [target.object, target.key, value]

theorem relabels_loadChain (chain : Chain) :
    Relabels ρ (Operand.relabel ρ) (loadChain chain) (loadChain (chain.relabel ρ)) := by
  obtain ⟨base, keys⟩ := chain
  rw [loadChain, loadChain, Chain.relabel]
  induction keys with
  | nil => exact .pure base
  | cons key keys ih =>
      rw [List.map_cons, List.foldrM_cons, List.foldrM_cons]
      exact ih.bind fun object => relabels_loadProperty ⟨object, key⟩

/-- The loads on the way to a property correspond one by one. -/
theorem relabels_target {key key' : Build Operand} {chain chain' : Build Chain}
    (hkey : Relabels ρ (Operand.relabel ρ) key key') (hchain : Relabels ρ (Chain.relabel ρ) chain chain') :
    Relabels ρ (Target.relabel ρ) (target key chain) (target key' chain') :=
  hkey.bind fun key => hchain.bind fun chain => (relabels_loadChain chain).bind fun object =>
    .pure (Target.mk object key)

theorem relabels_assignName {names names' : Names} (hnames : Names.Match ρ names names') (name : String)
    (op : AssignOp) {value value' : Build Operand} (hvalue : Relabels ρ (Operand.relabel ρ) value value') :
    Relabels ρ (Operand.relabel ρ) (assignName names name op value)
      (assignName names' (ρ.name name) op value') := by
  rw [assignName, assignName]
  cases op.binary? with
  | none => exact hvalue.bind fun value => relabels_writeName hnames name value
  | some op =>
      refine (relabels_constant _).bind fun o => hvalue.bind fun value => ?_
      refine (relabels_readName hnames name).bind fun old => (relabels_emit rfl [o, old, value]).bind fun result => ?_
      exact relabels_writeName hnames name result

theorem relabels_assignMember (op : AssignOp) {target target' : Build Target} {value value' : Build Operand}
    (htarget : Relabels ρ (Target.relabel ρ) target target')
    (hvalue : Relabels ρ (Operand.relabel ρ) value value') :
    Relabels ρ (Operand.relabel ρ) (assignMember op target value) (assignMember op target' value') := by
  rw [assignMember, assignMember]
  cases op.binary? with
  | none =>
      exact hvalue.bind fun value => htarget.bind fun target =>
        (relabels_storeProperty target value).bind fun _ => .pure value
  | some op =>
      refine (relabels_constant _).bind fun o => hvalue.bind fun value => htarget.bind fun target => ?_
      refine (relabels_loadProperty target).bind fun old => (relabels_emit rfl [o, old, value]).bind fun result => ?_
      exact (relabels_storeProperty target result).bind fun _ => .pure result

theorem relabels_updateName {names names' : Names} (hnames : Names.Match ρ names names') (name : String)
    (op : UpdateOp) (isPrefix : Bool) :
    Relabels ρ (Operand.relabel ρ) (updateName names name op isPrefix)
      (updateName names' (ρ.name name) op isPrefix) := by
  cases isPrefix with
  | true =>
      refine (relabels_constant _).bind fun o => (relabels_literal one).bind fun one => ?_
      refine (relabels_readName hnames name).bind fun old => (relabels_emit rfl [o, old, one]).bind fun result => ?_
      exact relabels_writeName hnames name result
  | false =>
      refine (relabels_readName hnames name).bind fun current => (relabels_emit rfl [current]).bind fun old => ?_
      refine (relabels_constant _).bind fun o => (relabels_literal one).bind fun one => ?_
      refine (relabels_emit rfl [o, old, one]).bind fun result => ?_
      exact (relabels_writeName hnames name result).bind fun _ => .pure old

theorem relabels_updateMember (op : UpdateOp) (isPrefix : Bool) {target target' : Build Target}
    (htarget : Relabels ρ (Target.relabel ρ) target target') :
    Relabels ρ (Operand.relabel ρ) (updateMember op isPrefix target) (updateMember op isPrefix target') := by
  cases isPrefix with
  | true =>
      refine (relabels_constant _).bind fun o => (relabels_literal one).bind fun one => htarget.bind fun target => ?_
      refine (relabels_loadProperty target).bind fun old => (relabels_emit rfl [o, old, one]).bind fun result => ?_
      exact (relabels_storeProperty target result).bind fun _ => .pure result
  | false =>
      refine htarget.bind fun target => (relabels_loadProperty target).bind fun current => ?_
      refine (relabels_emit rfl [current]).bind fun old => (relabels_constant _).bind fun o => ?_
      refine (relabels_literal one).bind fun one => (relabels_emit rfl [o, old, one]).bind fun result => ?_
      exact (relabels_storeProperty target result).bind fun _ => .pure old

theorem relabels_pushArgs (arguments : List Operand) :
    Relabels ρ id (pushArgs arguments) (pushArgs (arguments.map (Operand.relabel ρ))) := by
  rw [pushArgs, pushArgs, ← List.map_reverse]
  induction arguments.reverse with
  | nil => exact .pure ()
  | cons argument rest ih => exact (relabels_perform rfl [argument]).bind fun _ => ih

theorem relabels_call (function : Operand) {receiver receiver' : Build Operand}
    (hreceiver : Relabels ρ (Operand.relabel ρ) receiver receiver') (arguments : List Operand) :
    Relabels ρ (Operand.relabel ρ) (call function receiver arguments)
      (call (function.relabel ρ) receiver' (arguments.map (Operand.relabel ρ))) := by
  refine (relabels_pushArgs arguments).bind fun _ => hreceiver.bind fun receiver => ?_
  rw [List.length_map]
  exact (relabels_count arguments.length).bind fun size => relabels_emit rfl [function, receiver, size]

theorem relabels_new (function : Operand) (arguments : List Operand) :
    Relabels ρ (Operand.relabel ρ) (new function arguments)
      (new (function.relabel ρ) (arguments.map (Operand.relabel ρ))) := by
  refine (relabels_pushArgs arguments).bind fun _ => ?_
  rw [List.length_map]
  exact (relabels_count arguments.length).bind fun size => relabels_emit rfl [function, size]

/-! The block patterns. -/

theorem relabels_branch {test test' : Build Operand} {consequent consequent' alternate alternate' : Build Unit}
    (htest : Relabels ρ (Operand.relabel ρ) test test') (hconsequent : Relabels ρ id consequent consequent')
    (halternate : Relabels ρ id alternate alternate') :
    Relabels ρ id (branch test consequent alternate) (branch test' consequent' alternate') := by
  refine htest.bind fun v => (relabels_perform rfl [v]).bind fun _ => ?_
  refine relabels_newBlock.bind fun onTrue => relabels_newBlock.bind fun onFalse => ?_
  refine relabels_newBlock.bind fun join => (relabels_linkCurrent [onTrue, onFalse]).bind fun _ => ?_
  refine (relabels_switchTo onTrue).bind fun _ => hconsequent.bind fun _ => ?_
  refine (relabels_fallThrough join).bind fun _ => (relabels_switchTo onFalse).bind fun _ => ?_
  exact halternate.bind fun _ => (relabels_fallThrough join).bind fun _ => relabels_switchTo join

theorem relabels_arm (phi : InstrId) (join block : BlockId) {value value' : Build Operand}
    (hvalue : Relabels ρ (Operand.relabel ρ) value value') :
    Relabels ρ id (arm phi join block value)
      (arm (phi.relabel ρ) (join.relabel ρ) (block.relabel ρ) value') :=
  (relabels_switchTo block).bind fun _ => hvalue.bind fun v => (relabels_contribute phi v).bind fun _ =>
    relabels_linkCurrent [join]

/-- The phi is drawn first in both runs, so its ids correspond. -/
theorem relabels_merge (condition : Operand) (trueFirst : Bool) {first first' second second' : Build Operand}
    (hfirst : Relabels ρ (Operand.relabel ρ) first first')
    (hsecond : Relabels ρ (Operand.relabel ρ) second second') :
    Relabels ρ (Operand.relabel ρ) (merge condition trueFirst first second)
      (merge (condition.relabel ρ) trueFirst first' second') := by
  refine relabels_freshInstr.bind fun phi => (relabels_perform rfl [condition]).bind fun _ => ?_
  refine relabels_newBlock.bind fun onTrue => relabels_newBlock.bind fun onFalse => ?_
  refine relabels_newBlock.bind fun join => (relabels_openPhi phi join).bind fun _ => ?_
  refine (relabels_linkCurrent [onTrue, onFalse]).bind fun _ => ?_
  cases trueFirst with
  | true =>
      exact (relabels_arm phi join onTrue hfirst).bind fun _ => (relabels_arm phi join onFalse hsecond).bind fun _ =>
        (relabels_enterJoin join phi).bind fun _ => .pure (Operand.instr phi)
  | false =>
      exact (relabels_arm phi join onFalse hfirst).bind fun _ => (relabels_arm phi join onTrue hsecond).bind fun _ =>
        (relabels_enterJoin join phi).bind fun _ => .pure (Operand.instr phi)

theorem relabels_logical (op : LogicalOp) {left left' right right' : Build Operand}
    (hleft : Relabels ρ (Operand.relabel ρ) left left') (hright : Relabels ρ (Operand.relabel ρ) right right') :
    Relabels ρ (Operand.relabel ρ) (logical op left right) (logical op left' right') :=
  hleft.bind fun v => relabels_merge v (op = .or) (.pure v) hright

theorem relabels_conditional {test test' consequent consequent' alternate alternate' : Build Operand}
    (htest : Relabels ρ (Operand.relabel ρ) test test')
    (hconsequent : Relabels ρ (Operand.relabel ρ) consequent consequent')
    (halternate : Relabels ρ (Operand.relabel ρ) alternate alternate') :
    Relabels ρ (Operand.relabel ρ) (conditional test consequent alternate)
      (conditional test' consequent' alternate') :=
  htest.bind fun v => relabels_merge v true hconsequent halternate

/-- The end of a chain of blocks moves with the chain. -/
theorem getLastD_map_relabel (blocks : List BlockId) (block : BlockId) :
    (blocks.map (BlockId.relabel ρ)).getLastD (block.relabel ρ) = (blocks.getLastD block).relabel ρ := by
  rw [List.getLastD_eq_getLast?, List.getLastD_eq_getLast?, List.getLast?_map]
  cases blocks.getLast? <;> rfl

theorem relabels_closeContinues (loop : Loop) (header : BlockId) :
    Relabels ρ id (closeContinues loop header) (closeContinues (loop.relabel ρ) (header.relabel ρ)) := by
  unfold closeContinues
  rw [Loop.relabel]
  cases loop.continues with
  | nil => exact relabels_linkCurrent [header]
  | cons first rest => exact (relabels_linkCurrent [first]).bind fun _ => relabels_link loop.continueTarget [header]

theorem relabels_pushLoop (loop : Loop) : Relabels ρ id (pushLoop loop) (pushLoop (loop.relabel ρ)) := fun _ => rfl

theorem relabels_popLoop : Relabels ρ (Loop.relabel ρ) popLoop popLoop := by
  intro s
  have hloops : (s.relabel ρ).loops = s.loops.map (Loop.relabel ρ) := rfl
  rw [popLoop, popLoop, hloops]
  cases s.loops <;> rfl

theorem relabels_loop (labels : List String) (testFirst : Bool) {test test' : Build Operand}
    {update update' body body' : Build Unit} (htest : Relabels ρ (Operand.relabel ρ) test test')
    (hupdate : Relabels ρ id update update') (hbody : Relabels ρ id body body') :
    Relabels ρ id (loop labels testFirst test update body) (loop labels testFirst test' update' body') := by
  refine relabels_newBlock.bind fun continueEntry => relabels_newBlock.bind fun breakEntry => ?_
  refine relabels_newBlock.bind fun header => relabels_newBlock.bind fun testBlock => ?_
  refine relabels_newBlock.bind fun bodyBlock => (relabels_linkCurrent [header]).bind fun _ => ?_
  have hheader : Relabels ρ id (link header [if testFirst then testBlock else bodyBlock])
      (link (header.relabel ρ) [if testFirst then testBlock.relabel ρ else bodyBlock.relabel ρ]) := by
    cases testFirst with
    | true => exact relabels_link header [testBlock]
    | false => exact relabels_link header [bodyBlock]
  refine hheader.bind fun _ => (relabels_switchTo testBlock).bind fun _ => htest.bind fun v => ?_
  refine (relabels_perform rfl [v]).bind fun _ => (relabels_linkCurrent [bodyBlock, breakEntry]).bind fun _ => ?_
  refine (relabels_pushLoop ⟨labels, continueEntry, continueEntry, [], breakEntry, []⟩).bind fun _ => ?_
  refine (relabels_switchTo bodyBlock).bind fun _ => hbody.bind fun _ => relabels_popLoop.bind fun frame => ?_
  refine (relabels_fallThrough frame.continueEntry).bind fun _ => ?_
  refine (relabels_switchTo frame.continueEntry).bind fun _ => hupdate.bind fun _ => ?_
  refine (relabels_closeContinues frame header).bind fun _ => relabels_newBlock.bind fun after => ?_
  have htarget : (frame.relabel ρ).breakTarget = frame.breakTarget.relabel ρ := getLastD_map_relabel _ _
  rw [htarget]
  exact (relabels_link frame.breakTarget [after]).bind fun _ => relabels_switchTo after

/-- A chain is prolonged at the same end, or its order is found broken in both runs. -/
theorem relabels_extendChain (kind : Jump) (loop : Loop) (join : BlockId) :
    Relabels ρ (Loop.relabel ρ) (extendChain kind loop join)
      (extendChain kind (loop.relabel ρ) (join.relabel ρ)) := by
  cases kind with
  | exit =>
      have htarget : (loop.relabel ρ).breakTarget = loop.breakTarget.relabel ρ := getLastD_map_relabel _ _
      have hbreaks : (loop.relabel ρ).breaks ++ [join.relabel ρ] =
          (loop.breaks ++ [join]).map (BlockId.relabel ρ) := by
        rw [List.map_append]
        rfl
      simp only [extendChain, htarget, hbreaks]
      exact (relabels_link loop.breakTarget [join]).bind fun _ => .pure { loop with breaks := loop.breaks ++ [join] }
  | next =>
      have hentry : ((loop.relabel ρ).continueTarget = (loop.relabel ρ).continueEntry) =
          (loop.continueTarget = loop.continueEntry) := propext BlockId.relabel_inj
      have hcontinues : (loop.relabel ρ).continues ++ [join.relabel ρ] =
          (loop.continues ++ [join]).map (BlockId.relabel ρ) := by
        rw [List.map_append]
        rfl
      have hempty : (loop.relabel ρ).continues.isEmpty = loop.continues.isEmpty := List.isEmpty_map
      simp only [extendChain, hentry, hcontinues, hempty]
      cases loop.continues.isEmpty with
      | true =>
          by_cases htargets : loop.continueTarget = loop.continueEntry
          · simp only [if_pos htargets, if_true]
            exact .pure { loop with continueTarget := join, continues := [join] }
          · simp only [if_neg htargets, if_true]
            exact fun _ => rfl
      | false =>
          exact (relabels_link loop.continueTarget [join]).bind fun _ =>
            .pure { loop with continueTarget := join, continues := loop.continues ++ [join] }

/-- Labels are not renamed, so both runs find the same loop. -/
theorem relabels_jump (kind : Jump) (label : Option String) :
    Relabels ρ id (jump kind label) (jump kind label) := by
  have hget : Relabels ρ (Builder.relabel ρ) (get : Build Builder) get := fun _ => rfl
  have haccepts : (fun loop : Loop => !loop.accepts label) ∘ Loop.relabel ρ = fun loop => !loop.accepts label := rfl
  have hset : ∀ loops, Relabels ρ id (setLoops loops) (setLoops (loops.map (Loop.relabel ρ))) := fun _ _ => rfl
  refine hget.bind fun s => ?_
  have hdrop : (s.relabel ρ).loops.dropWhile (fun loop => !loop.accepts label) =
      (s.loops.dropWhile fun loop => !loop.accepts label).map (Loop.relabel ρ) := by
    rw [Builder.relabel, List.dropWhile_map, haccepts]
  have htake : (s.relabel ρ).loops.takeWhile (fun loop => !loop.accepts label) =
      (s.loops.takeWhile fun loop => !loop.accepts label).map (Loop.relabel ρ) := by
    rw [Builder.relabel, List.takeWhile_map, haccepts]
  dsimp only
  rw [hdrop, htake]
  cases s.loops.dropWhile fun loop => !loop.accepts label with
  | nil => exact fun _ => rfl
  | cons loop outer =>
      refine relabels_newBlock.bind fun join => (relabels_linkCurrent [join]).bind fun _ => ?_
      refine (relabels_extendChain kind loop join).bind fun loop => ?_
      have hloops := hset ((s.loops.takeWhile fun loop => !loop.accepts label) ++ loop :: outer)
      rwa [List.map_append] at hloops

end Build

end ScriptSsa
