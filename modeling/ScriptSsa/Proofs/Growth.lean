import ScriptSsa.Proofs.Machine
import ScriptSsa.Proofs.OpenBlocks

/-!
Running code that is still growing.

A run is looked at while its graph is under construction. The finished graph extends what is there now: blocks
are added, instructions are added to blocks that have no successors yet, and a block that has successors stays
as it is. So whatever a change to the builder puts down is carried out in the same way in every graph that
extends the changed one.
-/

namespace ScriptSsa

/-- All that stands in `code` stands in `code'` too, and blocks with successors are the same. -/
def Extends (code code' : BlockId → Option Block) : Prop :=
  ∀ id b, code id = some b → ∃ b', code' id = some b' ∧ b.instrs <+: b'.instrs ∧ (b.succs ≠ [] → b' = b)

namespace Extends

variable {code code' code'' : BlockId → Option Block} {id : BlockId} {b : Block}

theorem refl (code : BlockId → Option Block) : Extends code code :=
  fun _ b hb => ⟨b, hb, List.prefix_rfl, fun _ => rfl⟩

theorem trans (h : Extends code code') (h' : Extends code' code'') : Extends code code'' := by
  intro id b hb
  obtain ⟨b', hb', hprefix, hlinked⟩ := h id b hb
  obtain ⟨b'', hb'', hprefix', hlinked'⟩ := h' id b' hb'
  refine ⟨b'', hb'', hprefix.trans hprefix', fun hsuccs => ?_⟩
  have heq := hlinked hsuccs
  exact (hlinked' (heq ▸ hsuccs)).trans heq

/-- A block with successors is found in the finished graph as it is now. -/
theorem linked (h : Extends code code') (hb : code id = some b) (hsuccs : b.succs ≠ []) : code' id = some b := by
  obtain ⟨b', hb', _, hlinked⟩ := h id b hb
  rw [hb', hlinked hsuccs]

/-- An instruction keeps its place in its block. -/
theorem instr {index : Nat} {i : Instr} (h : Extends code code') (hb : code id = some b)
    (hi : b.instrs[index]? = some i) : ∃ b', code' id = some b' ∧ b'.instrs[index]? = some i := by
  obtain ⟨b', hb', ⟨more, heq⟩, _⟩ := h id b hb
  refine ⟨b', hb', ?_⟩
  rw [← heq, List.getElem?_append_left (List.getElem?_eq_some_iff.mp hi).1, hi]

end Extends

namespace Builder

variable {s : Builder} {id target join : BlockId} {b : Block} {waiting pending : List BlockId}

/-! Every change extends the graph. -/

/-- A block may be changed as long as it has no successors, and only at its end. -/
theorem extends_modifyBlock {f : Block → Block} (hid : ∀ b, b.id = id → (f b).id = id)
    (hf : ∀ b, s.block? id = some b → b.succs = [] ∧ b.instrs <+: (f b).instrs) :
    Extends s.block? (s.modifyBlock id f).block? := by
  intro j b hb
  rw [block?_modifyBlock hid]
  by_cases hj : j = id
  · subst hj
    obtain ⟨hsuccs, hprefix⟩ := hf b hb
    rw [if_pos rfl, hb]
    exact ⟨f b, rfl, hprefix, fun h => absurd hsuccs h⟩
  · rw [if_neg hj]
    exact ⟨b, hb, List.prefix_rfl, fun _ => rfl⟩

theorem extends_alloc : Extends s.block? s.alloc.block? :=
  fun _ b hb => ⟨b, block?_alloc_of_some hb, List.prefix_rfl, fun _ => rfl⟩

/-- Instructions are added to a block that has no successors yet. -/
theorem extends_emit {binding : Option String} {opcode : Opcode} {operands : List Operand} (h : s.Unlinked) :
    Extends s.block? (s.emit binding opcode operands).block? := by
  obtain ⟨b, hat, hsuccs⟩ := h
  refine extends_modifyBlock (s := s.draw) (fun _ hid => hid) fun c hc => ⟨?_, List.prefix_append _ _⟩
  rw [← Option.some.inj (hat.symm.trans hc), hsuccs]

/-- A block is linked only once. -/
theorem extends_link {succs : List BlockId} (hb : s.block? id = some b) (hsuccs : b.succs = []) :
    Extends s.block? (s.link id succs).block? := by
  refine extends_modifyBlock (fun _ hid => hid) fun c hc => ⟨?_, List.prefix_rfl⟩
  rw [← Option.some.inj (hb.symm.trans hc), hsuccs]

theorem extends_split {condition : Operand} (h : s.Unlinked) :
    Extends s.block? (s.split condition).block? := by
  have hallocs : Extends s.block? (s.emit none .branch [condition]).alloc.alloc.alloc.block? :=
    (extends_emit h).trans (extends_alloc.trans (extends_alloc.trans extends_alloc))
  obtain ⟨b, hat, hsuccs⟩ := h
  exact hallocs.trans (extends_link (At_alloc (At_alloc (At_alloc (At_emit hat)))) hsuccs)

theorem extends_openMerge {condition : Operand} {trueFirst : Bool} (h : s.Unlinked) :
    Extends s.block? (s.openMerge condition trueFirst).block? :=
  extends_split (s := s.draw) h

theorem extends_deliver {phi : InstrId} {entry : Phi.Entry} {value : Operand} (h : s.Unlinked) :
    Extends s.block? (s.deliver phi join entry value).block? := by
  have hemit := @extends_emit (s.withPhis ⟨s.phis.entries.insert phi
    ⟨entry.block, entry.inputs ++ [⟨s.current, value⟩]⟩⟩) none .toPhi [.instr phi, value] h
  obtain ⟨b, hat, hsuccs⟩ := h
  exact hemit.trans (extends_link (At_emit hat) hsuccs)

/-- The join is still empty when its phi is placed, so nothing is overwritten. -/
theorem extends_place {phi : InstrId} (h : s.block? join = some (.empty join)) :
    Extends s.block? (s.place phi join).block? := by
  refine extends_modifyBlock (s := s.enter join) (fun _ hid => hid) fun c hc => ?_
  rw [← Option.some.inj (h.symm.trans hc)]
  exact ⟨rfl, List.nil_prefix⟩

/-- A block that control has left is not touched. -/
theorem extends_fallTo (h : s.IsOpen ∨ s.IsClosed) : Extends s.block? (s.fallTo target).block? := by
  rw [fallTo]
  rcases h with hopen | hclosed
  · rw [hopen.terminated]
    obtain ⟨b, hat, hb⟩ := hopen
    exact extends_link hat hb.succs
  · rw [hclosed.terminated]
    exact .refl _

theorem extends_reopen : Extends s.block? s.reopen.block? := by
  rw [reopen]
  split
  · exact extends_alloc
  · exact .refl _

theorem extends_openBody {condition : Operand} {body breakEntry : BlockId} {loop : Loop} (h : s.Unlinked) :
    Extends s.block? (s.openBody condition body breakEntry loop).block? := by
  have hemit := @extends_emit s none .branch [condition] h
  obtain ⟨b, hat, hsuccs⟩ := h
  exact hemit.trans (extends_link (At_emit hat) hsuccs)

theorem extends_openUpdate {frame : Loop} {outer : List Loop} (h : s.IsOpen ∨ s.IsClosed) :
    Extends s.block? (s.openUpdate frame outer).block? :=
  extends_fallTo (s := s.withLoops outer) h

theorem extends_openLoop {testFirst : Bool} (h : Sound waiting s) (hopen : s.IsOpen) :
    Extends s.block? (s.openLoop testFirst).block? := by
  have hallocs : Extends s.block? s.alloc.alloc.alloc.alloc.alloc.block? :=
    extends_alloc.trans (extends_alloc.trans (extends_alloc.trans (extends_alloc.trans extends_alloc)))
  obtain ⟨b, hat, hb⟩ := hopen
  have hat' := At_alloc (At_alloc (At_alloc (At_alloc (At_alloc hat))))
  exact hallocs.trans ((extends_link hat' hb.succs).trans (extends_link (h.fresh.block?_header h.current) rfl))

theorem extends_closeContinues {frame : Loop} {header : BlockId} (h : LoopEnd frame header pending s) :
    Extends s.block? (s.closeContinues frame header).block? := by
  obtain ⟨b, hat, hb⟩ := h.isOpen
  rw [closeContinues]
  cases hcontinues : frame.continues with
  | nil => exact extends_link hat hb.succs
  | cons first rest =>
      exact (extends_link hat hb.succs).trans (extends_link (h.continueTarget_empty (by simp [hcontinues])) rfl)

/-- The ends of the chains have been waiting for their links. -/
theorem extends_closeLoop {frame : Loop} {header : BlockId} (h : LoopEnd frame header pending s) :
    Extends s.block? (s.closeLoop frame header).block? :=
  (extends_closeContinues h).trans (extends_alloc.trans (extends_link h.breakTarget_empty rfl))

/-- A jump links its own block first; what it does to the chain comes on top. -/
theorem extends_jumpTo {kind : Jump} {inner outer : List Loop} {frame : Loop}
    (h : Sound (pending ++ s.loopsWaiting) s) (hloops : s.loops = inner ++ frame :: outer) :
    Extends (s.alloc.link s.current [s.later 0]).block? (s.jumpTo kind inner frame outer).block? := by
  simp only [jumpTo]
  split
  · next honce => exact extends_link (h.chainEnd_empty hloops honce) rfl
  · exact .refl _

/-! Every change is carried out by a run that has come to where it was made. -/

variable {V : Type*} {I : Interp V} {code : BlockId → Option Block} {m m' : Memory V} {x : V}

/-- The place where the next instruction will go. -/
def here (s : Builder) (m : Memory V) : Config V :=
  ⟨s.current, (s.block? s.current).elim 0 fun b => b.instrs.length, m⟩

theorem here_eq (h : s.At b) : s.here m = ⟨s.current, b.instrs.length, m⟩ := by
  rw [here, h]
  rfl

/-- In an empty block the run stands at its start. -/
theorem here_of_empty (h : s.At (.empty id)) : s.here m = ⟨id, 0, m⟩ := by
  rw [here_eq h, ← block?_id h]
  rfl

/-- One instruction is carried out in one step, and leaves the run behind it. -/
theorem reaches_emit {binding : Option String} {opcode : Opcode} {operands : List Operand} (hat : s.At b)
    (hret : opcode ≠ .ret) (hbranch : opcode ≠ .branch)
    (hcode : Extends (s.emit binding opcode operands).block? code)
    (hperform : m.perform I ⟨s.supply.nextInstr, opcode, operands, binding⟩ = some m') :
    Reaches I code (s.here m) ((s.emit binding opcode operands).here m') := by
  have hat' := @At_emit s b binding opcode operands hat
  obtain ⟨b', hb', hi⟩ := hcode.instr hat' List.getElem?_concat_length
  rw [here_eq hat, here_eq hat', List.length_append, List.length_singleton]
  exact .of_step (step_plain hb' hi hret hbranch hperform)

/-- A return ends the run with its value. -/
theorem halts_ret {value : Operand} (hat : s.At b) (hcode : Extends (s.emit none .ret [value]).block? code)
    (hvalue : m.read I value = some x) : Halts I code (s.here m) (some x) m := by
  obtain ⟨b', hb', hi⟩ := hcode.instr (At_emit hat) List.getElem?_concat_length
  rw [here_eq hat]
  exact .of_step (step_ret hb' hi rfl rfl hvalue)

/-- At the end of a block with one successor, control goes there. -/
theorem reaches_link (hb : s.block? id = some b) (hcode : Extends (s.link id [target]).block? code) :
    Reaches I code ⟨id, b.instrs.length, m⟩ ⟨target, 0, m⟩ := by
  have hlinked : (s.link id [target]).block? id = some { b with succs := [target] } := by
    rw [block?_link, if_pos rfl, hb]
    rfl
  exact .of_step (step_jump (hcode.linked hlinked (List.cons_ne_nil _ _)) (Nat.le_refl _) rfl)

theorem reaches_fallTo (hopen : s.IsOpen) (hcode : Extends (s.fallTo target).block? code) :
    Reaches I code (s.here m) ⟨target, 0, m⟩ := by
  rw [fallTo, hopen.terminated] at hcode
  obtain ⟨b, hat, _⟩ := hopen
  rw [here_eq hat]
  exact reaches_link hat hcode

/-- A branch at the end of the current block. -/
theorem reaches_branch {i : InstrId} {condition : Operand} {onTrue onFalse : BlockId}
    (hlinked : s.block? id =
      some { b with instrs := b.instrs ++ [⟨i, .branch, [condition], none⟩], succs := [onTrue, onFalse] })
    (hcode : Extends s.block? code) (hvalue : m.read I condition = some x) :
    Reaches I code ⟨id, b.instrs.length, m⟩ ⟨if I.truthy x then onTrue else onFalse, 0, m⟩ :=
  .of_step (step_branch (hcode.linked hlinked (List.cons_ne_nil _ _)) List.getElem?_concat_length rfl rfl rfl
    hvalue)

/-- The condition decides between the two arms. -/
theorem reaches_split {condition : Operand} (hat : s.At b) (hcode : Extends (s.split condition).block? code)
    (hvalue : m.read I condition = some x) :
    Reaches I code (s.here m) ⟨if I.truthy x then s.later 0 else s.later 1, 0, m⟩ := by
  rw [here_eq hat]
  exact reaches_branch (At_link (At_alloc (At_alloc (At_alloc (At_emit hat))))) hcode hvalue

theorem reaches_openMerge {condition : Operand} {trueFirst : Bool} (hat : s.At b)
    (hcode : Extends (s.openMerge condition trueFirst).block? code) (hvalue : m.read I condition = some x) :
    Reaches I code (s.here m)
      ⟨if I.truthy x = trueFirst then s.firstArm trueFirst else s.otherArm trueFirst, 0, m⟩ := by
  have hsplit := reaches_split (s := s.draw) hat hcode hvalue
  have harm : (if I.truthy x = trueFirst then s.firstArm trueFirst else s.otherArm trueFirst) =
      if I.truthy x then s.later 0 else s.later 1 := by
    cases trueFirst <;> cases I.truthy x <;> rfl
  rw [harm]
  exact hsplit

theorem reaches_openBody {condition : Operand} {body breakEntry : BlockId} {loop : Loop} (hat : s.At b)
    (hcode : Extends (s.openBody condition body breakEntry loop).block? code)
    (hvalue : m.read I condition = some x) :
    Reaches I code (s.here m) ⟨if I.truthy x then body else breakEntry, 0, m⟩ := by
  rw [here_eq hat]
  exact reaches_branch (At_link (At_emit hat)) hcode hvalue

/-- An arm of a merge leaves its value for the phi. -/
theorem reaches_deliver {phi : InstrId} {entry : Phi.Entry} {value : Operand} (hat : s.At b)
    (hcode : Extends (s.deliver phi join entry value).block? code) (hvalue : m.read I value = some x) :
    Reaches I code (s.here m)
      ⟨join, 0, { m with delivered := Function.update m.delivered phi (some x) }⟩ := by
  have hlinked : code s.current = some
      ⟨b.id, b.instrs ++ [⟨s.supply.nextInstr, .toPhi, [.instr phi, value], none⟩], [join]⟩ :=
    hcode.linked (At_link (At_emit (s := s.withPhis _) hat)) (List.cons_ne_nil _ _)
  have hperform : m.perform I ⟨s.supply.nextInstr, .toPhi, [.instr phi, value], none⟩ =
      some { m with delivered := Function.update m.delivered phi (some x) } := by
    simp only [Memory.perform, hvalue, Option.map_some]
  rw [here_eq hat]
  refine (Reaches.of_step (step_plain hlinked List.getElem?_concat_length nofun nofun hperform)).trans ?_
  refine .of_step (step_jump hlinked ?_ rfl)
  rw [List.length_append]
  exact Nat.le_refl _

/-- The phi takes the value that was delivered last. -/
theorem reaches_place {phi : InstrId} (h : s.block? join = some (.empty join))
    (hcode : Extends (s.place phi join).block? code) (hdelivered : m.delivered phi = some x) :
    Reaches I code ⟨join, 0, m⟩ ((s.place phi join).here (m.keep ⟨phi, .phi, [], none⟩ x)) := by
  have hat := @At_place _ _ phi h
  obtain ⟨b', hb', hi⟩ := hcode.instr hat List.getElem?_cons_zero
  have hperform : m.perform I ⟨phi, .phi, [], none⟩ = some (m.keep ⟨phi, .phi, [], none⟩ x) := by
    simp only [Memory.perform, Memory.result, hdelivered, Option.map_some]
  rw [here_eq hat]
  exact .of_step (step_plain hb' hi nofun nofun hperform)

/-- From the end of an arm through the phi, wherever the join was when its phi was placed. -/
theorem reaches_phi {t : Builder} {phi : InstrId} {entry : Phi.Entry} {value : Operand} (hat : s.At b)
    (hcode : Extends (s.deliver phi join entry value).block? code) (hvalue : m.read I value = some x)
    (hjoin : t.block? join = some (.empty join)) (hcode' : Extends (t.place phi join).block? code) :
    Reaches I code (s.here m) ((t.place phi join).here
      (Memory.keep { m with delivered := Function.update m.delivered phi (some x) } ⟨phi, .phi, [], none⟩ x)) :=
  (reaches_deliver hat hcode hvalue).trans (reaches_place hjoin hcode' (Function.update_self _ _ _))

theorem reaches_openLoop {testFirst : Bool} (h : Sound waiting s) (hat : s.At b)
    (hcode : Extends (s.openLoop testFirst).block? code) : Reaches I code (s.here m) ⟨s.later 2, 0, m⟩ := by
  have hat' := At_alloc (At_alloc (At_alloc (At_alloc (At_alloc hat))))
  have hcode' := (extends_link (h.fresh.block?_header h.current) rfl).trans hcode
  rw [here_eq hat]
  exact reaches_link hat' hcode'

/-- The header goes to the test, or past it in a `do`-`while` loop. -/
theorem step_header {testFirst : Bool} (h : Sound waiting s)
    (hcode : Extends (s.openLoop testFirst).block? code) :
    step I code ⟨s.later 2, 0, m⟩ = .go ⟨if testFirst then s.later 3 else s.later 4, 0, m⟩ := by
  have hlinked := hcode.linked (h.fresh.block?_openLoop h.current) (List.cons_ne_nil _ _)
  exact step_jump hlinked (Nat.le_refl _) rfl

/-- The update code of a loop leads to the chain of continues, or to the header if there is none. -/
theorem reaches_closeLoop {frame : Loop} {header : BlockId} (h : LoopEnd frame header pending s)
    (hcode : Extends (s.closeLoop frame header).block? code) :
    Reaches I code (s.here m) ⟨frame.continues.headD header, 0, m⟩ := by
  have hcode' : Extends (s.closeContinues frame header).block? code :=
    (extends_alloc.trans (extends_link h.breakTarget_empty rfl)).trans hcode
  obtain ⟨b, hat, _⟩ := h.isOpen
  rw [here_eq hat]
  rw [closeContinues] at hcode'
  cases hcontinues : frame.continues with
  | nil =>
      rw [hcontinues] at hcode'
      exact reaches_link hat hcode'
  | cons first rest =>
      rw [hcontinues] at hcode'
      exact reaches_link hat ((extends_link (h.continueTarget_empty (by simp [hcontinues])) rfl).trans hcode')

/-- Every `continue` comes back to the header in the end. -/
theorem reaches_header {frame : Loop} {header : BlockId} (h : LoopEnd frame header pending s)
    (hcode : Extends (s.closeLoop frame header).block? code) (hne : frame.continues ≠ []) :
    Reaches I code ⟨frame.continueTarget, 0, m⟩ ⟨header, 0, m⟩ := by
  have hcode' : Extends (s.closeContinues frame header).block? code :=
    (extends_alloc.trans (extends_link h.breakTarget_empty rfl)).trans hcode
  rw [closeContinues] at hcode'
  cases hcontinues : frame.continues with
  | nil => exact absurd hcontinues hne
  | cons first rest =>
      rw [hcontinues] at hcode'
      exact reaches_link (h.continueTarget_empty hne) hcode'

/-- And every `break` to the block behind the loop. -/
theorem reaches_after {frame : Loop} {header : BlockId} (h : LoopEnd frame header pending s)
    (hcode : Extends (s.closeLoop frame header).block? code) :
    Reaches I code ⟨frame.breakTarget, 0, m⟩ ((s.closeLoop frame header).here m) := by
  rw [here_of_empty h.closeLoop.2]
  exact reaches_link h.breakTarget_empty hcode

theorem reaches_jumpTo {kind : Jump} {inner outer : List Loop} {frame : Loop}
    (h : Sound (pending ++ s.loopsWaiting) s) (hat : s.At b) (hloops : s.loops = inner ++ frame :: outer)
    (hcode : Extends (s.jumpTo kind inner frame outer).block? code) :
    Reaches I code (s.here m) ⟨s.later 0, 0, m⟩ := by
  rw [here_eq hat]
  exact reaches_link (At_alloc hat) ((extends_jumpTo h hloops).trans hcode)

/-- A jump leads the end of its chain on to its merge block. -/
theorem reaches_chain {kind : Jump} {inner outer : List Loop} {frame : Loop}
    (h : Sound (pending ++ s.loopsWaiting) s) (hloops : s.loops = inner ++ frame :: outer)
    (hcode : Extends (s.jumpTo kind inner frame outer).block? code) (honce : frame.linksAtOnce kind = true) :
    Reaches I code ⟨frame.chainEnd kind, 0, m⟩ ⟨s.later 0, 0, m⟩ := by
  simp only [jumpTo, if_pos honce] at hcode
  exact reaches_link (h.chainEnd_empty hloops honce) hcode

end Builder

end ScriptSsa
