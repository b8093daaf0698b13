import Mathlib.Data.List.Intervals
import ScriptSsa.Proofs.Acceptance
import ScriptSsa.Proofs.ControlFlow
import ScriptSsa.Proofs.Dominance

/-!
Which ids a construction gives out.

All graphs of a construction draw from one supply, and so do constructions that follow each other. Block ids
are for blocks alone: each that is drawn is the id of one block of one graph. Instruction ids are also drawn for
operands that are no instructions, so of these it only holds that no two instructions share one. Within a graph
the blocks, and within a block the instructions, stand in the order of their ids; the id of a phi is drawn
before the arms of its merge are lowered, but the block that it opens has no instruction before it.
-/

open scoped List

namespace ScriptSsa

namespace Supply

variable {a b c : Supply}

/-- The block ids that are drawn between two supplies. -/
def blocksTo (a b : Supply) : List BlockId := (List.Ico a.blocks b.blocks).map BlockId.mk

theorem blocksTo_self : a.blocksTo a = [] := by
  rw [blocksTo, List.Ico.self_empty, List.map_nil]

theorem blocksTo_dropBlock : a.blocksTo a.dropBlock = [a.nextBlock] := by
  rw [blocksTo]
  change (List.Ico a.blocks (a.blocks + 1)).map BlockId.mk = _
  rw [List.Ico.succ_singleton]
  rfl

theorem blocksTo_append (h : a ≤ b) (h' : b ≤ c) : a.blocksTo b ++ b.blocksTo c = a.blocksTo c := by
  rw [blocksTo, blocksTo, ← List.map_append, List.Ico.append_consecutive h.2 h'.2, blocksTo]

theorem mem_blocksTo {id : BlockId} : id ∈ a.blocksTo b ↔ a.blocks ≤ id.index ∧ id.index < b.blocks := by
  rw [blocksTo, List.mem_map]
  constructor
  · rintro ⟨index, hindex, rfl⟩
    exact List.Ico.mem.mp hindex
  · intro h
    exact ⟨id.index, List.Ico.mem.mpr h, rfl⟩

end Supply

def Block.instrIds (b : Block) : List InstrId := b.instrs.map Instr.id

namespace Graph

def blockIds (g : Graph) : List BlockId := g.blocks.map Block.id

def instrIds (g : Graph) : List InstrId := g.blocks.flatMap Block.instrIds

/-- All instructions without their bindings. -/
def bare (g : Graph) : List Instr := g.blocks.flatMap fun b => b.instrs.map Instr.bare

theorem map_bare_id (g : Graph) : g.bare.map Instr.id = g.instrIds := by
  rw [bare, List.map_flatMap]
  refine List.flatMap_congr fun b _ => ?_
  rw [List.map_map]
  rfl

/-- Blocks and instructions stand in the order of their ids. -/
structure Ordered (g : Graph) : Prop where
  blocks : g.blockIds.Pairwise fun a b => a.index < b.index
  instrs : ∀ b ∈ g.blocks, b.instrIds.Pairwise fun i j => i.index < j.index

end Graph

namespace Builder

variable {s t : Builder} {id : BlockId} {b : Block}

/-- The ids of all blocks, those of finished functions included. -/
def blockIds (s : Builder) : List BlockId := s.ids ++ s.finished.graphs.flatMap Graph.blockIds

/-- All instructions without their bindings, those of finished functions included. -/
def bareAll (s : Builder) : List Instr := s.bare ++ s.finished.graphs.flatMap Graph.bare

/-- Blocks and instructions stand in the order of their ids, and no id is ahead of the supply. -/
structure Ordered (s : Builder) : Prop where
  blocks : s.ids.Pairwise fun a b => a.index < b.index
  fresh : s.Fresh
  instrs : ∀ b ∈ s.blocks, b.instrIds.Pairwise fun i j => i.index < j.index
  drawn : ∀ b ∈ s.blocks, ∀ i ∈ b.instrIds, i.index < s.supply.instrs

/-- A change of one block keeps the order if it does so in that block. -/
theorem Ordered.modifyBlock {f : Block → Block} (h : s.Ordered) (hid : ∀ b, b.id = id → (f b).id = id)
    (hf : ∀ b ∈ s.blocks, b.id = id → ((f b).instrIds.Pairwise fun i j => i.index < j.index) ∧
      ∀ i ∈ (f b).instrIds, i.index < s.supply.instrs) : (s.modifyBlock id f).Ordered := by
  have hchanged : ∀ c ∈ (s.modifyBlock id f).blocks, (c.instrIds.Pairwise fun i j => i.index < j.index) ∧
      ∀ i ∈ c.instrIds, i.index < s.supply.instrs := by
    intro c hc
    obtain ⟨b, hb, rfl⟩ := List.mem_map.mp hc
    by_cases hbid : b.id = id
    · rw [if_pos hbid]
      exact hf b hb hbid
    · rw [if_neg hbid]
      exact ⟨h.instrs b hb, h.drawn b hb⟩
  refine ⟨?_, ?_, fun c hc => (hchanged c hc).1, fun c hc => (hchanged c hc).2⟩
  · rw [ids_modifyBlock hid]
    exact h.blocks
  · unfold Fresh
    rw [ids_modifyBlock hid]
    exact h.fresh

theorem ordered_nested (s : Builder) : s.nested.Ordered where
  blocks := List.pairwise_singleton _ _
  fresh := by
    intro id hid
    rw [List.mem_singleton.mp hid]
    exact Nat.lt_succ_self _
  instrs := by
    intro b hb
    rw [List.mem_singleton.mp hb]
    exact .nil
  drawn := by
    intro b hb i hi
    rw [List.mem_singleton.mp hb] at hi
    cases hi

end Builder

/-- Every operand is a value or stands for the function of one of the graphs. -/
def Instr.RefersTo (graphs : List Graph) (i : Instr) : Prop :=
  ∀ o ∈ i.operands, o.HeldIn Set.univ ∨ o.IsEntryOf graphs

theorem Instr.RefersTo.mono {graphs graphs' : List Graph} {i : Instr} (h : i.RefersTo graphs)
    (hsub : graphs ⊆ graphs') : i.RefersTo graphs' :=
  fun o ho => (h o ho).imp_right fun ⟨g, hg, hentry⟩ => ⟨g, hsub hg, hentry⟩

/-- The instructions have ids of their own, drawn between the two supplies, and refer to no graphs but these. -/
structure Issued (before after : Supply) (graphs : List Graph) (new : List Instr) : Prop where
  nodup : (new.map Instr.id).Nodup
  drawn : ∀ i ∈ new, before.instrs ≤ i.id.index ∧ i.id.index < after.instrs
  refers : ∀ i ∈ new, i.RefersTo graphs

namespace Issued

variable {a b c : Supply} {graphs graphs' : List Graph} {new new' : List Instr}

theorem nil : Issued a b graphs [] := ⟨List.nodup_nil, (fun _ h => nomatch h), fun _ h => nomatch h⟩

/-- Ids of a later interval are different ones. -/
theorem append (h : Issued a b graphs new) (h' : Issued b c graphs' new') (hab : a ≤ b) (hbc : b ≤ c)
    (hsub : graphs ⊆ graphs') : Issued a c graphs' (new' ++ new) where
  nodup := Supply.nodup_append h.nodup h'.nodup (fun i hi => (h.drawn i hi).2) fun i hi => (h'.drawn i hi).1
  drawn := Supply.drawn_append hab hbc h.drawn h'.drawn
  refers := by
    intro i hi
    rcases List.mem_append.mp hi with hi | hi
    · exact h'.refers i hi
    · exact (h.refers i hi).mono hsub

end Issued

/-- From `s` to `t` ids are given out: all the block ids that are drawn meanwhile, and some of the instruction
ids. -/
structure Issues (s t : Builder) : Prop where
  supply : s.supply ≤ t.supply
  finished : s.finished.graphs ⊆ t.finished.graphs
  blocks : t.blockIds.Perm (s.supply.blocksTo t.supply ++ s.blockIds)
  instrs : ∃ new, t.bareAll.Perm (new ++ s.bareAll) ∧ Issued s.supply t.supply t.finished.graphs new
  ordered : s.Ordered → t.Ordered

namespace Issues

variable {s t u : Builder} {id : BlockId} {b : Block}

theorem trans (h : Issues s t) (h' : Issues t u) : Issues s u where
  supply := le_trans h.supply h'.supply
  finished := List.Subset.trans h.finished h'.finished
  blocks := by
    rw [← Supply.blocksTo_append h.supply h'.supply, List.append_assoc]
    calc u.blockIds
        ~ t.supply.blocksTo u.supply ++ t.blockIds := h'.blocks
      _ ~ t.supply.blocksTo u.supply ++ (s.supply.blocksTo t.supply ++ s.blockIds) := h.blocks.append_left _
      _ ~ s.supply.blocksTo t.supply ++ (t.supply.blocksTo u.supply ++ s.blockIds) :=
        List.perm_append_comm_assoc _ _ _
  instrs := by
    obtain ⟨new, hperm, hissued⟩ := h.instrs
    obtain ⟨new', hperm', hissued'⟩ := h'.instrs
    refine ⟨new' ++ new, ?_, hissued.append hissued' h.supply h'.supply h'.finished⟩
    rw [List.append_assoc]
    exact hperm'.trans (hperm.append_left new')
  ordered hs := h'.ordered (h.ordered hs)

/-- A change that gives out no ids. -/
theorem quiet (hsupply : s.supply ≤ t.supply) (hdrawn : t.supply.blocks = s.supply.blocks) (hids : t.ids = s.ids)
    (hbare : t.bare = s.bare) (hfinished : t.finished = s.finished) (hordered : s.Ordered → t.Ordered) :
    Issues s t where
  supply := hsupply
  finished := by rw [hfinished]; exact List.Subset.refl _
  blocks := by
    have hnone : s.supply.blocksTo t.supply = [] := by
      rw [Supply.blocksTo, hdrawn, List.Ico.self_empty, List.map_nil]
    rw [hnone, Builder.blockIds, hids, hfinished]
    exact .refl _
  instrs := ⟨[], by rw [Builder.bareAll, hbare, hfinished]; exact .refl _, .nil⟩
  ordered := hordered

/-- A change that leaves the blocks alone. -/
theorem aside (hsupply : s.supply ≤ t.supply) (hdrawn : t.supply.blocks = s.supply.blocks)
    (hblocks : t.blocks = s.blocks) (hfinished : t.finished = s.finished) : Issues s t := by
  have hids : t.ids = s.ids := by rw [Builder.ids, hblocks, Builder.ids]
  refine quiet hsupply hdrawn hids (by rw [Builder.bare, hblocks, Builder.bare]) hfinished fun hs =>
    ⟨hids ▸ hs.blocks, ?_, ?_, ?_⟩
  · intro id hid
    rw [hdrawn]
    exact hs.fresh id (hids ▸ hid)
  · exact hblocks ▸ hs.instrs
  · intro b hb i hi
    exact (hs.drawn b (hblocks ▸ hb) i hi).trans_le hsupply.1

theorem refl (s : Builder) : Issues s s := aside (le_refl _) rfl rfl rfl

theorem draw : Issues s s.draw := aside (Supply.le_dropInstr _) rfl rfl rfl

theorem enter (id : BlockId) : Issues s (s.enter id) := aside (le_refl _) rfl rfl rfl

theorem withPhis (phis : Phi.Recorder) : Issues s (s.withPhis phis) := aside (le_refl _) rfl rfl rfl

theorem withLoops (loops : List Loop) : Issues s (s.withLoops loops) := aside (le_refl _) rfl rfl rfl

/-- A change of one block that leaves its instructions as they are, but for bindings. -/
theorem modifyBlock {f : Block → Block} (hid : ∀ b, b.id = id → (f b).id = id)
    (hf : ∀ b ∈ s.blocks, b.id = id → (f b).instrs.map Instr.bare = b.instrs.map Instr.bare) :
    Issues s (s.modifyBlock id f) := by
  refine quiet (le_refl _) rfl (Builder.ids_modifyBlock hid) (Builder.flatMap_modifyBlock hf) rfl fun hs => ?_
  refine hs.modifyBlock hid fun b hb hbid => ?_
  have hids : (f b).instrIds = b.instrIds := by
    have hbare := congrArg (List.map Instr.id) (hf b hb hbid)
    rwa [List.map_map, List.map_map] at hbare
  rw [hids]
  exact ⟨hs.instrs b hb, hs.drawn b hb⟩

theorem link (id : BlockId) (succs : List BlockId) : Issues s (s.link id succs) :=
  modifyBlock (fun _ h => h) fun _ _ _ => rfl

theorem replace {bound : Block} {name : String} {value : Operand} (hnodup : s.ids.Nodup) (hat : s.At b)
    (hbound : b.bindLast? name value = some bound) : Issues s (s.replace bound) := by
  obtain ⟨init, last, hinstrs, _, _, _, _, rfl⟩ := Block.bindLast?_eq_some hbound
  have hid : b.id = s.current := Builder.block?_id hat
  refine modifyBlock (fun _ _ => hid) fun c hc hid => ?_
  have heq : c = b := Option.some.inj ((hid ▸ Builder.block?_of_mem hnodup hc).symm.trans hat)
  rw [heq, hinstrs, List.map_append, List.map_append]
  rfl

theorem alloc : Issues s s.alloc where
  supply := Supply.le_dropBlock _
  finished := List.Subset.refl _
  blocks := by
    change (s.alloc.ids ++ s.finished.graphs.flatMap Graph.blockIds).Perm
      (s.supply.blocksTo s.supply.dropBlock ++ s.blockIds)
    rw [Builder.ids_alloc, Supply.blocksTo_dropBlock, List.append_assoc]
    exact List.perm_middle
  instrs := by
    refine ⟨[], ?_, .nil⟩
    rw [Builder.bareAll, Builder.bare_alloc]
    exact .refl _
  ordered hs := by
    refine ⟨?_, ?_, ?_, ?_⟩
    · rw [Builder.ids_alloc, List.pairwise_append]
      refine ⟨hs.blocks, List.pairwise_singleton _ _, fun a ha c hc => ?_⟩
      rw [List.mem_singleton.mp hc]
      exact hs.fresh a ha
    · intro id hid
      rw [Builder.ids_alloc, List.mem_append, List.mem_singleton] at hid
      rcases hid with hid | rfl
      · exact (hs.fresh id hid).trans (Nat.lt_succ_self _)
      · exact Nat.lt_succ_self _
    · intro b hb
      rcases List.mem_append.mp hb with hb | hb
      · exact hs.instrs b hb
      · rw [List.mem_singleton.mp hb]
        exact .nil
    · intro b hb i hi
      rcases List.mem_append.mp hb with hb | hb
      · exact hs.drawn b hb i hi
      · rw [List.mem_singleton.mp hb] at hi
        cases hi

theorem emit {binding : Option String} {opcode : Opcode} {operands : List Operand} (hnodup : s.ids.Nodup)
    (hat : s.At b) (hrefers : ∀ o ∈ operands, o.HeldIn Set.univ ∨ o.IsEntryOf s.finished.graphs) :
    Issues s (s.emit binding opcode operands) where
  supply := Supply.le_dropInstr _
  finished := List.Subset.refl _
  blocks := by
    change ((s.emit binding opcode operands).ids ++ _).Perm (s.supply.blocksTo s.supply.dropInstr ++ s.blockIds)
    rw [Builder.ids_emit]
    have hnone : s.supply.blocksTo s.supply.dropInstr = [] := Supply.blocksTo_self
    rw [hnone]
    exact .refl _
  instrs := by
    refine ⟨[⟨s.supply.nextInstr, opcode, operands, none⟩], (Builder.perm_bare_emit hnodup hat).append_right _,
      List.nodup_singleton _, fun i hi => ?_, fun i hi => ?_⟩
    · rw [List.mem_singleton.mp hi]
      exact ⟨le_refl _, Nat.lt_succ_self _⟩
    · rw [List.mem_singleton.mp hi]
      exact hrefers
  ordered hs := by
    refine (draw.ordered hs).modifyBlock (fun _ h => h) fun b hb _ => ?_
    rw [Block.instrIds, List.map_append]
    refine ⟨List.pairwise_append.mpr ⟨hs.instrs b hb, List.pairwise_singleton _ _, ?_⟩, fun i hi => ?_⟩
    · intro i hi j hj
      rw [List.mem_singleton.mp hj]
      exact hs.drawn b hb i hi
    · rcases List.mem_append.mp hi with hi | hi
      · exact (hs.drawn b hb i hi).trans (Nat.lt_succ_self _)
      · rw [List.mem_singleton.mp hi]
        exact Nat.lt_succ_self _

/-- A phi takes the id that was drawn before its arms were lowered. -/
theorem place {join : BlockId} (h : Issues s.draw t) (hnodup : t.ids.Nodup)
    (hjoin : t.block? join = some (.empty join)) : Issues s (t.place s.supply.nextInstr join) where
  supply := le_trans (Supply.le_dropInstr _) h.supply
  finished := h.finished
  blocks := by
    rw [Builder.blockIds, Builder.ids_place]
    exact h.blocks
  instrs := by
    obtain ⟨new, hperm, hissued⟩ := h.instrs
    have hphi : Issued s.supply s.draw.supply [] [⟨s.supply.nextInstr, .phi, [], none⟩] := by
      refine ⟨List.nodup_singleton _, fun i hi => ?_, fun i hi => ?_⟩
      · rw [List.mem_singleton.mp hi]
        exact ⟨le_refl _, Nat.lt_succ_self _⟩
      · rw [List.mem_singleton.mp hi]
        exact fun _ h => nomatch h
    refine ⟨_, ?_, hphi.append hissued (Supply.le_dropInstr _) h.supply (List.nil_subset _)⟩
    calc (t.place s.supply.nextInstr join).bareAll
        ~ ⟨s.supply.nextInstr, .phi, [], none⟩ :: t.bareAll := (Builder.perm_bare_place hnodup hjoin).append_right _
      _ ~ ⟨s.supply.nextInstr, .phi, [], none⟩ :: (new ++ s.bareAll) := hperm.cons _
      _ ~ new ++ ⟨s.supply.nextInstr, .phi, [], none⟩ :: s.bareAll := List.perm_middle.symm
      _ = new ++ [⟨s.supply.nextInstr, .phi, [], none⟩] ++ s.bareAll := List.append_cons _ _ _
  ordered hs := by
    refine ((enter join).ordered (h.ordered (draw.ordered hs))).modifyBlock (fun _ h => h) fun b _ _ => ?_
    refine ⟨List.pairwise_singleton _ _, fun i hi => ?_⟩
    rw [List.mem_singleton.mp hi]
    exact h.supply.1

/-- The graph of a nested function takes what its trace gives out. -/
theorem function {name : Option String} {table : Phi.Table} (h : Issues s.nested t) :
    Issues s (s.resume t ⟨s.supply.nextBlock, name, t.blocks, table⟩) where
  supply := le_trans (Supply.le_dropBlock _) h.supply
  finished := List.Subset.trans h.finished (List.subset_append_left _ _)
  blocks := by
    have hdrawn : s.supply.blocksTo t.supply = s.supply.nextBlock :: s.nested.supply.blocksTo t.supply := by
      rw [← Supply.blocksTo_append (Supply.le_dropBlock s.supply) h.supply, Supply.blocksTo_dropBlock]
      rfl
    change _ ~ s.supply.blocksTo t.supply ++ s.blockIds
    rw [hdrawn]
    calc s.ids ++
          (t.finished.graphs ++ [(⟨s.supply.nextBlock, name, t.blocks, table⟩ : Graph)]).flatMap Graph.blockIds
        ~ s.ids ++ t.blockIds := by
          rw [List.flatMap_append, List.flatMap_singleton]
          exact List.perm_append_comm.append_left _
      _ ~ s.ids ++ (s.nested.supply.blocksTo t.supply ++
            s.supply.nextBlock :: s.finished.graphs.flatMap Graph.blockIds) := h.blocks.append_left _
      _ ~ s.ids ++ (s.supply.nextBlock :: s.nested.supply.blocksTo t.supply ++
            s.finished.graphs.flatMap Graph.blockIds) := List.perm_middle.append_left _
      _ ~ s.supply.nextBlock :: s.nested.supply.blocksTo t.supply ++ s.blockIds :=
          List.perm_append_comm_assoc _ _ _
  instrs := by
    obtain ⟨new, hperm, hnew, hdrawn, hrefers⟩ := h.instrs
    refine ⟨new, ?_, hnew, hdrawn, fun i hi => (hrefers i hi).mono (List.subset_append_left _ _)⟩
    calc s.bare ++ (t.finished.graphs ++ [(⟨s.supply.nextBlock, name, t.blocks, table⟩ : Graph)]).flatMap Graph.bare
        ~ s.bare ++ t.bareAll := by
          rw [List.flatMap_append, List.flatMap_singleton]
          exact List.perm_append_comm.append_left _
      _ ~ s.bare ++ (new ++ s.finished.graphs.flatMap Graph.bare) := hperm.append_left _
      _ ~ new ++ s.bareAll := List.perm_append_comm_assoc _ _ _
  ordered hs := by
    have hsupply : s.supply ≤ t.supply := le_trans (Supply.le_dropBlock _) h.supply
    refine ⟨hs.blocks, fun id hid => ?_, hs.instrs, fun b hb i hi => ?_⟩
    · exact (hs.fresh id hid).trans_le hsupply.2
    · exact (hs.drawn b hb i hi).trans_le hsupply.1

theorem fallTo (target : BlockId) : Issues s (s.fallTo target) := by
  unfold Builder.fallTo
  split
  · exact refl s
  · exact link _ _

theorem reopen : Issues s s.reopen := by
  unfold Builder.reopen
  split
  · exact alloc.trans (enter _)
  · exact refl s

theorem emitBranch {condition : Operand} {held : Set InstrId} (hnodup : s.ids.Nodup) (hat : s.At b)
    (hcondition : condition.HeldIn held) : Issues s (s.emit none .branch [condition]) :=
  emit hnodup hat (List.forall_mem_singleton.mpr (.inl (hcondition.mono (Set.subset_univ _))))

theorem split {condition : Operand} {held : Set InstrId} (hnodup : s.ids.Nodup) (hat : s.At b)
    (hcondition : condition.HeldIn held) : Issues s (s.split condition) :=
  (emitBranch hnodup hat hcondition).trans (alloc.trans (alloc.trans (alloc.trans (link _ _))))

theorem deliver {phi : InstrId} {join : BlockId} {entry : Phi.Entry} {value : Operand} {held : Set InstrId}
    (hnodup : s.ids.Nodup) (hat : s.At b) (hvalue : value.HeldIn held) :
    Issues s (s.deliver phi join entry value) := by
  let recorded := s.withPhis ⟨s.phis.entries.insert phi ⟨entry.block, entry.inputs ++ [⟨s.current, value⟩]⟩⟩
  have hemit : Issues recorded (recorded.emit none .toPhi [.instr phi, value]) :=
    emit hnodup hat (List.forall_mem_cons.mpr ⟨.inl trivial, List.forall_mem_singleton.mpr
      (.inl (hvalue.mono (Set.subset_univ _)))⟩)
  exact (withPhis _).trans (hemit.trans (link _ _))

theorem openLoop {testFirst : Bool} : Issues s (s.openLoop testFirst) :=
  alloc.trans (alloc.trans (alloc.trans (alloc.trans (alloc.trans ((link _ _).trans ((link _ _).trans (enter _)))))))

theorem openBody {condition : Operand} {held : Set InstrId} {body breakEntry : BlockId} {loop : Loop}
    (hnodup : s.ids.Nodup) (hat : s.At b) (hcondition : condition.HeldIn held) :
    Issues s (s.openBody condition body breakEntry loop) :=
  (emitBranch hnodup hat hcondition).trans ((link _ _).trans ((withLoops _).trans (enter _)))

theorem openUpdate {loop : Loop} {outer : List Loop} : Issues s (s.openUpdate loop outer) :=
  (withLoops outer).trans ((fallTo _).trans (enter _))

theorem closeLoop {loop : Loop} {header : BlockId} : Issues s (s.closeLoop loop header) := by
  have hclose : Issues s (s.closeContinues loop header) := by
    unfold Builder.closeContinues
    split
    · exact link _ _
    · exact (link _ _).trans (link _ _)
  exact hclose.trans (alloc.trans ((link _ _).trans (enter _)))

theorem jumpTo {kind : Jump} {inner outer : List Loop} {loop : Loop} :
    Issues s (s.jumpTo kind inner loop outer) := by
  have hlinked : Issues s (s.alloc.link s.current [s.later 0]) := alloc.trans (link _ _)
  simp only [Builder.jumpTo]
  split
  · exact hlinked.trans ((link _ _).trans (withLoops _))
  · exact hlinked.trans (withLoops _)

end Issues

theorem Trace.issues {k : Stage} {held held' : Set InstrId} {s t : Builder} (h : Trace k held s held' t) :
    Issues s t := by
  induction h with
  | refl | skip => exact .refl _
  | trans _ _ ih₁ ih₂ => exact ih₁.trans ih₂
  | seq _ _ ih₁ ih₂ => exact ih₁.trans ih₂
  | draw => exact .draw
  | emit hready _ hheld =>
      obtain ⟨_, hat, _⟩ := hready.1
      exact .emit hready.nodup hat fun o ho => (hheld o ho).imp_left (.mono (Set.subset_univ _))
  | rebind hready hat hbound => exact .replace hready.nodup hat hbound
  | @merge _ _ _ s s₁ s₂ condition v₁ v₂ trueFirst e₁ e₂ hready hcondition _ hready₁ hv₁ _ _ hready₂ hv₂ _ hjoin
      ih₁ ih₂ =>
      obtain ⟨_, hat, _⟩ := hready.1
      obtain ⟨_, hat₁, _⟩ := hready₁.1
      obtain ⟨_, hat₂, _⟩ := hready₂.1
      have hopen : Issues s.draw (s.openMerge condition trueFirst) :=
        (Issues.split (s := s.draw) hready.nodup hat hcondition).trans ((Issues.withPhis _).trans (.enter _))
      have hfirst : Issues s₁ ((s₁.deliver s.supply.nextInstr (s.later 2) e₁ v₁).enter (s.otherArm trueFirst)) :=
        (Issues.deliver hready₁.nodup hat₁ hv₁).trans (.enter _)
      have hsecond : Issues s₂ (s₂.deliver s.supply.nextInstr (s.later 2) e₂ v₂) := .deliver hready₂.nodup hat₂ hv₂
      refine (hopen.trans (ih₁.trans (hfirst.trans (ih₂.trans hsecond)))).place ?_ hjoin
      rw [Builder.ids_deliver]
      exact hready₂.nodup
  | function _ _ ih => exact ih.function
  | reopen => exact .reopen
  | code _ _ ih => exact ih
  | ret _ _ hready' hvalue ih =>
      obtain ⟨_, hat, _⟩ := hready'.1
      refine ih.trans (.emit hready'.nodup hat ?_)
      exact List.forall_mem_singleton.mpr (.inl (hvalue.mono (Set.subset_univ _)))
  | branch _ _ hready₀ hcondition _ _ ih₀ ih₁ ih₂ =>
      obtain ⟨_, hat, _⟩ := hready₀.1
      have hconsequent := (Issues.split hready₀.nodup hat hcondition).trans ((Issues.enter _).trans ih₁)
      have halternate := (Issues.fallTo _).trans ((Issues.enter _).trans ih₂)
      exact ih₀.trans (hconsequent.trans (halternate.trans ((Issues.fallTo _).trans (.enter _))))
  | loop _ _ hready₁ hcondition _ _ _ ih₁ ih₂ ih₃ =>
      obtain ⟨_, hat, _⟩ := hready₁.1
      have hbody := ih₁.trans ((Issues.openBody hready₁.nodup hat hcondition).trans ih₂)
      exact Issues.openLoop.trans (hbody.trans (Issues.openUpdate.trans (ih₃.trans .closeLoop)))
  | jump => exact .jumpTo

theorem Graph.Built.ordered {g : Graph} (h : g.Built) : g.Ordered := by
  obtain ⟨s, t, htrace, _, _, hblocks⟩ := h
  have hordered := htrace.issues.ordered s.ordered_nested
  refine ⟨?_, ?_⟩
  · rw [blockIds, hblocks]
    exact hordered.blocks
  · rw [hblocks]
    exact hordered.instrs

def Operand.instr? : Operand → Option InstrId
  | instr id => some id
  | _ => none

def Operand.block? : Operand → Option BlockId
  | block id => some id
  | _ => none

theorem Operand.instr?_eq_some {o : Operand} {id : InstrId} : o.instr? = some id ↔ o = .instr id := by
  cases o <;> simp [instr?]

theorem Operand.block?_eq_some {o : Operand} {id : BlockId} : o.block? = some id ↔ o = .block id := by
  cases o <;> simp [block?]

namespace Graph

variable {g : Graph}

/-- The operands of all instructions, and those of the table of phis. -/
def operands (g : Graph) : List Operand :=
  g.instrs.flatMap Instr.operands ++ g.phis.entries.flatMap fun e => e.2.inputs.map Phi.Input.value

/-- Every block id that stands somewhere in the graph. -/
def blockMentions (g : Graph) : List BlockId :=
  g.entry :: g.blocks.flatMap (fun b => b.id :: b.succs) ++
    g.phis.entries.flatMap (fun e => e.2.block :: e.2.inputs.map Phi.Input.source) ++
      g.operands.filterMap Operand.block?

/-- Every instruction id that stands somewhere in the graph. -/
def instrMentions (g : Graph) : List InstrId :=
  g.instrIds ++ g.phis.entries.keys ++ g.operands.filterMap Operand.instr?

theorem mem_instrIds {id : InstrId} : id ∈ g.instrIds ↔ ∃ i ∈ g.instrs, i.id = id := by
  rw [← List.mem_map, instrs, List.map_flatMap]
  rfl

/-- The table holds no operands but those of instructions. -/
theorem Built.mem_operands (h : g.Built) {o : Operand} (ho : o ∈ g.operands) : ∃ i ∈ g.instrs, o ∈ i.operands := by
  rcases List.mem_append.mp ho with ho | ho
  · exact List.mem_flatMap.mp ho
  · obtain ⟨⟨phi, e⟩, he, ho⟩ := List.mem_flatMap.mp ho
    obtain ⟨input, hinput, rfl⟩ := List.mem_map.mp ho
    obtain ⟨b, hb, _, _, init, last, hinstrs, _, hoperands⟩ := h.phisAgree.delivered phi e he input hinput
    refine ⟨last, List.mem_flatMap.mpr ⟨b, hb, ?_⟩, ?_⟩
    · rw [hinstrs]
      exact List.mem_append_right _ (List.mem_singleton.mpr rfl)
    · rw [hoperands]
      exact List.mem_cons_of_mem _ (List.mem_singleton.mpr rfl)

theorem Built.entry_mem (h : g.Built) : g.entry ∈ g.blockIds := by
  refine List.mem_of_mem_head? ?_
  rw [blockIds, List.head?_map]
  exact h.wellFormed.entryFirst

/-- A value that an instruction names is that of an instruction of the graph. -/
theorem Built.operand_mem (h : g.Built) {i : Instr} (hi : i ∈ g.instrs) {id : InstrId}
    (hid : .instr id ∈ i.operands) : id ∈ g.instrIds := by
  have hinput : .instr id ∈ i.inputs → id ∈ g.instrIds := by
    intro hinput
    obtain ⟨b, hb, hib⟩ := List.mem_flatMap.mp hi
    obtain ⟨before, after, hinstrs⟩ := List.append_of_mem hib
    obtain ⟨_, hcount, _⟩ := h.definesUses.inputs b hb before i after hinstrs id hinput
    rw [mem_instrIds, ← List.mem_map]
    exact List.count_pos_iff.mp (hcount ▸ Nat.one_pos)
  by_cases hop : i.opcode = .toPhi
  · obtain ⟨phi, value, hoperands, j, hj, _, hphi⟩ := h.definesUses.phis i hi hop
    rw [Instr.inputs, if_pos hop, hoperands] at hinput
    rw [hoperands] at hid
    rcases List.mem_cons.mp hid with hid | hid
    · obtain rfl := Operand.instr.inj hid
      exact mem_instrIds.mpr ⟨j, hj, hphi⟩
    · exact hinput hid
  · rw [Instr.inputs, if_neg hop] at hinput
    exact hinput hid

/-- All that a graph says of instructions is about its own. -/
theorem Built.instrMentions_subset (h : g.Built) : g.instrMentions ⊆ g.instrIds := by
  intro id hid
  rcases List.mem_append.mp hid with hid | hid
  · rcases List.mem_append.mp hid with hid | hid
    · exact hid
    · obtain ⟨⟨phi, e⟩, he, rfl⟩ := List.mem_map.mp hid
      obtain ⟨b, hb, _, i, rest, hinstrs, _, hphi⟩ := h.phisAgree.placed phi e he
      refine mem_instrIds.mpr ⟨i, List.mem_flatMap.mpr ⟨b, hb, ?_⟩, hphi⟩
      rw [hinstrs]
      exact List.mem_cons_self
  · obtain ⟨o, ho, hsome⟩ := List.mem_filterMap.mp hid
    obtain ⟨i, hi, hoperand⟩ := h.mem_operands ho
    exact h.operand_mem hi (Operand.instr?_eq_some.mp hsome ▸ hoperand)

/-- All that a graph says of blocks is about its own and about the functions that its instructions refer to. -/
theorem Built.mem_blockMentions (h : g.Built) {graphs : List Graph} (hrefers : ∀ i ∈ g.instrs, i.RefersTo graphs)
    {id : BlockId} (hid : id ∈ g.blockMentions) : id ∈ g.blockIds ∨ ∃ f ∈ graphs, f.entry = id := by
  rcases List.mem_append.mp hid with hid | hid
  · refine .inl ?_
    rcases List.mem_append.mp hid with hid | hid
    · rcases List.mem_cons.mp hid with rfl | hid
      · exact h.entry_mem
      · obtain ⟨b, hb, hid⟩ := List.mem_flatMap.mp hid
        rcases List.mem_cons.mp hid with rfl | hid
        · exact List.mem_map_of_mem hb
        · exact h.wellFormed.succsInside b hb id hid
    · obtain ⟨⟨phi, e⟩, he, hid⟩ := List.mem_flatMap.mp hid
      rcases List.mem_cons.mp hid with rfl | hid
      · obtain ⟨b, hb, hblock, _⟩ := h.phisAgree.placed phi e he
        exact hblock ▸ List.mem_map_of_mem hb
      · obtain ⟨input, hinput, rfl⟩ := List.mem_map.mp hid
        obtain ⟨b, hb, hsource, _⟩ := h.phisAgree.delivered phi e he input hinput
        exact hsource ▸ List.mem_map_of_mem hb
  · obtain ⟨o, ho, hsome⟩ := List.mem_filterMap.mp hid
    obtain rfl := Operand.block?_eq_some.mp hsome
    obtain ⟨i, hi, hoperand⟩ := h.mem_operands ho
    obtain ⟨f, hf, hentry⟩ := (hrefers i hi _ hoperand).resolve_left fun hheld => hheld
    exact .inr ⟨f, hf, (Operand.block.inj hentry).symm⟩

end Graph

/-- How the graphs of a construction are numbered that starts with one supply and leaves the other. -/
structure Numbered (before after : Supply) (graphs : List Graph) : Prop where
  /-- Each block id that is drawn is that of one block of one graph. -/
  blocks : graphs.flatMap Graph.blockIds ~ before.blocksTo after
  instrs : (graphs.flatMap Graph.instrIds).Nodup
  blockMentions : ∀ g ∈ graphs, ∀ id ∈ g.blockMentions, before.blocks ≤ id.index ∧ id.index < after.blocks
  instrMentions : ∀ g ∈ graphs, ∀ id ∈ g.instrMentions, before.instrs ≤ id.index ∧ id.index < after.instrs
  ordered : ∀ g ∈ graphs, g.Ordered

theorem numbered_of_constructWith {p : Program} {supply : Supply} {graphs : List Graph}
    (h : (constructWith p supply).1 = .ok graphs) : Numbered supply (constructWith p supply).2 graphs := by
  have hbuilt := built_of_constructUsing h
  obtain ⟨main, t, htrace, _, hentry, hblocks, rfl, hsupply⟩ := trace_of_constructUsing h
  change Numbered supply (constructUsing ⟨[], Scope.resolve⟩ p supply).2 _
  rw [hsupply]
  have hissues := htrace.issues
  have hids : (main :: t.finished.graphs).flatMap Graph.blockIds ~ supply.blocksTo t.supply := by
    rw [← Supply.blocksTo_append (Supply.le_dropBlock supply) hissues.supply, Supply.blocksTo_dropBlock,
      List.flatMap_cons, Graph.blockIds, hblocks]
    exact hissues.blocks.trans List.perm_append_comm
  obtain ⟨new, hperm, hissued⟩ := hissues.instrs
  have hbare : (main :: t.finished.graphs).flatMap Graph.bare ~ new := by
    rw [List.flatMap_cons, Graph.bare, hblocks]
    exact hperm.trans (List.Perm.of_eq (List.append_nil new))
  have hinstrs : (main :: t.finished.graphs).flatMap Graph.instrIds ~ new.map Instr.id := by
    have hmap := hbare.map Instr.id
    rw [List.map_flatMap] at hmap
    simpa only [Graph.map_bare_id] using hmap
  have hdrawn : ∀ id ∈ (main :: t.finished.graphs).flatMap Graph.instrIds,
      supply.instrs ≤ id.index ∧ id.index < t.supply.instrs := by
    intro id hid
    obtain ⟨i, hi, rfl⟩ := List.mem_map.mp (hinstrs.mem_iff.mp hid)
    exact hissued.drawn i hi
  have hrefers : ∀ g ∈ main :: t.finished.graphs, ∀ i ∈ g.instrs, i.RefersTo (main :: t.finished.graphs) := by
    intro g hg i hi
    obtain ⟨b, hb, hi⟩ := List.mem_flatMap.mp hi
    have hmem : i.bare ∈ (main :: t.finished.graphs).flatMap Graph.bare :=
      List.mem_flatMap.mpr ⟨g, hg, List.mem_flatMap.mpr ⟨b, hb, List.mem_map_of_mem hi⟩⟩
    exact (hissued.refers _ (hbare.mem_iff.mp hmem)).mono (List.subset_cons_self _ _)
  refine ⟨hids, hinstrs.nodup_iff.mpr hissued.nodup, fun g hg id hid => ?_, fun g hg id hid => ?_,
    fun g hg => (hbuilt g hg).ordered⟩
  · refine Supply.mem_blocksTo.mp (hids.mem_iff.mp (List.mem_flatMap.mpr ?_))
    rcases (hbuilt g hg).mem_blockMentions (hrefers g hg) hid with hid | ⟨f, hf, rfl⟩
    · exact ⟨g, hg, hid⟩
    · exact ⟨f, hf, (hbuilt f hf).entry_mem⟩
  · exact hdrawn id (List.mem_flatMap.mpr ⟨g, hg, (hbuilt g hg).instrMentions_subset hid⟩)

/-- The construction of a script with what is left of a supply. -/
structure Call where
  program : Program
  before : Supply

namespace Call

def result (c : Call) : Except BuildError (List Graph) := (constructWith c.program c.before).1

def after (c : Call) : Supply := (constructWith c.program c.before).2

theorem before_le_after (c : Call) : c.before ≤ c.after :=
  (constructUsing_settles c.program Scope.resolve c.before).1

/-- Two calls mention no id in common. -/
def Apart (c d : Call) : Prop :=
  ∀ graphs graphs', c.result = .ok graphs → d.result = .ok graphs' →
    (graphs.flatMap Graph.blockMentions).Disjoint (graphs'.flatMap Graph.blockMentions) ∧
    (graphs.flatMap Graph.instrMentions).Disjoint (graphs'.flatMap Graph.instrMentions)

theorem apart_of_le {c d : Call} (h : c.after ≤ d.before) : c.Apart d := by
  intro graphs graphs' hc hd
  have hnumbered : Numbered c.before c.after graphs := numbered_of_constructWith hc
  have hnumbered' : Numbered d.before d.after graphs' := numbered_of_constructWith hd
  constructor
  · intro id hid hid'
    obtain ⟨g, hg, hid⟩ := List.mem_flatMap.mp hid
    obtain ⟨g', hg', hid'⟩ := List.mem_flatMap.mp hid'
    have := hnumbered.blockMentions g hg id hid
    have := hnumbered'.blockMentions g' hg' id hid'
    have := h.2
    omega
  · intro id hid hid'
    obtain ⟨g, hg, hid⟩ := List.mem_flatMap.mp hid
    obtain ⟨g', hg', hid'⟩ := List.mem_flatMap.mp hid'
    have := hnumbered.instrMentions g hg id hid
    have := hnumbered'.instrMentions g' hg' id hid'
    have := h.1
    omega

end Call

/-- The scripts are constructed one after the other, each with what the ones before it have left of the supply,
whether they could be constructed or not. -/
def calls (supply : Supply) : List Program → List Call
  | [] => []
  | p :: rest => ⟨p, supply⟩ :: calls (constructWith p supply).2 rest

theorem le_before_of_mem_calls {supply : Supply} {programs : List Program} {c : Call} (h : c ∈ calls supply programs) :
    supply ≤ c.before := by
  induction programs generalizing supply with
  | nil => cases h
  | cons p rest ih =>
      rcases List.mem_cons.mp h with rfl | h
      · exact le_refl _
      · exact le_trans (Call.before_le_after ⟨p, supply⟩) (ih h)

/-- No call goes back behind another one. -/
theorem pairwise_calls (supply : Supply) (programs : List Program) :
    (calls supply programs).Pairwise fun c d => c.after ≤ d.before := by
  induction programs generalizing supply with
  | nil => exact .nil
  | cons p rest ih => exact .cons (fun d hd => le_before_of_mem_calls hd) (ih _)

/-- Over any number of constructions ids are drawn in order and never again. -/
theorem ids_never_reused (supply : Supply) (programs : List Program) :
    (∀ c ∈ calls supply programs, c.before ≤ c.after) ∧
    ((calls supply programs).Pairwise fun c d => c.after ≤ d.before) ∧
    (∀ c ∈ calls supply programs, ∀ graphs, c.result = .ok graphs → Numbered c.before c.after graphs) ∧
    (calls supply programs).Pairwise Call.Apart :=
  ⟨fun c _ => c.before_le_after, pairwise_calls supply programs, fun _ _ _ h => numbered_of_constructWith h,
    (pairwise_calls supply programs).imp Call.apart_of_le⟩

/-- The second script is refused. -/
def session : List Program := [choiceScript, strayScript, labeledScript]

def labeledCall : Call := ⟨labeledScript, (constructWith strayScript (constructWith choiceScript .fresh).2).2⟩

def labeledGraphs : List Graph := labeledCall.result.toOption.getD []

/-- The block ids that the refused script has drawn are not drawn again. -/
theorem ids_never_reused_session :
    (calls .fresh session).map (fun c => (c.before, c.after)) =
      [(⟨0, 0⟩, ⟨31, 14⟩), (⟨31, 14⟩, ⟨31, 16⟩), (⟨31, 16⟩, ⟨51, 39⟩)] ∧
    (calls .fresh session).map (fun c => c.result.isOk) = [true, false, true] ∧
    labeledCall ∈ calls .fresh session ∧ labeledCall.result = .ok labeledGraphs ∧
    Numbered labeledCall.before labeledCall.after labeledGraphs ∧ (calls .fresh session).Pairwise Call.Apart := by
  have hmem : labeledCall ∈ calls .fresh session := .tail _ (.tail _ (.head _))
  have hok : labeledCall.result = .ok labeledGraphs := by decide +kernel
  obtain ⟨_, _, hnumbered, hapart⟩ := ids_never_reused .fresh session
  exact ⟨by decide +kernel, by decide +kernel, hmem, hok, hnumbered labeledCall hmem labeledGraphs hok, hapart⟩

end ScriptSsa
