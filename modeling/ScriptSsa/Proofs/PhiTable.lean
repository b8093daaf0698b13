import ScriptSsa.Proofs.Edges

/-!
The phis of a function: table, instructions and edges agree.

A merge opens a phi, lets its two arms deliver a value each and places the phi in the join. So a trace adds
entries behind those that are there, each with two inputs, and for every entry the instructions and edges that
belong to it. No other `phi` and no other `toPhi` is ever added. What is known of an entry still holds when the
function is finished, since no later edge leads to a join that is complete.
-/

namespace ScriptSsa

/-! The instructions that have to do with phis, and the blocks they stand in. -/

inductive PhiMark where
  | phi (id : InstrId)
  | toPhi (operands : List Operand)

def Instr.phiMark? (i : Instr) : Option PhiMark :=
  match i.opcode with
  | .phi => some (.phi i.id)
  | .toPhi => some (.toPhi i.operands)
  | _ => none

def Block.phiMarks (b : Block) : List (BlockId × PhiMark) :=
  (b.instrs.filterMap Instr.phiMark?).map fun mark => (b.id, mark)

def phiMarks (blocks : List Block) : List (BlockId × PhiMark) := blocks.flatMap Block.phiMarks

/-- What belongs to an entry. -/
def Phi.Entry.marks (phi : InstrId) (e : Phi.Entry) : List (BlockId × PhiMark) :=
  (e.block, .phi phi) :: e.inputs.map fun input => (input.source, .toPhi [.instr phi, input.value])

def Phi.Entries.marks (entries : Phi.Entries) : List (BlockId × PhiMark) :=
  entries.flatMap fun e => e.2.marks e.1

/-- Plain instructions have nothing to do with phis. -/
theorem Opcode.phiMark?_of_isPlain {i : Instr} (h : i.opcode.isPlain = true) : i.phiMark? = none := by
  obtain ⟨id, opcode, operands, binding⟩ := i
  cases opcode <;> first | rfl | cases h

namespace Builder

variable {s : Builder} {id : BlockId} {b : Block}

theorem phiMarks_alloc : phiMarks s.alloc.blocks = phiMarks s.blocks := by
  simp [phiMarks, alloc, Block.phiMarks, Block.empty]

/-- Marks are told by instructions, not by edges. -/
theorem phiMarks_link {succs : List BlockId} : phiMarks (s.link id succs).blocks = phiMarks s.blocks :=
  flatMap_modifyBlock fun _ _ _ => rfl

theorem phiMarks_emit {binding : Option String} {opcode : Opcode} {operands : List Operand}
    (h : Instr.phiMark? ⟨s.supply.nextInstr, opcode, operands, binding⟩ = none) :
    phiMarks (s.emit binding opcode operands).blocks = phiMarks s.blocks := by
  refine flatMap_modifyBlock (s := s.draw) fun b _ _ => ?_
  simp [Block.phiMarks, List.filterMap_append, h]

/-- A binding leaves opcode and operands as they are. -/
theorem phiMarks_replace {bound : Block} {name : String} {value : Operand} (hnodup : s.ids.Nodup)
    (hat : s.At b) (hbound : b.bindLast? name value = some bound) :
    phiMarks (s.replace bound).blocks = phiMarks s.blocks := by
  refine flatMap_modifyBlock fun c hc hid => ?_
  have heq : c = b := Option.some.inj ((hid ▸ block?_of_mem hnodup hc).symm.trans hat)
  obtain ⟨init, last, hinstrs, _, _, _, _, rfl⟩ := Block.bindLast?_eq_some hbound
  rw [heq]
  simp only [Block.phiMarks, hinstrs, List.filterMap_append]
  rfl

theorem phiMarks_fallTo : phiMarks (s.fallTo id).blocks = phiMarks s.blocks := by
  unfold fallTo
  split
  · rfl
  · exact phiMarks_link

theorem phiMarks_reopen : phiMarks s.reopen.blocks = phiMarks s.blocks := by
  unfold reopen
  split
  · exact phiMarks_alloc
  · rfl

theorem phiMarks_split {condition : Operand} : phiMarks (s.split condition).blocks = phiMarks s.blocks := by
  rw [split, phiMarks_link, phiMarks_alloc, phiMarks_alloc, phiMarks_alloc, phiMarks_emit rfl]

theorem phiMarks_openLoop {testFirst : Bool} : phiMarks (s.openLoop testFirst).blocks = phiMarks s.blocks := by
  change phiMarks (Builder.link (Builder.link _ _ _) _ _).blocks = _
  simp only [phiMarks_link, phiMarks_alloc]

theorem phiMarks_openBody {condition : Operand} {body breakEntry : BlockId} {loop : Loop} :
    phiMarks (s.openBody condition body breakEntry loop).blocks = phiMarks s.blocks := by
  change phiMarks (Builder.link _ _ _).blocks = _
  rw [phiMarks_link, phiMarks_emit rfl]

theorem phiMarks_closeLoop {loop : Loop} : phiMarks (s.closeLoop loop id).blocks = phiMarks s.blocks := by
  change phiMarks (Builder.link _ _ _).blocks = _
  rw [phiMarks_link, phiMarks_alloc, closeContinues]
  split <;> simp only [phiMarks_link]

theorem phiMarks_jumpTo {kind : Jump} {inner outer : List Loop} {loop : Loop} :
    phiMarks (s.jumpTo kind inner loop outer).blocks = phiMarks s.blocks := by
  simp only [jumpTo]
  split
  · change phiMarks (Builder.link (Builder.link _ _ _) _ _).blocks = _
    simp only [phiMarks_link, phiMarks_alloc]
  · change phiMarks (Builder.link _ _ _).blocks = _
    simp only [phiMarks_link, phiMarks_alloc]

/-- An arm adds the mark of its own value. -/
theorem perm_phiMarks_deliver {phi : InstrId} {join : BlockId} {entry : Phi.Entry} {value : Operand}
    (hnodup : s.ids.Nodup) (hat : s.At b) :
    (phiMarks (s.deliver phi join entry value).blocks).Perm
      ((s.current, .toPhi [.instr phi, value]) :: phiMarks s.blocks) := by
  rw [deliver, phiMarks_link]
  refine perm_flatMap_modifyBlock (s := s.draw) [(s.current, PhiMark.toPhi [.instr phi, value])] hnodup hat ?_
  simp only [Block.phiMarks, List.filterMap_append, List.map_append, block?_id hat]
  exact List.perm_append_comm

/-- And the join that of its phi. -/
theorem perm_phiMarks_place {phi : InstrId} (hnodup : s.ids.Nodup) (hjoin : s.block? id = some (.empty id)) :
    (phiMarks (s.place phi id).blocks).Perm ((id, .phi phi) :: phiMarks s.blocks) :=
  perm_flatMap_modifyBlock (s := s.enter id) [(id, PhiMark.phi phi)] hnodup hjoin (.refl _)

/-- The block that delivers a value becomes a predecessor of the join. -/
theorem perm_predsOf_deliver {phi : InstrId} {join : BlockId} {entry : Phi.Entry} {value : Operand}
    (hnodup : s.ids.Nodup) (hopen : s.IsOpen) :
    (predsOf (s.deliver phi join entry value).blocks join).Perm (s.current :: predsOf s.blocks join) := by
  obtain ⟨b, hat, hb⟩ := hopen
  let recorded := s.withPhis ⟨s.phis.entries.insert phi ⟨entry.block, entry.inputs ++ [⟨s.current, value⟩]⟩⟩
  have hperm := @perm_predsOf_link_self (recorded.emit none .toPhi [.instr phi, value]) s.current join _
    (by rw [ids_emit]; exact hnodup) (At_emit hat) hb.succs
  rw [predsOf, predsOf, edgesOf_emit, ← predsOf] at hperm
  exact hperm

end Builder

/-- The blocks that hold instructions. -/
def busy (blocks : List Block) : Set BlockId := {id | ∃ b, blockOf? blocks id = some b ∧ b.instrs ≠ []}

theorem notMem_busy {blocks : List Block} {id : BlockId} {b : Block} (hb : blockOf? blocks id = some b)
    (hempty : b.instrs = []) : id ∉ busy blocks := by
  rintro ⟨c, hc, hne⟩
  obtain rfl := Option.some.inj (hb.symm.trans hc)
  exact hne hempty

theorem Builder.mem_ids_of_busy {s : Builder} {id : BlockId} (h : id ∈ busy s.blocks) : id ∈ s.ids :=
  let ⟨_, hb, _⟩ := h
  mem_ids_of_block? hb

theorem Stage.Ready.busy_subset {k : Stage} {s : Builder} (h : k.Ready s) : busy s.blocks ⊆ s.supply.taken :=
  let ⟨_, _, hsound⟩ := h
  fun id hid => hsound.fresh id (Builder.mem_ids_of_busy hid)

/-- A block that is still to be created has no code. -/
theorem Stage.Ready.later_notMem_busy {k : Stage} {s : Builder} (h : k.Ready s) (n : Nat) :
    s.later n ∉ busy s.blocks :=
  fun hmem => Builder.later_notMem_taken (le_refl _) n (h.busy_subset hmem)

/-! Entries that are complete. -/

/-- The block delivers the value to the phi of the join, and leads nowhere else. -/
def Phi.Input.Delivered (blocks : List Block) (phi : InstrId) (join : BlockId) (input : Phi.Input) : Prop :=
  ∃ init id, blockOf? blocks input.source =
    some ⟨input.source, init ++ [⟨id, .toPhi, [.instr phi, input.value], none⟩], [join]⟩

/-- The phi stands first in its block, and the blocks that lead there are those that deliver the two values. -/
structure Phi.Entry.Complete (blocks : List Block) (phi : InstrId) (e : Phi.Entry) : Prop where
  placed : ∃ b i rest, blockOf? blocks e.block = some b ∧ b.instrs = i :: rest ∧ i.opcode = .phi ∧ i.id = phi
  two : e.inputs.length = 2
  preds : (predsOf blocks e.block).Perm (e.inputs.map Phi.Input.source)
  delivered : ∀ input ∈ e.inputs, input.Delivered blocks phi e.block

/-- The value is handed over at the very end of the arm. -/
theorem Builder.delivered_deliver {s : Builder} {phi : InstrId} {join : BlockId} {entry : Phi.Entry}
    {value : Operand} (hopen : s.IsOpen) :
    Phi.Input.Delivered (s.deliver phi join entry value).blocks phi join ⟨s.current, value⟩ := by
  obtain ⟨b, hat, _⟩ := hopen
  refine ⟨b.instrs, s.supply.nextInstr, ?_⟩
  have hlinked := @At_link _ _ [join] (@At_emit (s.withPhis ⟨s.phis.entries.insert phi
    ⟨entry.block, entry.inputs ++ [⟨s.current, value⟩]⟩⟩) b none .toPhi [.instr phi, value] hat)
  rw [block?_id hat] at hlinked
  exact hlinked

namespace Phi

variable {old new : List Block} {phi : InstrId} {e : Entry}

/-- The arm has a successor, so it stays as it is. -/
theorem Input.Delivered.kept {join : BlockId} {input : Input} (h : input.Delivered old phi join)
    (hkept : Kept old new) : input.Delivered new phi join := by
  obtain ⟨init, id, hb⟩ := h
  exact ⟨init, id, hkept.linked hb (List.cons_ne_nil _ _)⟩

/-- A join with its phi is no longer empty, and no edge to it is added. -/
theorem Entry.Complete.busy (h : e.Complete old phi) : e.block ∈ busy old := by
  obtain ⟨b, i, rest, hb, hinstrs, _⟩ := h.placed
  exact ⟨b, hb, hinstrs ▸ List.cons_ne_nil i rest⟩

/-- Nothing of it changes as long as blocks that hold instructions get no new predecessors. -/
theorem Entry.Complete.spares (h : e.Complete old phi) (hspares : Spares (ScriptSsa.busy old) old new) :
    e.Complete new phi where
  placed := by
    obtain ⟨b, i, rest, hb, hinstrs, hop, hid⟩ := h.placed
    obtain ⟨b', hb', ⟨more, hprefix⟩, _⟩ := hspares.kept _ b hb
    rw [hinstrs, List.map_cons, List.cons_append] at hprefix
    obtain ⟨i', rest', hinstrs', hi', _⟩ := List.map_eq_cons_iff.mp hprefix.symm
    have hopcode : i'.bare.opcode = i.bare.opcode := by rw [hi']
    have hid' : i'.bare.id = i.bare.id := by rw [hi']
    exact ⟨b', i', rest', hb', hinstrs', hopcode.trans hop, hid'.trans hid⟩
  two := h.two
  preds := (hspares.preds _ h.busy).trans h.preds
  delivered input hinput := (h.delivered input hinput).kept hspares.kept

end Phi

/-- The phis of the builder have drawn ids. -/
def Builder.PhisDrawn (s : Builder) : Prop := ∀ phi ∈ s.phis.entries.keys, phi ∈ s.supply.drawn

/-- The next id is not yet that of a phi. -/
theorem Builder.PhisDrawn.notMem {s : Builder} (h : s.PhisDrawn) : s.supply.nextInstr ∉ s.phis.entries.keys :=
  fun hmem => Nat.lt_irrefl _ (h _ hmem)

/-- From `s` to `t` these entries are added, and what belongs to them. -/
structure Records (s t : Builder) (added : Phi.Entries) : Prop where
  supply : s.supply ≤ t.supply
  entries : t.phis.entries = s.phis.entries ++ added
  marks : (phiMarks t.blocks).Perm (added.marks ++ phiMarks s.blocks)
  drawn : ∀ e ∈ added, e.1 ∈ t.supply.drawn
  complete : ∀ e ∈ added, e.2.Complete t.blocks e.1

namespace Records

variable {s t u : Builder} {added added' : Phi.Entries}

theorem quiet (hsupply : s.supply ≤ t.supply) (hphis : t.phis = s.phis)
    (hmarks : phiMarks t.blocks = phiMarks s.blocks) : Records s t [] where
  supply := hsupply
  entries := by rw [hphis, List.append_nil]
  marks := hmarks ▸ .refl _
  drawn _ h := nomatch h
  complete _ h := nomatch h

theorem phisDrawn (h : Records s t added) (hs : s.PhisDrawn) : t.PhisDrawn := by
  intro phi hphi
  rw [h.entries, Phi.Entries.keys, List.map_append] at hphi
  rcases List.mem_append.mp hphi with hphi | hphi
  · exact Supply.drawn_mono h.supply (hs phi hphi)
  · obtain ⟨e, he, rfl⟩ := List.mem_map.mp hphi
    exact h.drawn e he

/-- Entries that are complete stay complete as long as no edge leads to a block with code. -/
theorem trans (h : Records s t added) (h' : Records t u added')
    (hspares : Spares (busy t.blocks) t.blocks u.blocks) : Records s u (added ++ added') where
  supply := h.supply.trans h'.supply
  entries := by rw [h'.entries, h.entries, List.append_assoc]
  marks := by
    have hmarks := h'.marks.trans (h.marks.append_left added'.marks)
    rw [Phi.Entries.marks, List.flatMap_append, List.append_assoc]
    exact hmarks.trans (List.perm_append_comm_assoc _ _ _)
  drawn e he := by
    rcases List.mem_append.mp he with he | he
    · exact Supply.drawn_mono h'.supply (h.drawn e he)
    · exact h'.drawn e he
  complete e he := by
    rcases List.mem_append.mp he with he | he
    · exact (h.complete e he).spares hspares
    · exact h'.complete e he

/-- A quiet change afterwards. -/
theorem andQuiet (h : Records s t added) (hsupply : t.supply ≤ u.supply) (hphis : u.phis = t.phis)
    (hmarks : phiMarks u.blocks = phiMarks t.blocks) (hspares : Spares (busy t.blocks) t.blocks u.blocks) :
    Records s u added :=
  List.append_nil added ▸ h.trans (.quiet hsupply hphis hmarks) hspares

end Records

/-- A merge has been opened in `s`, and in `t` these inputs have been delivered to its phi. Its arms have added
entries of their own. -/
structure Merging (s t : Builder) (inputs : List Phi.Input) (added : Phi.Entries) : Prop where
  supply : s.supply.dropInstr ≤ t.supply
  join : s.later 2 ∈ t.supply.taken
  entries : t.phis.entries = s.phis.entries ++ (s.supply.nextInstr, ⟨s.later 2, inputs⟩) :: added
  marks : (phiMarks t.blocks).Perm
    (inputs.map (fun input => (input.source, .toPhi [.instr s.supply.nextInstr, input.value])) ++
      (added.marks ++ phiMarks s.blocks))
  preds : (predsOf t.blocks (s.later 2)).Perm (inputs.map Phi.Input.source)
  delivered : ∀ input ∈ inputs, input.Delivered t.blocks s.supply.nextInstr (s.later 2)
  drawn : ∀ e ∈ added, e.1 ∈ t.supply.drawn
  complete : ∀ e ∈ added, e.2.Complete t.blocks e.1

namespace Merging

variable {s t u : Builder} {inputs : List Phi.Input} {added added' : Phi.Entries}

/-- A merge starts with an entry without inputs. -/
theorem opened {condition : Operand} {trueFirst : Bool} (hready : Stage.code.Ready s) (hs : s.PhisDrawn) :
    Merging s (s.openMerge condition trueFirst) [] [] := by
  refine ⟨Builder.supply_le_openMerge, Nat.lt_succ_self (s.supply.blocks + 1 + 1),
    Phi.Entries.insert_of_notMem hs.notMem, ?_, ?_, ?_, ?_, ?_⟩
  · change (phiMarks (s.draw.split condition).blocks).Perm (phiMarks s.draw.blocks)
    rw [Builder.phiMarks_split]
  · obtain ⟨_, pending, hsound⟩ := id hready
    have hnone : predsOf s.blocks (s.later 2) = [] := Builder.predsOf_eq_nil hsound (hsound.fresh.later_notMem 2)
    have hspares : Spares {s.later 2} s.blocks (s.openMerge condition trueFirst).blocks := by
      refine .openMerge hready fun k hk heq => ?_
      have hindex : s.supply.blocks + k = s.supply.blocks + 2 := congrArg BlockId.index heq
      omega
    have hperm := hspares.preds _ rfl
    rwa [hnone] at hperm
  · exact fun _ h => nomatch h
  · exact fun _ h => nomatch h
  · exact fun _ h => nomatch h

theorem phisDrawn (h : Merging s t inputs added) (hs : s.PhisDrawn) : t.PhisDrawn := by
  intro phi hphi
  rw [h.entries, Phi.Entries.keys, List.map_append] at hphi
  rcases List.mem_append.mp hphi with hphi | hphi
  · exact Supply.drawn_mono (s.supply.le_dropInstr.trans h.supply) (hs phi hphi)
  · rcases List.mem_cons.mp hphi with rfl | hphi
    · exact h.supply.1
    · obtain ⟨e, he, rfl⟩ := List.mem_map.mp hphi
      exact h.drawn e he

/-- An arm is lowered. -/
theorem arm (h : Merging s t inputs added) (hbusy : busy t.blocks ⊆ t.supply.taken) (harm : Records t u added')
    (hspares : Spares t.supply.taken t.blocks u.blocks) : Merging s u inputs (added ++ added') where
  supply := h.supply.trans harm.supply
  join := Supply.taken_mono harm.supply h.join
  entries := by rw [harm.entries, h.entries, List.append_assoc, List.cons_append]
  marks := by
    have hmarks := harm.marks.trans (h.marks.append_left added'.marks)
    rw [Phi.Entries.marks, List.flatMap_append, List.append_assoc]
    refine hmarks.trans ((List.perm_append_comm_assoc _ _ _).trans (.append_left _ ?_))
    exact List.perm_append_comm_assoc _ _ _
  preds := (hspares.preds _ h.join).trans h.preds
  delivered input hinput := (h.delivered input hinput).kept hspares.kept
  drawn e he := by
    rcases List.mem_append.mp he with he | he
    · exact Supply.drawn_mono harm.supply (h.drawn e he)
    · exact harm.drawn e he
  complete e he := by
    rcases List.mem_append.mp he with he | he
    · exact (h.complete e he).spares (hspares.mono hbusy)
    · exact harm.complete e he

/-- The entry of the phi can be found, and delivering to it adds an input. -/
theorem deliver {e : Phi.Entry} (value : Operand) (h : Merging s t inputs added) (hs : s.PhisDrawn)
    (hready : Stage.code.Ready t) (he : t.phis.entries.find? s.supply.nextInstr = some e)
    (hjoin : t.block? (s.later 2) = some (.empty (s.later 2))) :
    Merging s (t.deliver s.supply.nextInstr (s.later 2) e value) (inputs ++ [⟨t.current, value⟩]) added := by
  have hopen := hready.1
  have hspares : Spares (busy t.blocks) t.blocks (t.deliver s.supply.nextInstr (s.later 2) e value).blocks :=
    .deliver hready (notMem_busy hjoin rfl)
  rw [h.entries, Phi.Entries.find?_middle hs.notMem] at he
  obtain rfl := Option.some.inj he
  have hsupply : t.supply ≤ t.supply.dropInstr := t.supply.le_dropInstr
  refine ⟨h.supply.trans hsupply, Supply.taken_mono hsupply h.join, ?_, ?_, ?_, ?_, ?_, ?_⟩
  · change t.phis.entries.insert s.supply.nextInstr _ = _
    rw [h.entries, Phi.Entries.insert_middle hs.notMem]
  · obtain ⟨b, hat, _⟩ := hopen
    refine (Builder.perm_phiMarks_deliver hready.nodup hat).trans ((h.marks.cons _).trans ?_)
    rw [List.map_append, List.append_assoc]
    exact List.perm_middle.symm
  · refine (Builder.perm_predsOf_deliver hready.nodup hopen).trans ((h.preds.cons _).trans ?_)
    rw [List.map_append]
    exact (List.perm_append_singleton _ _).symm
  · intro input hinput
    rcases List.mem_append.mp hinput with hinput | hinput
    · exact (h.delivered input hinput).kept hspares.kept
    · rw [List.mem_singleton.mp hinput]
      exact Builder.delivered_deliver hopen
  · exact fun e he => Supply.drawn_mono hsupply (h.drawn e he)
  · exact fun e he => (h.complete e he).spares hspares

theorem enter (id : BlockId) (h : Merging s t inputs added) : Merging s (t.enter id) inputs added :=
  ⟨h.supply, h.join, h.entries, h.marks, h.preds, h.delivered, h.drawn, h.complete⟩

/-- Both inputs have been delivered and the phi is placed. -/
theorem place {input₁ input₂ : Phi.Input} (h : Merging s t [input₁, input₂] added) (hnodup : t.ids.Nodup)
    (hjoin : t.block? (s.later 2) = some (.empty (s.later 2))) :
    Records s (t.place s.supply.nextInstr (s.later 2))
      ((s.supply.nextInstr, ⟨s.later 2, [input₁, input₂]⟩) :: added) := by
  have hspares : ∀ {ids : Set BlockId}, Spares ids t.blocks (t.place s.supply.nextInstr (s.later 2)).blocks :=
    .place hjoin
  have hplaced : Phi.Entry.Complete (t.place s.supply.nextInstr (s.later 2)).blocks s.supply.nextInstr
      ⟨s.later 2, [input₁, input₂]⟩ := by
    refine ⟨⟨_, _, _, Builder.At_place hjoin, rfl, rfl, rfl⟩, rfl, ?_, fun input hinput => ?_⟩
    · exact ((@hspares Set.univ).preds _ trivial).trans h.preds
    · exact (h.delivered input hinput).kept (@hspares ∅).kept
  refine ⟨s.supply.le_dropInstr.trans h.supply, h.entries, ?_, ?_, ?_⟩
  · exact (Builder.perm_phiMarks_place hnodup hjoin).trans (h.marks.cons _)
  · intro e he
    rcases List.mem_cons.mp he with rfl | he
    · exact h.supply.1
    · exact h.drawn e he
  · intro e he
    rcases List.mem_cons.mp he with rfl | he
    · exact hplaced
    · exact (h.complete e he).spares hspares

end Merging

/-! The merge blocks of continues hold no instructions. -/

/-- The former end of the chain is still empty when the jump links it to its own merge block. -/
theorem Sound.chainEnd_linked {pending : List BlockId} {s : Builder} {kind : Jump} {inner outer : List Loop}
    {frame : Loop} (h : Sound (pending ++ s.loopsWaiting) s) (hloops : s.loops = inner ++ frame :: outer)
    (honce : frame.linksAtOnce kind = true) :
    (s.jumpTo kind inner frame outer).block? (frame.chainEnd kind) =
      some ⟨frame.chainEnd kind, [], [s.later 0]⟩ := by
  rw [Builder.jumpTo, if_pos honce, Builder.block?_withLoops, Builder.block?_link, if_pos rfl,
    h.chainEnd_empty hloops honce]
  rfl

/-- All merge blocks of continues but the last are linked and empty. -/
def Loop.Hollow (blocks : List Block) (l : Loop) : Prop :=
  ∀ id ∈ l.continues.dropLast, ∃ target, blockOf? blocks id = some ⟨id, [], [target]⟩

theorem Loop.Hollow.kept {old new : List Block} {l : Loop} (h : l.Hollow old) (hkept : Kept old new) :
    l.Hollow new := by
  intro id hid
  obtain ⟨target, hb⟩ := h id hid
  exact ⟨target, hkept.linked hb (List.cons_ne_nil _ _)⟩

def Builder.LoopsHollow (s : Builder) : Prop := ∀ l ∈ s.loops, l.Hollow s.blocks

namespace Builder.LoopsHollow

variable {s t : Builder}

/-- A merge block of a jump stays empty once it has its successor. -/
theorem mono (h : s.LoopsHollow) (hext : Extends s.block? t.block?) (hloops : t.loops = s.loops) :
    t.LoopsHollow :=
  fun l hl => (h l (hloops ▸ hl)).kept (.of_extends hext)

theorem code {held held' : Set InstrId} (h : s.LoopsHollow) (htrace : Trace .code held s held' t) :
    t.LoopsHollow :=
  fun l hl => (h l (htrace.loops_eq rfl ▸ hl)).kept htrace.spares.kept

theorem openBody {condition : Operand} {labels : List String} {body breakEntry continueEntry : BlockId}
    (h : s.LoopsHollow) (hopen : s.IsOpen) :
    (s.openBody condition body breakEntry ⟨labels, continueEntry, continueEntry, [], breakEntry, []⟩).LoopsHollow := by
  intro l hl
  rcases List.mem_cons.mp hl with rfl | hl
  · exact fun _ hid => nomatch hid
  · exact (h l hl).kept (.of_extends (Builder.extends_openBody hopen.unlinked))

theorem openUpdate {frame : Loop} {outer : List Loop} (h : s.LoopsHollow) (hs : s.IsOpen ∨ s.IsClosed)
    (hloops : s.loops = frame :: outer) : (s.openUpdate frame outer).LoopsHollow := by
  intro l hl
  rw [loops_openUpdate] at hl
  exact (h l (hloops ▸ List.mem_cons_of_mem frame hl)).kept (.of_extends (extends_openUpdate hs))

theorem jumpTo {kind : Jump} {inner outer : List Loop} {frame : Loop} (h : s.LoopsHollow)
    (hready : Stage.code.Ready s) (hloops : s.loops = inner ++ frame :: outer) :
    (s.jumpTo kind inner frame outer).LoopsHollow := by
  obtain ⟨_, pending, hsound⟩ := id hready
  have hold : ∀ l ∈ inner ++ frame :: outer, l.Hollow (s.jumpTo kind inner frame outer).blocks := by
    have hspares := @Spares.jumpTo ∅ s kind _ _ _ hready hloops (Set.notMem_empty _)
    exact fun l hl => (h l (hloops ▸ hl)).kept hspares.kept
  intro l hl
  rw [loops_jumpTo] at hl
  rcases List.mem_append.mp hl with hl | hl
  · exact hold l (List.mem_append_left _ hl)
  · rcases List.mem_cons.mp hl with rfl | hl
    · cases kind with
      | exit => exact hold frame (by simp)
      | next =>
          intro id hid
          rw [Loop.extend, List.dropLast_concat] at hid
          have hne : frame.continues ≠ [] := List.ne_nil_of_mem hid
          have hframe := hsound.loops frame (by simp [hloops])
          rw [← List.dropLast_append_getLast? _ (hframe.chained.getLast?_continues hne)] at hid
          rcases List.mem_append.mp hid with hid | hid
          · exact hold frame (by simp) id hid
          · rw [List.mem_singleton.mp hid]
            have honce : frame.linksAtOnce .next = true := by simp [Loop.linksAtOnce, hne]
            exact ⟨s.later 0, hsound.chainEnd_linked hloops honce⟩
    · exact hold l (List.mem_append_right _ (List.mem_cons_of_mem _ hl))

end Builder.LoopsHollow

/-- Along every trace the merge blocks inside a chain of continues stay empty. -/
theorem Trace.loopsHollow {k : Stage} {held held' : Set InstrId} {s t : Builder} (h : Trace k held s held' t)
    (hs : s.LoopsHollow) : t.LoopsHollow := by
  suffices hflow : k = .flow → t.LoopsHollow by
    cases k with
    | code => exact hs.code h
    | flow => exact hflow rfl
  induction h with
  | refl | trans | draw | emit | rebind | merge | function => exact fun h => nomatch h
  | skip => exact fun _ => hs
  | seq _ _ ih₁ ih₂ => exact fun h => ih₂ (ih₁ hs h) h
  | reopen => exact fun _ => hs.mono Builder.extends_reopen Builder.loops_reopen
  | code _ h => exact fun _ => hs.code h
  | ret _ h hready' _ => exact fun _ => (hs.code h).mono (Builder.extends_emit hready'.1.unlinked) rfl
  | branch _ h₀ hready₀ _ h₁ h₂ _ ih₁ ih₂ =>
      intro hk
      have hfits₁ := (h₁.ready hready₀.consequent).1
      have hfits₂ := (h₂.ready (hready₀.alternate h₁)).1
      have hconsequent := ih₁ ((hs.code h₀).mono (Builder.extends_split hready₀.1.unlinked) rfl) hk
      have halternate := ih₂ (hconsequent.mono (Builder.extends_fallTo hfits₁) Builder.loops_fallTo) hk
      exact halternate.mono (Builder.extends_fallTo hfits₂) Builder.loops_fallTo
  | loop hready h₁ hready₁ _ h₂ hloops h₃ _ ih₂ _ =>
      intro hk
      have hfits₂ := (h₂.ready (hready.loopBody h₁)).1
      obtain ⟨_, hend⟩ := hready.loopEnd h₁ h₂ hloops h₃
      obtain ⟨hopen, _, hsound⟩ := hready
      have htest := (hs.mono (Builder.extends_openLoop hsound hopen) rfl).code h₁
      have hupdate := ((ih₂ (htest.openBody hready₁.1) hk).openUpdate hfits₂ hloops).code h₃
      exact hupdate.mono (Builder.extends_closeLoop hend) Builder.loops_closeLoop
  | jump hready hloops _ _ => exact fun _ => hs.jumpTo hready hloops

/-- At the end of a loop the merge blocks of its continues are empty. -/
theorem LoopEnd.continues_notMem_busy {frame : Loop} {header : BlockId} {pending : List BlockId} {s : Builder}
    (h : LoopEnd frame header pending s) (hhollow : frame.Hollow s.blocks) {id : BlockId}
    (hid : id ∈ frame.continues) : id ∉ busy s.blocks := by
  have hne : frame.continues ≠ [] := List.ne_nil_of_mem hid
  have hlast := h.continues.chained.getLast?_continues hne
  rw [← List.dropLast_append_getLast? _ hlast] at hid
  rcases List.mem_append.mp hid with hid | hid
  · obtain ⟨_, hb⟩ := hhollow id hid
    exact notMem_busy hb rfl
  · refine notMem_busy (h.sound.empty id ?_).1 rfl
    rw [hlast, List.mem_singleton.mp hid]
    simp

/-- A trace adds entries that are complete, and no `phi` or `toPhi` besides what belongs to them. -/
theorem Trace.records {k : Stage} {held held' : Set InstrId} {s t : Builder} (h : Trace k held s held' t)
    (hs : s.PhisDrawn) (hhollow : s.LoopsHollow) (hstart : k.Ready s) : ∃ added, Records s t added := by
  induction h with
  | refl | skip => exact ⟨[], .quiet (le_refl _) rfl rfl⟩
  | draw => exact ⟨[], .quiet (Supply.le_dropInstr _) rfl rfl⟩
  | emit _ hplain _ =>
      refine ⟨[], .quiet (Supply.le_dropInstr _) rfl (Builder.phiMarks_emit ?_)⟩
      exact Opcode.phiMark?_of_isPlain hplain
  | rebind hready hat hbound => exact ⟨[], .quiet (le_refl _) rfl (Builder.phiMarks_replace hready.nodup hat hbound)⟩
  | trans h₁ h₂ ih₁ ih₂ =>
      obtain ⟨added₁, hadded₁⟩ := ih₁ hs hhollow hstart
      have hready₁ := h₁.ready hstart
      obtain ⟨added₂, hadded₂⟩ := ih₂ (hadded₁.phisDrawn hs) (h₁.loopsHollow hhollow) hready₁
      exact ⟨_, hadded₁.trans hadded₂ (h₂.spares.mono hready₁.busy_subset)⟩
  | seq h₁ h₂ ih₁ ih₂ =>
      obtain ⟨added₁, hadded₁⟩ := ih₁ hs hhollow hstart
      have hready₁ := h₁.ready hstart
      obtain ⟨added₂, hadded₂⟩ := ih₂ (hadded₁.phisDrawn hs) (h₁.loopsHollow hhollow) hready₁
      exact ⟨_, hadded₁.trans hadded₂ (h₂.spares.mono hready₁.busy_subset)⟩
  | @merge _ _ _ s s₁ s₂ condition v₁ v₂ trueFirst e₁ _ hready _ h₁ hready₁ _ he₁ h₂ hready₂ _ he₂ hjoin ih₁ ih₂ =>
      have hopened := @Merging.opened _ condition trueFirst hready hs
      have hhollow₀ : (s.openMerge condition trueFirst).LoopsHollow :=
        hhollow.mono (Builder.extends_openMerge hready.1.unlinked) rfl
      obtain ⟨added₁, hadded₁⟩ := ih₁ (hopened.phisDrawn hs) hhollow₀ hready.firstArm
      have hfirst := ((hopened.arm hready.firstArm.busy_subset hadded₁ h₁.spares).deliver v₁ hs hready₁ he₁
        (hready.join_empty₁ h₁)).enter (s.otherArm trueFirst)
      have hready₁' := @Stage.Ready.secondArm _ _ _ _ _ _ s.supply.nextInstr e₁ v₁ hready h₁
      have hhollow₁ := (hhollow₀.code h₁).mono
        (t := (s₁.deliver s.supply.nextInstr (s.later 2) e₁ v₁).enter (s.otherArm trueFirst))
        (Builder.extends_deliver hready₁.1.unlinked) rfl
      obtain ⟨added₂, hadded₂⟩ := ih₂ (hfirst.phisDrawn hs) hhollow₁ hready₁'
      have hsecond := (hfirst.arm hready₁'.busy_subset hadded₂ h₂.spares).deliver v₂ hs hready₂ he₂
        (hready.join_empty₂ h₁ h₂)
      refine ⟨_, hsecond.place ?_ hjoin⟩
      rw [Builder.ids_deliver]
      exact hready₂.nodup
  | function hbody _ _ => exact ⟨[], .quiet ((Supply.le_dropBlock _).trans hbody.supply_le) rfl rfl⟩
  | reopen => exact ⟨[], .quiet Builder.supply_le_reopen Builder.phis_reopen Builder.phiMarks_reopen⟩
  | code hready _ ih => exact ih hs hhollow hready
  | ret hready h hready' _ ih =>
      obtain ⟨added, hadded⟩ := ih hs hhollow hready
      exact ⟨added, hadded.andQuiet (Supply.le_dropInstr _) rfl (Builder.phiMarks_emit rfl)
        (.emit hready'.1.unlinked)⟩
  | @branch _ s s₀ s₁ s₂ condition hready h₀ hready₀ _ h₁ h₂ ih₀ ih₁ ih₂ =>
      obtain ⟨added₀, hadded₀⟩ := ih₀ hs hhollow hready
      have hready₁ := h₁.ready hready₀.consequent
      have hready₂ := h₂.ready (hready₀.alternate h₁)
      have hsplit : Records s ((s₀.split condition).enter (s₀.later 0)) added₀ :=
        hadded₀.andQuiet Builder.supply_le_split rfl Builder.phiMarks_split
          (.split hready₀ fun k _ => hready₀.later_notMem_busy k)
      have hhollow₀ : ((s₀.split condition).enter (s₀.later 0)).LoopsHollow :=
        (hhollow.code h₀).mono (Builder.extends_split hready₀.1.unlinked) rfl
      obtain ⟨added₁, hadded₁⟩ := ih₁ (hsplit.phisDrawn hs) hhollow₀ hready₀.consequent
      have hconsequent : Records s ((s₁.fallTo (s₀.later 2)).enter (s₀.later 1)) (added₀ ++ added₁) :=
        (hsplit.trans hadded₁ (h₁.spares.mono hready₀.consequent.busy_subset)).andQuiet
          (le_of_eq Builder.supply_fallTo.symm) Builder.phis_fallTo Builder.phiMarks_fallTo
          (.fallTo hready₁ (notMem_busy (hready₀.branchJoin_empty₁ h₁) rfl))
      have hhollow₁ : ((s₁.fallTo (s₀.later 2)).enter (s₀.later 1)).LoopsHollow :=
        (h₁.loopsHollow hhollow₀).mono (Builder.extends_fallTo hready₁.1) Builder.loops_fallTo
      obtain ⟨added₂, hadded₂⟩ := ih₂ (hconsequent.phisDrawn hs) hhollow₁ (hready₀.alternate h₁)
      exact ⟨_, (hconsequent.trans hadded₂ (h₂.spares.mono (hready₀.alternate h₁).busy_subset)).andQuiet
        (le_of_eq Builder.supply_fallTo.symm) Builder.phis_fallTo Builder.phiMarks_fallTo
        (.fallTo hready₂ (notMem_busy (hready₀.branchJoin_empty₂ h₁ h₂) rfl))⟩
  | @loop _ _ s s₁ s₂ s₃ condition testFirst labels frame outer hready h₁ hready₁ _ h₂ hloops h₃ ih₁ ih₂ ih₃ =>
      have hready₁' := @Stage.Ready.loopBody _ _ _ _ condition _ labels hready h₁
      have hready₂ := h₂.ready hready₁'
      have hready₂' := hready.loopUpdate h₁ h₂ hloops
      obtain ⟨_, hend⟩ := hready.loopEnd h₁ h₂ hloops h₃
      have hopenBody : Spares (busy s₁.blocks) s₁.blocks
          (s₁.openBody condition (s.later 4) (s.later 1) ⟨labels, s.later 0, s.later 0, [], s.later 1, []⟩).blocks :=
        .openBody hready₁ (notMem_busy (hready.loop_empty h₁ (by simp)) rfl)
          (notMem_busy (hready.loop_empty h₁ (by simp)) rfl)
      have hopenUpdate : Spares (busy s₂.blocks) s₂.blocks (s₂.openUpdate frame outer).blocks :=
        .openUpdate hready₂ (notMem_busy (hready₂.continueEntry_empty hloops) rfl)
      obtain ⟨hopen, _, hsound⟩ := id hready
      have hhollow₀ : (s.openLoop testFirst).LoopsHollow := hhollow.mono (Builder.extends_openLoop hsound hopen) rfl
      have hhollow₁ := @Builder.LoopsHollow.openBody _ condition labels (s.later 4) (s.later 1) (s.later 0)
        (hhollow₀.code h₁) hready₁.1
      have hhollow₂ := h₂.loopsHollow hhollow₁
      have hupdated := hopenUpdate.kept.trans h₃.spares.kept
      have hheader : blockOf? s₃.blocks (s.later 2) = _ :=
        (h₁.spares.kept.trans (hopenBody.kept.trans (h₂.spares.kept.trans hupdated))).linked
          (hsound.fresh.block?_openLoop hsound.current) (List.cons_ne_nil _ _)
      -- The parts one after the other.
      have hopened : Records s (s.openLoop testFirst) [] :=
        .quiet Builder.supply_le_openLoop rfl Builder.phiMarks_openLoop
      obtain ⟨added₁, hadded₁⟩ := ih₁ (hopened.phisDrawn hs) hhollow₀ hready.loopTest
      have htest : Records s (s₁.openBody condition (s.later 4) (s.later 1)
          ⟨labels, s.later 0, s.later 0, [], s.later 1, []⟩) added₁ :=
        (hopened.trans hadded₁ (h₁.spares.mono hready.loopTest.busy_subset)).andQuiet (Supply.le_dropInstr _) rfl
          Builder.phiMarks_openBody hopenBody
      obtain ⟨added₂, hadded₂⟩ := ih₂ (htest.phisDrawn hs) hhollow₁ hready₁'
      have hbody : Records s (s₂.openUpdate frame outer) (added₁ ++ added₂) :=
        (htest.trans hadded₂ (h₂.spares.mono hready₁'.busy_subset)).andQuiet
          (le_of_eq (Builder.supply_fallTo (s := s₂.withLoops outer)).symm)
          (Builder.phis_fallTo (s := s₂.withLoops outer)) (Builder.phiMarks_fallTo (s := s₂.withLoops outer))
          hopenUpdate
      obtain ⟨added₃, hadded₃⟩ := ih₃ (hbody.phisDrawn hs) (hhollow₂.openUpdate hready₂.1 hloops) hready₂'
      have hupdate := hbody.trans hadded₃ (h₃.spares.mono hready₂'.busy_subset)
      refine ⟨_, hupdate.andQuiet Builder.supply_le_closeLoop Builder.phis_closeLoop Builder.phiMarks_closeLoop
        (.closeLoop hend (notMem_busy hheader rfl) (fun first hfirst => ?_) ?_)⟩
      · have hframe : frame.Hollow s₃.blocks := (hhollow₂ frame (hloops ▸ List.mem_cons_self)).kept hupdated
        exact hend.continues_notMem_busy hframe (List.mem_of_mem_head? hfirst)
      · exact (h₃.ready hready₂').later_notMem_busy 0
  | jump => exact ⟨[], .quiet Builder.supply_le_jumpTo Builder.phis_jumpTo Builder.phiMarks_jumpTo⟩

/-! The phis of a finished function. -/

/-- The phi instructions, each with its block. -/
def Graph.phiSites (g : Graph) : List (BlockId × InstrId) :=
  g.blocks.flatMap fun b => (b.instrs.filter fun i => i.opcode = .phi).map fun i => (b.id, i.id)

/-- The operands of the instructions that deliver a value to a phi, each with its block. -/
def Graph.toPhiSites (g : Graph) : List (BlockId × List Operand) :=
  g.blocks.flatMap fun b => (b.instrs.filter fun i => i.opcode = .toPhi).map fun i => (b.id, i.operands)

/-- Table, instructions and edges agree about the phis. -/
structure Graph.PhisAgree (g : Graph) : Prop where
  distinct : g.phis.entries.keys.Nodup
  /-- The entry of a phi names a block whose first instruction is the phi. -/
  placed : ∀ phi e, (phi, e) ∈ g.phis.entries →
    ∃ b ∈ g.blocks, b.id = e.block ∧ ∃ i rest, b.instrs = i :: rest ∧ i.opcode = .phi ∧ i.id = phi
  /-- Its two inputs come from the predecessors of that block. -/
  inputs : ∀ phi e, (phi, e) ∈ g.phis.entries →
    e.inputs.length = 2 ∧ (e.inputs.map Phi.Input.source).Perm (g.preds e.block)
  /-- A block that an input comes from ends in delivering the value, and leads nowhere else. -/
  delivered : ∀ phi e, (phi, e) ∈ g.phis.entries → ∀ input ∈ e.inputs,
    ∃ b ∈ g.blocks, b.id = input.source ∧ b.succs = [e.block] ∧
      ∃ init last, b.instrs = init ++ [last] ∧ last.opcode = .toPhi ∧ last.operands = [.instr phi, input.value]
  /-- There is no other phi instruction. -/
  phis : g.phiSites.Perm (g.phis.entries.map fun e => (e.2.block, e.1))
  /-- There is no other instruction that delivers a value. -/
  toPhis : g.toPhiSites.Perm (g.phis.entries.flatMap fun e =>
    e.2.inputs.map fun input => (input.source, [.instr e.1, input.value]))

/-- The phi that a mark places. -/
def PhiMark.phi? : BlockId × PhiMark → Option (BlockId × InstrId)
  | (block, .phi id) => some (block, id)
  | (_, .toPhi _) => none

/-- The delivery that a mark stands for. -/
def PhiMark.toPhi? : BlockId × PhiMark → Option (BlockId × List Operand)
  | (_, .phi _) => none
  | (block, .toPhi operands) => some (block, operands)

theorem Block.filterMap_phiMarks_phi (b : Block) :
    b.phiMarks.filterMap PhiMark.phi? = (b.instrs.filter fun i => i.opcode = .phi).map fun i => (b.id, i.id) := by
  rw [phiMarks, List.filterMap_map, List.filterMap_filterMap, ← List.filterMap_eq_map, ← List.filterMap_eq_filter,
    List.filterMap_filterMap]
  refine List.filterMap_congr fun i _ => ?_
  obtain ⟨id, opcode, operands, binding⟩ := i
  cases opcode <;> rfl

theorem Block.filterMap_phiMarks_toPhi (b : Block) :
    b.phiMarks.filterMap PhiMark.toPhi? =
      (b.instrs.filter fun i => i.opcode = .toPhi).map fun i => (b.id, i.operands) := by
  rw [phiMarks, List.filterMap_map, List.filterMap_filterMap, ← List.filterMap_eq_map, ← List.filterMap_eq_filter,
    List.filterMap_filterMap]
  refine List.filterMap_congr fun i _ => ?_
  obtain ⟨id, opcode, operands, binding⟩ := i
  cases opcode <;> rfl

theorem Phi.Entry.filterMap_marks_phi (phi : InstrId) (e : Phi.Entry) :
    (e.marks phi).filterMap PhiMark.phi? = [(e.block, phi)] := by
  have hinputs : (e.inputs.map fun input => (input.source, PhiMark.toPhi [.instr phi, input.value])).filterMap
      PhiMark.phi? = [] := by
    rw [List.filterMap_map]
    exact List.filterMap_eq_nil_iff.mpr fun input _ => rfl
  exact congrArg (List.cons (e.block, phi)) hinputs

theorem Phi.Entry.filterMap_marks_toPhi (phi : InstrId) (e : Phi.Entry) :
    (e.marks phi).filterMap PhiMark.toPhi? = e.inputs.map fun input => (input.source, [.instr phi, input.value]) := by
  rw [marks, List.filterMap_cons_none rfl, List.filterMap_map, ← List.filterMap_eq_map]
  rfl

/-- In a finished graph the table, the instructions and the edges tell the same of every phi. -/
theorem Graph.Built.phisAgree {g : Graph} (h : g.Built) : g.PhisAgree := by
  obtain ⟨s, t, htrace, hfinish, _, hblocks⟩ := h
  obtain ⟨entries, hrecords⟩ := htrace.records (fun _ h => nomatch h) (fun _ h => nomatch h) s.ready_nested.flow
  have hentries : g.phis.entries = entries := (Phi.Recorder.finish_entries hfinish).trans hrecords.entries
  have hmem : ∀ {id b}, blockOf? t.blocks id = some b → b ∈ g.blocks ∧ b.id = id :=
    fun hb => ⟨hblocks ▸ Builder.mem_of_block? hb, Builder.block?_id hb⟩
  have hmarks : (phiMarks g.blocks).Perm g.phis.entries.marks := by
    rw [hblocks, hentries]
    exact hrecords.marks.trans (List.Perm.of_eq (List.append_nil _))
  refine ⟨?_, ?_, ?_, ?_, ?_, ?_⟩
  · rw [Phi.Recorder.finish_entries hfinish]
    exact htrace.phis_keep.nodup List.nodup_nil
  · intro phi e he
    obtain ⟨b, i, rest, hb, hi⟩ := (hrecords.complete _ (hentries ▸ he)).placed
    exact ⟨b, (hmem hb).1, (hmem hb).2, i, rest, hi⟩
  · intro phi e he
    have hcomplete := hrecords.complete _ (hentries ▸ he)
    refine ⟨hcomplete.two, ?_⟩
    rw [Graph.preds, Graph.edges, hblocks]
    exact hcomplete.preds.symm
  · intro phi e he input hinput
    obtain ⟨init, id, hb⟩ := (hrecords.complete _ (hentries ▸ he)).delivered input hinput
    exact ⟨_, (hmem hb).1, rfl, rfl, init, _, rfl, rfl, rfl⟩
  · have hphis := hmarks.filterMap PhiMark.phi?
    rw [phiMarks, Phi.Entries.marks, List.filterMap_flatMap, List.filterMap_flatMap] at hphis
    simp only [Block.filterMap_phiMarks_phi, Phi.Entry.filterMap_marks_phi] at hphis
    rwa [← List.map_eq_flatMap] at hphis
  · have htoPhis := hmarks.filterMap PhiMark.toPhi?
    rw [phiMarks, Phi.Entries.marks, List.filterMap_flatMap, List.filterMap_flatMap] at htoPhis
    simp only [Block.filterMap_phiMarks_toPhi, Phi.Entry.filterMap_marks_toPhi] at htoPhis
    exact htoPhis

end ScriptSsa
