import ScriptSsa.Proofs.Growth
import ScriptSsa.Proofs.Numbering

/-!
The edges that a trace adds.

A block is linked once, and what stands in a linked block never changes again. The links that a trace makes all
lead to blocks that were created while it ran: so a block that is there before a trace has the same
predecessors after it. `Spares ids s t` says this of the blocks of `ids`, whatever leads from `s` to `t`.
-/

namespace ScriptSsa

/-- The block ids that have been drawn. -/
def Supply.taken (a : Supply) : Set BlockId := {id | id.index < a.blocks}

/-- Ids are never given back. -/
theorem Supply.taken_mono {a b : Supply} (h : a ≤ b) : a.taken ⊆ b.taken :=
  fun _ hid => Nat.lt_of_lt_of_le hid h.2

/-- The block with the given id. -/
def blockOf? (blocks : List Block) (id : BlockId) : Option Block := blocks.find? fun b => b.id = id

def edgesOf (blocks : List Block) : List (BlockId × BlockId) :=
  blocks.flatMap fun b => b.succs.map fun target => (b.id, target)

/-- The predecessors of a block. -/
def predsOf (blocks : List Block) (id : BlockId) : List BlockId := Graph.sources (edgesOf blocks) id

/-- All that stands in the old blocks stands in the new ones, bindings apart, and blocks with successors are the
same. -/
def Kept (old new : List Block) : Prop :=
  ∀ id b, blockOf? old id = some b → ∃ b', blockOf? new id = some b' ∧
    b.instrs.map Instr.bare <+: b'.instrs.map Instr.bare ∧ (b.succs ≠ [] → b' = b)

namespace Kept

variable {old new newer : List Block} {id : BlockId} {b : Block}

theorem of_extends (h : Extends (blockOf? old) (blockOf? new)) : Kept old new := by
  intro id b hb
  obtain ⟨b', hb', hprefix, hlinked⟩ := h id b hb
  exact ⟨b', hb', hprefix.map _, hlinked⟩

theorem trans (h : Kept old new) (h' : Kept new newer) : Kept old newer := by
  intro id b hb
  obtain ⟨b', hb', hprefix, hlinked⟩ := h id b hb
  obtain ⟨b'', hb'', hprefix', hlinked'⟩ := h' id b' hb'
  refine ⟨b'', hb'', hprefix.trans hprefix', fun hsuccs => ?_⟩
  have heq := hlinked hsuccs
  exact (hlinked' (heq ▸ hsuccs)).trans heq

/-- Where a block has its successors, its code is final. -/
theorem linked (h : Kept old new) (hb : blockOf? old id = some b) (hsuccs : b.succs ≠ []) :
    blockOf? new id = some b := by
  obtain ⟨b', hb', _, hlinked⟩ := h id b hb
  rw [hb', hlinked hsuccs]

end Kept

namespace Builder

variable {s : Builder} {id j : BlockId} {b : Block} {succs : List BlockId}

/-- A block that is still to be created was not there before. -/
theorem later_notMem_taken {t : Builder} (h : s.supply ≤ t.supply) (k : Nat) : t.later k ∉ s.supply.taken := by
  intro hmem
  have hlt : t.supply.blocks + k < s.supply.blocks := hmem
  have hle := h.2
  omega

/-- Edges are told by ids and successors alone. -/
theorem edgesOf_modifyBlock {f : Block → Block}
    (hf : ∀ b ∈ s.blocks, b.id = id → (f b).id = b.id ∧ (f b).succs = b.succs) :
    edgesOf (s.modifyBlock id f).blocks = edgesOf s.blocks := by
  refine flatMap_modifyBlock fun b hb hid => ?_
  obtain ⟨hid', hsuccs⟩ := hf b hb hid
  rw [hid', hsuccs]

theorem edgesOf_alloc : edgesOf s.alloc.blocks = edgesOf s.blocks := by
  simp [edgesOf, alloc, Block.empty]

/-- Instructions have no edges. -/
theorem edgesOf_emit {binding : Option String} {opcode : Opcode} {operands : List Operand} :
    edgesOf (s.emit binding opcode operands).blocks = edgesOf s.blocks :=
  edgesOf_modifyBlock (s := s.draw) fun _ _ _ => ⟨rfl, rfl⟩

theorem edgesOf_place {phi : InstrId} : edgesOf (s.place phi id).blocks = edgesOf s.blocks :=
  edgesOf_modifyBlock (s := s.enter id) fun _ _ _ => ⟨rfl, rfl⟩

theorem edgesOf_replace {bound : Block} {name : String} {value : Operand} (hnodup : s.ids.Nodup)
    (hat : s.At b) (hbound : b.bindLast? name value = some bound) :
    edgesOf (s.replace bound).blocks = edgesOf s.blocks := by
  refine edgesOf_modifyBlock fun c hc hid => ?_
  have heq : c = b := Option.some.inj ((hid ▸ block?_of_mem hnodup hc).symm.trans hat)
  rw [heq]
  exact ⟨Block.bindLast?_id hbound, Block.bindLast?_succs hbound⟩

/-- Linking a block adds its edges, since it had none. -/
theorem perm_edgesOf_link (hnodup : s.ids.Nodup) (hb : s.block? id = some b) (hsuccs : b.succs = []) :
    (edgesOf (s.link id succs).blocks).Perm (succs.map (fun target => (id, target)) ++ edgesOf s.blocks) := by
  refine perm_flatMap_modifyBlock _ hnodup hb ?_
  rw [hsuccs, block?_id hb]
  simp

/-- So the targets have it as one more predecessor. -/
theorem perm_predsOf_link (hnodup : s.ids.Nodup) (hb : s.block? id = some b) (hsuccs : b.succs = []) :
    (predsOf (s.link id succs).blocks j).Perm
      ((succs.filter fun target => target = j).map (fun _ => id) ++ predsOf s.blocks j) := by
  have hperm := ((@perm_edgesOf_link _ _ _ succs hnodup hb hsuccs).filter fun e => e.2 = j).map Prod.fst
  rwa [List.filter_append, List.filter_map, List.map_append, List.map_map] at hperm

/-- One more predecessor. -/
theorem perm_predsOf_link_self (hnodup : s.ids.Nodup) (hb : s.block? id = some b) (hsuccs : b.succs = []) :
    (predsOf (s.link id [j]).blocks j).Perm (id :: predsOf s.blocks j) := by
  simpa using @perm_predsOf_link _ _ j _ [j] hnodup hb hsuccs

theorem perm_predsOf_link_of_notMem (hnodup : s.ids.Nodup) (hb : s.block? id = some b) (hsuccs : b.succs = [])
    (hj : j ∉ succs) : (predsOf (s.link id succs).blocks j).Perm (predsOf s.blocks j) := by
  have hperm := @perm_predsOf_link _ _ j _ succs hnodup hb hsuccs
  have hfilter : (succs.filter fun target => target = j) = [] := by
    rw [List.filter_eq_nil_iff]
    intro target htarget heq
    exact hj (of_decide_eq_true heq ▸ htarget)
  rwa [hfilter] at hperm

/-- A block that is still to be created has no predecessors. -/
theorem predsOf_eq_nil {waiting : List BlockId} (h : Sound waiting s) (hid : id ∉ s.ids) :
    predsOf s.blocks id = [] := by
  rw [predsOf, Graph.sources, List.map_eq_nil_iff, List.filter_eq_nil_iff]
  rintro ⟨source, target⟩ hedge heq
  simp only [edgesOf, List.mem_flatMap, List.mem_map, Prod.mk.injEq] at hedge
  obtain ⟨b, hb, _, htarget, _, rfl⟩ := hedge
  have hmem := h.succs (block?_of_mem h.nodup hb) _ htarget
  exact hid (of_decide_eq_true heq ▸ List.mem_of_mem_tail hmem)

end Builder

/-- From the old blocks to the new ones, blocks only grow and those of `ids` get no new predecessors. -/
structure Spares (ids : Set BlockId) (old new : List Block) : Prop where
  kept : Kept old new
  preds : ∀ id ∈ ids, (predsOf new id).Perm (predsOf old id)

namespace Spares

variable {ids ids' : Set BlockId} {old new newer : List Block}

theorem trans (h : Spares ids old new) (h' : Spares ids new newer) : Spares ids old newer :=
  ⟨h.kept.trans h'.kept, fun id hid => (h'.preds id hid).trans (h.preds id hid)⟩

theorem mono (h : Spares ids' old new) (hsub : ids ⊆ ids') : Spares ids old new :=
  ⟨h.kept, fun id hid => h.preds id (hsub hid)⟩

/-- A change without new edges spares every block. -/
theorem of_extends (h : Extends (blockOf? old) (blockOf? new)) (hedges : edgesOf new = edgesOf old) :
    Spares ids old new := by
  refine ⟨.of_extends h, fun id _ => ?_⟩
  rw [predsOf, hedges, predsOf]

theorem refl (ids : Set BlockId) (blocks : List Block) : Spares ids blocks blocks := of_extends (.refl _) rfl

variable {s : Builder} {id target join : BlockId} {b : Block} {succs : List BlockId}

theorem alloc : Spares ids s.blocks s.alloc.blocks := of_extends Builder.extends_alloc Builder.edgesOf_alloc

theorem emit {binding : Option String} {opcode : Opcode} {operands : List Operand} (h : s.Unlinked) :
    Spares ids s.blocks (s.emit binding opcode operands).blocks :=
  of_extends (Builder.extends_emit h) Builder.edgesOf_emit

/-- A link spares all blocks that it does not lead to. -/
theorem link (hnodup : s.ids.Nodup) (hb : s.block? id = some b) (hsuccs : b.succs = [])
    (hids : ∀ target ∈ succs, target ∉ ids) : Spares ids s.blocks (s.link id succs).blocks := by
  refine ⟨.of_extends (Builder.extends_link hb hsuccs), fun j hj => ?_⟩
  exact Builder.perm_predsOf_link_of_notMem hnodup hb hsuccs fun hmem => hids j hmem hj

/-- A binding on the last instruction is no change of code. -/
theorem replace {bound : Block} {name : String} {value : Operand} (hready : Stage.code.Ready s) (hat : s.At b)
    (hbound : b.bindLast? name value = some bound) : Spares ids s.blocks (s.replace bound).blocks := by
  refine ⟨fun id c hc => ?_, fun id _ => ?_⟩
  · change ∃ b', (s.replace bound).block? id = some b' ∧ _
    rw [Builder.block?_replace ((Block.bindLast?_id hbound).trans (Builder.block?_id hat))]
    by_cases hid : id = s.current
    · have heq : c = b := Option.some.inj ((hid ▸ hc).symm.trans hat)
      obtain ⟨b', hat', hopen⟩ := hready.1
      have hsuccs : b.succs = [] := Option.some.inj (hat'.symm.trans hat) ▸ hopen.succs
      obtain ⟨init, last, hinstrs, _, _, _, _, rfl⟩ := Block.bindLast?_eq_some hbound
      rw [if_pos hid, hat, heq]
      refine ⟨_, rfl, ?_, fun hne => absurd hsuccs hne⟩
      simp [hinstrs, Instr.bare]
    · rw [if_neg hid]
      exact ⟨c, hc, List.prefix_rfl, fun _ => rfl⟩
  · rw [predsOf, Builder.edgesOf_replace hready.nodup hat hbound, predsOf]

theorem place {phi : InstrId} (h : s.block? join = some (.empty join)) :
    Spares ids s.blocks (s.place phi join).blocks :=
  of_extends (Builder.extends_place h) Builder.edgesOf_place

theorem reopen : Spares ids s.blocks s.reopen.blocks := by
  rw [Builder.reopen]
  split
  · exact alloc
  · exact refl ids _

/-- Control falls to the target only if it is still there, so at most one edge is added. -/
theorem fallTo (h : Stage.flow.Ready s) (htarget : target ∉ ids) :
    Spares ids s.blocks (s.fallTo target).blocks := by
  rw [Builder.fallTo]
  rcases h.1 with hopen | hclosed
  · rw [hopen.terminated]
    obtain ⟨b, hat, hb⟩ := hopen
    exact link h.nodup hat hb.succs fun t ht => List.mem_singleton.mp ht ▸ htarget
  · rw [hclosed.terminated]
    exact refl ids _

theorem split {condition : Operand} (h : Stage.code.Ready s) (hids : ∀ k < 2, s.later k ∉ ids) :
    Spares ids s.blocks (s.split condition).blocks := by
  obtain ⟨hopen, pending, hsound⟩ := h
  have hallocs : Spares ids s.blocks (s.emit none .branch [condition]).alloc.alloc.alloc.blocks :=
    (emit hopen.unlinked).trans (alloc.trans (alloc.trans alloc))
  obtain ⟨b, hat, hb⟩ := hopen
  have hat' :=
    Builder.At_alloc (Builder.At_alloc (Builder.At_alloc (@Builder.At_emit _ _ none .branch [condition] hat)))
  refine hallocs.trans (link hsound.emit.alloc.alloc.alloc.nodup hat' hb.succs fun target htarget => ?_)
  simp only [List.mem_cons, List.not_mem_nil, or_false] at htarget
  rcases htarget with rfl | rfl
  · exact hids 0 Nat.two_pos
  · exact hids 1 Nat.one_lt_two

theorem openMerge {condition : Operand} {trueFirst : Bool} (h : Stage.code.Ready s)
    (hids : ∀ k < 2, s.later k ∉ ids) : Spares ids s.blocks (s.openMerge condition trueFirst).blocks := by
  obtain ⟨hopen, pending, hsound⟩ := h
  exact split (s := s.draw) ⟨hopen, pending, hsound.draw⟩ hids

theorem deliver {phi : InstrId} {entry : Phi.Entry} {value : Operand} (h : Stage.code.Ready s)
    (hjoin : join ∉ ids) : Spares ids s.blocks (s.deliver phi join entry value).blocks := by
  let recorded := s.withPhis ⟨s.phis.entries.insert phi ⟨entry.block, entry.inputs ++ [⟨s.current, value⟩]⟩⟩
  have hemit : Spares ids s.blocks (recorded.emit none .toPhi [.instr phi, value]).blocks := emit h.1.unlinked
  obtain ⟨b, hat, hb⟩ := h.1
  have hlink : Spares ids _ (s.deliver phi join entry value).blocks :=
    link (by rw [Builder.ids_emit]; exact h.nodup) (Builder.At_emit (s := recorded) hat) hb.succs
      fun t ht => List.mem_singleton.mp ht ▸ hjoin
  exact hemit.trans hlink

/-- A loop is entered by its header, which leads on to the test or the body. -/
theorem openLoop {testFirst : Bool} (h : Stage.code.Ready s) (hids : ∀ k ≥ 2, s.later k ∉ ids) :
    Spares ids s.blocks (s.openLoop testFirst).blocks := by
  obtain ⟨hopen, pending, hsound⟩ := h
  have hallocs : Spares ids s.blocks s.alloc.alloc.alloc.alloc.alloc.blocks :=
    alloc.trans (alloc.trans (alloc.trans (alloc.trans alloc)))
  have hnodup := hsound.alloc.alloc.alloc.alloc.alloc.nodup
  obtain ⟨b, hat, hb⟩ := hopen
  have hat' := Builder.At_alloc (Builder.At_alloc (Builder.At_alloc (Builder.At_alloc (Builder.At_alloc hat))))
  have hentry : Spares ids s.alloc.alloc.alloc.alloc.alloc.blocks
      (s.alloc.alloc.alloc.alloc.alloc.link s.current [s.later 2]).blocks :=
    link hnodup hat' hb.succs fun t ht => List.mem_singleton.mp ht ▸ hids 2 (le_refl 2)
  have hheader : Spares ids (s.alloc.alloc.alloc.alloc.alloc.link s.current [s.later 2]).blocks
      (s.openLoop testFirst).blocks := by
    refine link (by rwa [Builder.ids_link]) (hsound.fresh.block?_header hsound.current) rfl fun t ht => ?_
    rw [List.mem_singleton.mp ht]
    cases testFirst with
    | true => exact hids 3 (by omega)
    | false => exact hids 4 (by omega)
  exact hallocs.trans (hentry.trans hheader)

theorem openBody {condition : Operand} {body breakEntry : BlockId} {loop : Loop} (h : Stage.code.Ready s)
    (hbody : body ∉ ids) (hbreak : breakEntry ∉ ids) :
    Spares ids s.blocks (s.openBody condition body breakEntry loop).blocks := by
  have hnodup := h.nodup
  have hemit : Spares ids s.blocks (s.emit none .branch [condition]).blocks := emit h.1.unlinked
  obtain ⟨b, hat, hb⟩ := h.1
  have hlink : Spares ids (s.emit none .branch [condition]).blocks
      (s.openBody condition body breakEntry loop).blocks := by
    refine link (s := s.emit none .branch [condition]) (by rwa [Builder.ids_emit]) (Builder.At_emit hat)
      hb.succs fun t ht => ?_
    simp only [List.mem_cons, List.not_mem_nil, or_false] at ht
    rcases ht with rfl | rfl
    · exact hbody
    · exact hbreak
  exact hemit.trans hlink

theorem openUpdate {frame : Loop} {outer : List Loop} (h : Stage.flow.Ready s)
    (hentry : frame.continueEntry ∉ ids) : Spares ids s.blocks (s.openUpdate frame outer).blocks := by
  change Spares ids s.blocks (Builder.fallTo _ _).blocks
  have hblocks : ((s.withLoops outer).fallTo frame.continueEntry).blocks = (s.fallTo frame.continueEntry).blocks := by
    have hterminated : (s.withLoops outer).terminated = s.terminated := rfl
    rw [Builder.fallTo, Builder.fallTo, hterminated]
    split <;> rfl
  rw [hblocks]
  exact fallTo h hentry

variable {pending : List BlockId}

/-- The end of the update code leads to the chain of continues, or straight to the header. -/
theorem closeContinues {frame : Loop} {header : BlockId} (h : LoopEnd frame header pending s)
    (hheader : header ∉ ids) (hfirst : ∀ first ∈ frame.continues.head?, first ∉ ids) :
    Spares ids s.blocks (s.closeContinues frame header).blocks := by
  obtain ⟨b, hat, hb⟩ := h.isOpen
  have hnodup := h.sound.nodup
  rw [Builder.closeContinues]
  cases hcontinues : frame.continues with
  | nil => exact link hnodup hat hb.succs fun t ht => List.mem_singleton.mp ht ▸ hheader
  | cons first rest =>
      have hne : frame.continues ≠ [] := by simp [hcontinues]
      have hupdate : Spares ids s.blocks (s.link s.current [first]).blocks :=
        link hnodup hat hb.succs fun t ht => List.mem_singleton.mp ht ▸ hfirst first (by simp [hcontinues])
      refine hupdate.trans (link ?_ (h.continueTarget_empty hne) rfl fun t ht => ?_)
      · rwa [Builder.ids_link]
      · exact List.mem_singleton.mp ht ▸ hheader

theorem closeLoop {frame : Loop} {header : BlockId} (h : LoopEnd frame header pending s)
    (hheader : header ∉ ids) (hfirst : ∀ first ∈ frame.continues.head?, first ∉ ids)
    (hafter : s.later 0 ∉ ids) : Spares ids s.blocks (s.closeLoop frame header).blocks := by
  have hclosed := closeContinues h hheader hfirst
  have hbreak : Spares ids (s.closeContinues frame header).alloc.blocks
      (s.closeLoop frame header).blocks := by
    refine link h.closeContinues.1.alloc.nodup h.breakTarget_empty rfl fun t ht => ?_
    rw [List.mem_singleton.mp ht, Builder.later, Builder.supply_closeContinues]
    exact hafter
  exact hclosed.trans (alloc.trans hbreak)

/-- A jump leads to its own merge block, and so does the chain it extends. -/
theorem jumpTo {kind : Jump} {inner outer : List Loop} {frame : Loop} (hready : Stage.code.Ready s)
    (hloops : s.loops = inner ++ frame :: outer) (hjoin : s.later 0 ∉ ids) :
    Spares ids s.blocks (s.jumpTo kind inner frame outer).blocks := by
  obtain ⟨⟨b, hat, hb⟩, pending, h⟩ := hready
  have hlink : Spares ids s.alloc.blocks (s.alloc.link s.current [s.later 0]).blocks :=
    link h.alloc.nodup (Builder.At_alloc hat) hb.succs fun t ht => List.mem_singleton.mp ht ▸ hjoin
  have hchain : Spares ids (s.alloc.link s.current [s.later 0]).blocks
      (s.jumpTo kind inner frame outer).blocks := by
    simp only [Builder.jumpTo]
    split
    · next honce =>
      refine link ?_ (h.chainEnd_empty hloops honce) rfl fun t ht => List.mem_singleton.mp ht ▸ hjoin
      rw [Builder.ids_link]
      exact h.alloc.nodup
    · exact refl ids _
  exact alloc.trans (hlink.trans hchain)

end Spares

/-- The merge blocks of the jumps to a loop. -/
def Loop.joins (l : Loop) : List BlockId := l.breaks ++ l.continues

/-- A jump adds its merge block to the joins of its loop. -/
theorem Loop.perm_joins_extend (kind : Jump) (l : Loop) (join : BlockId) :
    (l.extend kind join).joins.Perm (join :: l.joins) := by
  cases kind with
  | exit =>
      rw [joins, extend, List.append_assoc]
      exact List.perm_middle
  | next =>
      rw [joins, extend, ← List.append_assoc]
      exact List.perm_append_singleton _ _

/-- The merge blocks that are added to a loop are not among `ids`. -/
def Loop.AddsOutside (ids : Set BlockId) (l l' : Loop) : Prop := ∀ id ∈ l'.joins, id ∈ l.joins ∨ id ∉ ids

namespace Loop.AddsOutside

variable {ids ids' : Set BlockId} {ls ls' ls'' : List Loop}

theorem mono (h : List.Forall₂ (AddsOutside ids') ls ls') (hsub : ids ⊆ ids') :
    List.Forall₂ (AddsOutside ids) ls ls' :=
  h.imp fun _ _ hl id hid => (hl id hid).imp_right fun hnot hmem => hnot (hsub hmem)

theorem trans (h : List.Forall₂ (AddsOutside ids) ls ls') (h' : List.Forall₂ (AddsOutside ids') ls' ls'')
    (hsub : ids ⊆ ids') : List.Forall₂ (AddsOutside ids) ls ls'' :=
  forall₂_trans (fun h h' id hid => (h' id hid).elim (h id) .inr) h (mono h' hsub)

end Loop.AddsOutside

namespace Trace

variable {k : Stage} {held held' : Set InstrId} {s t : Builder}

/-- The merge blocks that a trace adds to a loop are new. -/
theorem joins_new (h : Trace k held s held' t) :
    List.Forall₂ (Loop.AddsOutside s.supply.taken) s.loops t.loops := by
  have hrefl : ∀ {ids : Set BlockId} (loops : List Loop), List.Forall₂ (Loop.AddsOutside ids) loops loops :=
    fun loops => List.forall₂_same.mpr fun _ _ _ hid => .inl hid
  induction h with
  | refl | draw | emit | rebind | function | skip => exact hrefl _
  | trans h₁ _ ih₁ ih₂ => exact Loop.AddsOutside.trans ih₁ ih₂ (Supply.taken_mono h₁.supply_le)
  | seq h₁ _ ih₁ ih₂ => exact Loop.AddsOutside.trans ih₁ ih₂ (Supply.taken_mono h₁.supply_le)
  | merge _ _ h₁ _ _ _ h₂ =>
      have heq : _ = _ := (h₂.loops_eq rfl).trans (h₁.loops_eq rfl)
      exact heq ▸ hrefl _
  | reopen =>
      rw [Builder.loops_reopen]
      exact hrefl _
  | code _ h => exact h.loops_eq rfl ▸ hrefl _
  | ret _ h => exact h.loops_eq rfl ▸ hrefl _
  | @branch _ s s₀ s₁ s₂ condition _ h₀ _ _ h₁ _ _ ih₁ ih₂ =>
      have hsupply : s.supply ≤ (s₀.split condition).supply := h₀.supply_le.trans Builder.supply_le_split
      have hloops : s₀.loops = s.loops := h₀.loops_eq rfl
      change List.Forall₂ _ s₀.loops s₁.loops at ih₁
      change List.Forall₂ _ (Builder.fallTo _ _).loops _ at ih₂
      change List.Forall₂ _ _ (Builder.fallTo _ _).loops
      rw [Builder.loops_fallTo] at ih₂ ⊢
      rw [hloops] at ih₁
      refine Loop.AddsOutside.trans (Loop.AddsOutside.mono ih₁ (Supply.taken_mono hsupply)) ih₂ ?_
      refine Supply.taken_mono ((hsupply.trans h₁.supply_le).trans ?_)
      exact le_of_eq Builder.supply_fallTo.symm
  | @loop _ _ s s₁ s₂ s₃ _ _ labels frame outer _ h₁ _ _ h₂ hloops h₃ _ ih₂ _ =>
      have hsupply := (Builder.supply_le_openLoop.trans h₁.supply_le).trans (Supply.le_dropInstr _)
      have hloops₁ : s₁.loops = s.loops := h₁.loops_eq rfl
      have hloops₃ : s₃.loops = outer := (h₃.loops_eq rfl).trans Builder.loops_openUpdate
      change List.Forall₂ _ (⟨labels, s.later 0, s.later 0, [], s.later 1, []⟩ :: s₁.loops) s₂.loops at ih₂
      rw [hloops, hloops₁] at ih₂
      rw [Builder.loops_closeLoop, hloops₃]
      cases ih₂ with
      | cons _ houter => exact Loop.AddsOutside.mono houter (Supply.taken_mono hsupply)
  | @jump s kind label inner frame outer _ hloops _ _ =>
      rw [Builder.loops_jumpTo, hloops]
      refine List.rel_append (hrefl inner) (.cons (fun id hid => ?_) (hrefl outer))
      refine (List.mem_cons.mp ((frame.perm_joins_extend kind _).mem_iff.mp hid)).symm.imp_right fun hid => ?_
      rw [hid]
      exact Builder.later_notMem_taken (le_refl _) 0

/-- A trace adds no edge to a block that was there before. -/
theorem spares (h : Trace k held s held' t) : Spares s.supply.taken s.blocks t.blocks := by
  induction h with
  | refl | skip => exact .refl _ _
  | draw => exact .of_extends (.refl _) rfl
  | emit hready _ _ => exact .emit hready.1.unlinked
  | rebind hready hat hbound => exact .replace hready hat hbound
  | trans h₁ _ ih₁ ih₂ => exact ih₁.trans (ih₂.mono (Supply.taken_mono h₁.supply_le))
  | seq h₁ _ ih₁ ih₂ => exact ih₁.trans (ih₂.mono (Supply.taken_mono h₁.supply_le))
  | @merge _ _ _ s s₁ s₂ condition v₁ v₂ trueFirst e₁ e₂ hready _ h₁ hready₁ _ _ h₂ hready₂ _ _ hjoin ih₁ ih₂ =>
      have hnew : ∀ k, s.later k ∉ s.supply.taken := Builder.later_notMem_taken (le_refl _)
      have hopened : s.supply ≤ (s.openMerge condition trueFirst).supply :=
        s.supply.le_dropInstr.trans Builder.supply_le_openMerge
      have hfirst : s.supply ≤ s₁.supply := hopened.trans h₁.supply_le
      have harm : Spares s.supply.taken s.blocks s₁.blocks :=
        (Spares.openMerge hready fun k _ => hnew k).trans (ih₁.mono (Supply.taken_mono hopened))
      have hother : Spares s.supply.taken
          (s₁.deliver s.supply.nextInstr (s.later 2) e₁ v₁).blocks s₂.blocks :=
        ih₂.mono (Supply.taken_mono (hfirst.trans (Supply.le_dropInstr _)))
      have hplaced : Spares s.supply.taken s₂.blocks
          ((s₂.deliver s.supply.nextInstr (s.later 2) e₂ v₂).place s.supply.nextInstr (s.later 2)).blocks :=
        (Spares.deliver hready₂ (hnew 2)).trans (.place hjoin)
      exact (harm.trans (.deliver hready₁ (hnew 2))).trans (hother.trans hplaced)
  | function _ _ _ => exact .of_extends (.refl _) rfl
  | reopen => exact .reopen
  | code _ _ ih => exact ih
  | ret _ _ hready' _ ih => exact ih.trans (.emit hready'.1.unlinked)
  | @branch _ s s₀ s₁ s₂ condition hready h₀ hready₀ _ h₁ h₂ ih₀ ih₁ ih₂ =>
      have hnew : ∀ k, s₀.later k ∉ s.supply.taken := Builder.later_notMem_taken h₀.supply_le
      have hready₁ := h₁.ready hready₀.consequent
      have hready₂ := h₂.ready (hready₀.alternate h₁)
      have hsupply₁ : s.supply ≤ s₁.supply := h₀.supply_le.trans (Builder.supply_le_split.trans h₁.supply_le)
      have hconsequent : Spares s.supply.taken s.blocks s₁.blocks :=
        (ih₀.trans (.split hready₀ fun k _ => hnew k)).trans
          (ih₁.mono (Supply.taken_mono (h₀.supply_le.trans Builder.supply_le_split)))
      have halternate : Spares s.supply.taken (s₁.fallTo (s₀.later 2)).blocks s₂.blocks := by
        refine ih₂.mono (Supply.taken_mono (hsupply₁.trans ?_))
        exact le_of_eq Builder.supply_fallTo.symm
      exact (hconsequent.trans (.fallTo hready₁ (hnew 2))).trans (halternate.trans (.fallTo hready₂ (hnew 2)))
  | @loop _ _ s s₁ s₂ s₃ condition testFirst labels frame outer hready h₁ hready₁ _ h₂ hloops h₃ ih₁ ih₂ ih₃ =>
      have hnew : ∀ k, s.later k ∉ s.supply.taken := Builder.later_notMem_taken (le_refl _)
      have hready₂ := h₂.ready (hready.loopBody h₁)
      obtain ⟨pending, hend⟩ := hready.loopEnd h₁ h₂ hloops h₃
      have hsupply₁ : s.supply ≤ s₁.supply := Builder.supply_le_openLoop.trans h₁.supply_le
      have hsupply₁' : s.supply ≤ (s₁.openBody condition (s.later 4) (s.later 1)
          ⟨labels, s.later 0, s.later 0, [], s.later 1, []⟩).supply := hsupply₁.trans (Supply.le_dropInstr _)
      have hsupply₂ : s.supply ≤ (s₂.openUpdate frame outer).supply :=
        (hsupply₁'.trans h₂.supply_le).trans (le_of_eq (Builder.supply_fallTo (s := s₂.withLoops outer)).symm)
      obtain ⟨hentry, hcontinues⟩ :
          frame.continueEntry = s.later 0 ∧ ∀ id ∈ frame.continues, id ∉ s.supply.taken := by
        have hgrow := h₂.loops_grow
        have hadded := h₂.joins_new
        rw [hloops] at hgrow hadded
        cases hgrow with
        | cons hgrow _ =>
            cases hadded with
            | cons hadded _ =>
                refine ⟨hgrow.continueEntry, fun id hid hold => ?_⟩
                exact (hadded id (List.mem_append_right _ hid)).elim (fun h => nomatch h) fun h =>
                  h (Supply.taken_mono hsupply₁' hold)
      have hbody : Spares s.supply.taken s.blocks s₂.blocks :=
        ((Spares.openLoop hready fun k _ => hnew k).trans
          (ih₁.mono (Supply.taken_mono Builder.supply_le_openLoop))).trans
            ((Spares.openBody hready₁ (hnew 4) (hnew 1)).trans (ih₂.mono (Supply.taken_mono hsupply₁')))
      have hupdate : Spares s.supply.taken s₂.blocks s₃.blocks :=
        (Spares.openUpdate hready₂ (hentry ▸ hnew 0)).trans (ih₃.mono (Supply.taken_mono hsupply₂))
      refine (hbody.trans hupdate).trans (.closeLoop hend (hnew 2) (fun first hfirst => ?_) ?_)
      · exact hcontinues first (List.mem_of_mem_head? hfirst)
      · exact Builder.later_notMem_taken (hsupply₂.trans h₃.supply_le) 0
  | jump hready hloops _ _ => exact .jumpTo hready hloops (Builder.later_notMem_taken (le_refl _) 0)

end Trace

end ScriptSsa
