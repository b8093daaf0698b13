import Mathlib.Tactic.Tauto
import ScriptSsa.Proofs.BuilderStep

/-!
Which blocks are still open.

While a function is lowered, a few blocks wait: they have been created and are empty, and someone has promised
to enter them or to link them. Besides them only the current block may be open; from every other block control
has left in one of four ways. `Sound waiting s` says this of a builder and lists the blocks that wait. Those of
the loops around the current place can be read off the stack of loops.
-/

namespace ScriptSsa

namespace Opcode

/-- Whether control leaves the block at the instruction. -/
def endsBlock : Opcode → Bool
  | branch | ret | toPhi => true
  | _ => false

/-- Whether the instruction may stand anywhere in a block. -/
def isPlain (opcode : Opcode) : Bool := !opcode.endsBlock && opcode != .phi

end Opcode

/-- No instruction ends the block, and a phi comes first if at all. -/
structure Straight (instrs : List Instr) : Prop where
  goesOn : ∀ i ∈ instrs, i.opcode.endsBlock = false
  phiFirst : ∀ i ∈ instrs.tail, i.opcode ≠ .phi

/-- Control has not left the block. -/
structure Block.IsOpen (b : Block) : Prop where
  straight : Straight b.instrs
  succs : b.succs = []

/-- Control has not left the current block. -/
def Builder.IsOpen (s : Builder) : Prop := ∃ b, s.At b ∧ b.IsOpen

theorem Builder.IsOpen.unlinked {s : Builder} (h : s.IsOpen) : s.Unlinked :=
  let ⟨b, hb, hopen⟩ := h
  ⟨b, hb, hopen.succs⟩

/-- The four ways to leave a block. -/
inductive Block.IsClosed : Block → Prop where
  | jump {id target : BlockId} {instrs : List Instr} (h : Straight instrs) :
      IsClosed ⟨id, instrs, [target]⟩
  | deliver {id target : BlockId} {instrs : List Instr} {last : Instr} (h : Straight instrs)
      (hlast : last.opcode = .toPhi) : IsClosed ⟨id, instrs ++ [last], [target]⟩
  | branch {id onTrue onFalse : BlockId} {instrs : List Instr} {last : Instr} (h : Straight instrs)
      (hlast : last.opcode = .branch) (hne : onTrue ≠ onFalse) :
      IsClosed ⟨id, instrs ++ [last], [onTrue, onFalse]⟩
  | ret {id : BlockId} {instrs : List Instr} {last : Instr} (h : Straight instrs)
      (hlast : last.opcode = .ret) : IsClosed ⟨id, instrs ++ [last], []⟩

theorem Block.isOpen_empty (id : BlockId) : (Block.empty id).IsOpen :=
  ⟨⟨by simp [empty], by simp [empty]⟩, rfl⟩

theorem Straight.phiFirst_concat {instrs : List Instr} {i : Instr} (h : Straight instrs)
    (hi : i.opcode ≠ .phi) : ∀ j ∈ (instrs ++ [i]).tail, j.opcode ≠ .phi := by
  intro j hj
  cases instrs with
  | nil => cases hj
  | cons first rest =>
      rcases List.mem_append.mp hj with hj | hj
      · exact h.phiFirst j hj
      · rwa [List.mem_singleton.mp hj]

theorem Straight.concat {instrs : List Instr} {i : Instr} (h : Straight instrs)
    (hi : i.opcode.isPlain = true) : Straight (instrs ++ [i]) := by
  simp only [Opcode.isPlain, Bool.and_eq_true, Bool.not_eq_true', bne_iff_ne] at hi
  refine ⟨fun j hj => ?_, h.phiFirst_concat hi.2⟩
  rcases List.mem_append.mp hj with hj | hj
  · exact h.goesOn j hj
  · rw [List.mem_singleton.mp hj]
    exact hi.1

theorem Block.IsOpen.isTerminated {b : Block} (h : b.IsOpen) : b.isTerminated = false := by
  rw [Block.isTerminated, h.succs]
  simp only [List.isEmpty_nil, Bool.not_true, Bool.false_or, Option.any_eq_false]
  intro i hi
  have hgoes := h.straight.goesOn i (List.mem_of_getLast? hi)
  cases hop : i.opcode <;> simp_all [Opcode.endsBlock]

theorem Block.IsClosed.isTerminated {b : Block} (h : b.IsClosed) : b.isTerminated = true := by
  cases h with
  | jump | deliver | branch => rfl
  | ret _ hlast => simp [Block.isTerminated, hlast]

/-- The blocks of a loop that wait until it is closed. -/
def Loop.waiting (l : Loop) : List BlockId :=
  l.breakTarget :: l.continueEntry :: l.continues.getLast?.toList

theorem Loop.Chained.getLast?_continues {l : Loop} (h : l.Chained) (hne : l.continues ≠ []) :
    l.continues.getLast? = some l.continueTarget := by
  rw [h, List.getLastD_eq_getLast?, List.getLast?_eq_some_getLast hne]
  rfl

/-- A jump puts its merge block in the place of the end of the chain, or beside it. -/
theorem Loop.Chained.waiting_extend {l : Loop} (h : l.Chained) (kind : Jump) (join : BlockId) :
    ∃ rest, l.waiting.Perm ((if l.linksAtOnce kind then [l.chainEnd kind] else []) ++ rest) ∧
      (l.extend kind join).waiting.Perm (join :: rest) := by
  cases kind with
  | exit =>
      refine ⟨l.continueEntry :: l.continues.getLast?.toList, .refl _, ?_⟩
      have htarget : (l.extend .exit join).breakTarget = join := by
        simp [Loop.extend, breakTarget, List.getLastD_eq_getLast?]
      rw [waiting, htarget]
      exact .refl _
  | next =>
      refine ⟨[l.breakTarget, l.continueEntry], ?_, ?_⟩
      · cases hcontinues : l.continues with
        | nil =>
            simp only [waiting, linksAtOnce, hcontinues, List.isEmpty_nil]
            exact .refl _
        | cons first rest =>
            have hne : l.continues ≠ [] := by simp [hcontinues]
            rw [waiting, linksAtOnce, h.getLast?_continues hne, hcontinues]
            exact List.perm_append_singleton _ [l.breakTarget, l.continueEntry]
      · have hlast : (l.extend .next join).continues.getLast? = some join := by
          simp [Loop.extend]
        rw [waiting, hlast]
        exact List.perm_append_singleton _ [l.breakTarget, l.continueEntry]

theorem Loop.Chained.chainEnd_mem_waiting {kind : Jump} {l : Loop} (h : l.Chained) (honce : l.linksAtOnce kind = true) :
    l.chainEnd kind ∈ l.waiting := by
  obtain ⟨rest, hperm, _⟩ := h.waiting_extend kind l.breakEntry
  rw [hperm.mem_iff, if_pos honce]
  exact List.mem_cons_self

theorem Loop.mem_continues_extend {kind : Jump} (l : Loop) {id join : BlockId}
    (h : id ∈ (l.extend kind join).continues) : id ∈ l.continues ∨ id = join := by
  cases kind with
  | exit => exact .inl h
  | next => exact (List.mem_append.mp h).imp_right List.mem_singleton.mp

/-- A loop keeps the end of its chain of continues, whose merge blocks are among the given ones. -/
structure Loop.ChainedIn (ids : List BlockId) (l : Loop) : Prop where
  chained : l.Chained
  mem : ∀ id ∈ l.continues, id ∈ ids

theorem Loop.ChainedIn.mono {ids ids' : List BlockId} {l : Loop} (h : l.ChainedIn ids)
    (hids : ∀ id ∈ ids, id ∈ ids') : l.ChainedIn ids' :=
  ⟨h.chained, fun id hid => hids id (h.mem id hid)⟩

theorem Loop.ChainedIn.extend {ids : List BlockId} {l : Loop} (h : l.ChainedIn ids) (kind : Jump) {join : BlockId}
    (hjoin : join ∈ ids) : (l.extend kind join).ChainedIn ids := by
  refine ⟨h.chained.extend kind join, fun id hid => ?_⟩
  rcases l.mem_continues_extend hid with hid | rfl
  · exact h.mem id hid
  · exact hjoin

/-- A loop whose body is to come. -/
theorem Loop.chainedIn_new {ids : List BlockId} (labels : List String) (continueEntry breakEntry : BlockId) :
    (Loop.mk labels continueEntry continueEntry [] breakEntry []).ChainedIn ids :=
  ⟨rfl, fun _ hid => absurd hid List.not_mem_nil⟩

namespace Builder

/-- Control has left the current block. -/
def IsClosed (s : Builder) : Prop := ∃ b, s.At b ∧ b.IsClosed

/-- The blocks that wait for the loops around the current place. -/
def loopsWaiting (s : Builder) : List BlockId := s.loops.flatMap Loop.waiting

end Builder

/-- The blocks of a builder are in order, those of `waiting` being the ones that wait. Of the current block
only its place is known here. -/
structure Sound (waiting : List BlockId) (s : Builder) : Prop where
  nodup : s.ids.Nodup
  fresh : s.Fresh
  current : s.current ∈ s.ids
  apart : (s.current :: waiting).Nodup
  empty : ∀ id ∈ waiting, s.block? id = some (.empty id) ∧ id ∈ s.ids.tail
  closed : ∀ {id b}, s.block? id = some b → id ≠ s.current → id ∉ waiting → b.IsClosed
  /-- Control never goes back to the entry. -/
  succs : ∀ {id b}, s.block? id = some b → ∀ target ∈ b.succs, target ∈ s.ids.tail
  loops : ∀ l ∈ s.loops, l.ChainedIn s.ids.tail

namespace Sound

variable {waiting : List BlockId} {s t : Builder} {id : BlockId} {b : Block}

theorem at_current (h : Sound waiting s) : ∃ b, s.At b := Builder.exists_block? h.current

theorem mem_ids (h : Sound waiting s) (hid : id ∈ waiting) : id ∈ s.ids := List.mem_of_mem_tail (h.empty id hid).2

theorem perm {waiting' : List BlockId} (h : Sound waiting s) (hperm : waiting.Perm waiting') :
    Sound waiting' s where
  nodup := h.nodup
  fresh := h.fresh
  current := h.current
  apart := (hperm.cons s.current).nodup_iff.mp h.apart
  empty id hid := h.empty id (hperm.mem_iff.mpr hid)
  closed hb hne hnot := h.closed hb hne (mt hperm.mem_iff.mp hnot)
  succs := h.succs
  loops := h.loops

/-- A change that leaves blocks and loops alone. -/
theorem of_blocks_eq (h : Sound waiting s) (hblocks : t.blocks = s.blocks) (hcurrent : t.current = s.current)
    (hloops : t.loops = s.loops) (hsupply : s.supply ≤ t.supply) : Sound waiting t := by
  have hids : t.ids = s.ids := by rw [Builder.ids, hblocks, Builder.ids]
  have hblock : ∀ id, t.block? id = s.block? id := fun id => by rw [Builder.block?, hblocks, Builder.block?]
  refine ⟨hids ▸ h.nodup, ?_, ?_, hcurrent ▸ h.apart, ?_, ?_, ?_, ?_⟩
  · intro id hid
    exact Nat.lt_of_lt_of_le (h.fresh id (hids ▸ hid)) hsupply.2
  · rw [hids, hcurrent]
    exact h.current
  · rw [hids]
    exact fun id hid => (hblock id).symm ▸ h.empty id hid
  · intro id b hb hne hnot
    exact h.closed (hblock id ▸ hb) (hcurrent ▸ hne) hnot
  · rw [hids]
    exact fun hb => h.succs (hblock _ ▸ hb)
  · rw [hids, hloops]
    exact h.loops

theorem withLoops {loops : List Loop} (h : Sound waiting s) (hloops : ∀ l ∈ loops, l.ChainedIn s.ids.tail) :
    Sound waiting (s.withLoops loops) :=
  ⟨h.nodup, h.fresh, h.current, h.apart, h.empty, h.closed, h.succs, hloops⟩

theorem alloc (h : Sound waiting s) : Sound (s.later 0 :: waiting) s.alloc := by
  have hnew : s.later 0 ∉ s.ids := h.fresh.later_notMem 0
  have htail : s.alloc.ids.tail = s.ids.tail ++ [s.later 0] := by
    rw [Builder.ids_alloc, List.tail_append_of_ne_nil (List.ne_nil_of_mem h.current)]
  have hold : ∀ id ∈ s.ids.tail, id ∈ s.alloc.ids.tail := by
    intro id hid
    rw [htail]
    exact List.mem_append_left _ hid
  have hwaiting : s.later 0 ∉ waiting := fun hmem =>
    hnew (List.mem_of_mem_tail (h.empty _ hmem).2)
  refine ⟨?_, h.fresh.alloc, ?_, ?_, ?_, ?_, ?_, fun l hl => (h.loops l hl).mono hold⟩
  · rw [Builder.ids_alloc, List.nodup_append_comm]
    exact List.nodup_cons.mpr ⟨hnew, h.nodup⟩
  · rw [Builder.ids_alloc]
    exact List.mem_append_left _ h.current
  · have hne : s.current ≠ s.later 0 := fun heq => hnew (heq ▸ h.current)
    have hapart := List.nodup_cons.mp h.apart
    refine List.nodup_cons.mpr ⟨?_, List.nodup_cons.mpr ⟨hwaiting, hapart.2⟩⟩
    exact fun hmem => (List.mem_cons.mp hmem).elim hne hapart.1
  · intro id hid
    rcases List.mem_cons.mp hid with rfl | hid
    · refine ⟨Builder.block?_alloc_self hnew, ?_⟩
      rw [htail]
      exact List.mem_append_right _ (List.mem_singleton.mpr rfl)
    · exact ⟨Builder.block?_alloc_of_some (h.empty id hid).1, hold id (h.empty id hid).2⟩
  · intro id b hb hne hnot
    have hid : id ≠ s.later 0 := fun heq => hnot (List.mem_cons.mpr (.inl heq))
    rw [Builder.block?_alloc_of_ne hid] at hb
    exact h.closed hb hne fun hmem => hnot (List.mem_cons.mpr (.inr hmem))
  · intro id b hb target htarget
    by_cases hid : id = s.later 0
    · rw [hid, Builder.block?_alloc_self hnew] at hb
      rw [← Option.some.inj hb] at htarget
      cases htarget
    · rw [Builder.block?_alloc_of_ne hid] at hb
      exact hold target (h.succs hb target htarget)

/-- A change to the current block. -/
theorem modifyCurrent {f : Block → Block} (h : Sound waiting s)
    (hid : ∀ b, b.id = s.current → (f b).id = s.current)
    (hsuccs : ∀ b, s.At b → ∀ target ∈ (f b).succs, target ∈ s.ids.tail) :
    Sound waiting (s.modifyBlock s.current f) := by
  have hids : (s.modifyBlock s.current f).ids = s.ids := Builder.ids_modifyBlock hid
  have hother : ∀ {id}, id ≠ s.current → (s.modifyBlock s.current f).block? id = s.block? id := by
    intro id hne
    rw [Builder.block?_modifyBlock hid, if_neg hne]
  refine ⟨hids.symm ▸ h.nodup, ?_, hids.symm ▸ h.current, h.apart, ?_, ?_, ?_, ?_⟩
  · rw [Builder.Fresh, hids]
    exact h.fresh
  · intro id hmem
    have hne : id ≠ s.current := fun heq => (List.nodup_cons.mp h.apart).1 (heq ▸ hmem)
    rw [hother hne, hids]
    exact h.empty id hmem
  · intro id b hb hne hnot
    rw [hother hne] at hb
    exact h.closed hb hne hnot
  · rw [hids]
    intro id b hb
    by_cases heq : id = s.current
    · obtain ⟨c, hc⟩ := h.at_current
      rw [heq, Builder.block?_modifyBlock hid, if_pos rfl, hc] at hb
      rw [← Option.some.inj hb]
      exact hsuccs c hc
    · rw [hother heq] at hb
      exact h.succs hb
  · rw [hids]
    exact h.loops

theorem draw (h : Sound waiting s) : Sound waiting s.draw :=
  h.of_blocks_eq rfl rfl rfl s.supply.le_dropInstr

theorem emit {binding : Option String} {opcode : Opcode} {operands : List Operand} (h : Sound waiting s) :
    Sound waiting (s.emit binding opcode operands) :=
  h.draw.modifyCurrent (fun _ hid => hid) fun b hb target htarget => h.succs (b := b) hb target htarget

theorem linkCurrent {succs : List BlockId} (h : Sound waiting s)
    (hsuccs : ∀ target ∈ succs, target ∈ s.ids.tail) : Sound waiting (s.link s.current succs) :=
  h.modifyCurrent (fun _ hid => hid) fun _ _ => hsuccs

theorem replace {name : String} {value : Operand} {bound : Block} (h : Sound waiting s) (hat : s.At b)
    (hbound : b.bindLast? name value = some bound) : Sound waiting (s.replace bound) := by
  have hid : bound.id = s.current := (Block.bindLast?_id hbound).trans (Builder.block?_id hat)
  refine h.modifyCurrent (fun _ _ => hid) fun _ _ => ?_
  rw [Block.bindLast?_succs hbound]
  exact h.succs hat

/-- A block that waits is linked. -/
theorem linkWaiting {target : BlockId} (h : Sound (id :: waiting) s) (htarget : target ∈ s.ids.tail) :
    Sound waiting (s.link id [target]) := by
  have hapart := List.nodup_cons.mp h.apart
  have hid := List.nodup_cons.mp hapart.2
  have hcurrent : s.current ≠ id := fun heq => hapart.1 (List.mem_cons.mpr (.inl heq))
  refine ⟨by rw [Builder.ids_link]; exact h.nodup, ?_, by rw [Builder.ids_link]; exact h.current, ?_,
    ?_, ?_, ?_, ?_⟩
  · rw [Builder.Fresh, Builder.ids_link]
    exact h.fresh
  · exact List.nodup_cons.mpr ⟨fun hmem => hapart.1 (List.mem_cons.mpr (.inr hmem)), hid.2⟩
  · intro j hj
    have hne : j ≠ id := fun heq => hid.1 (heq ▸ hj)
    rw [Builder.block?_link, if_neg hne, Builder.ids_link]
    exact h.empty j (List.mem_cons.mpr (.inr hj))
  · intro j b hb hne hnot
    rw [Builder.block?_link] at hb
    split at hb
    · rw [(h.empty id (List.mem_cons.mpr (.inl rfl))).1] at hb
      rw [← Option.some.inj hb]
      exact .jump (Block.isOpen_empty id).straight
    · next hjid =>
      refine h.closed hb hne fun hmem => ?_
      exact (List.mem_cons.mp hmem).elim hjid hnot
  · intro j b hb
    rw [Builder.ids_link]
    rw [Builder.block?_link] at hb
    split at hb
    · rw [(h.empty id (List.mem_cons.mpr (.inl rfl))).1] at hb
      rw [← Option.some.inj hb]
      intro t ht
      rwa [List.mem_singleton.mp ht]
    · exact h.succs hb
  · rw [Builder.ids_link]
    exact h.loops

/-- A block that waits is entered once control has left the current one. -/
theorem enter (h : Sound (id :: waiting) s) (hclosed : s.IsClosed) :
    Sound waiting (s.enter id) ∧ (s.enter id).At (.empty id) := by
  have hapart := List.nodup_cons.mp h.apart
  obtain ⟨hempty, htail⟩ := h.empty id (List.mem_cons.mpr (.inl rfl))
  refine ⟨⟨h.nodup, h.fresh, List.mem_of_mem_tail htail, hapart.2,
    fun j hj => h.empty j (List.mem_cons.mpr (.inr hj)), ?_, h.succs, h.loops⟩, hempty⟩
  intro j b hb hne hnot
  by_cases hcurrent : j = s.current
  · obtain ⟨c, hc, hcclosed⟩ := hclosed
    have heq : b = c := by
      rw [Builder.block?_enter, hcurrent, hc] at hb
      exact (Option.some.inj hb).symm
    exact heq ▸ hcclosed
  · refine h.closed hb hcurrent fun hmem => ?_
    exact (List.mem_cons.mp hmem).elim hne hnot

end Sound

namespace Builder

variable {s : Builder} {target : BlockId}

theorem isOpen_of_empty {id : BlockId} (h : s.At (.empty id)) : s.IsOpen := ⟨_, h, Block.isOpen_empty id⟩

theorem IsOpen.emit {binding : Option String} {opcode : Opcode} {operands : List Operand} (h : s.IsOpen)
    (hplain : opcode.isPlain = true) : (s.emit binding opcode operands).IsOpen :=
  let ⟨_, hat, hopen⟩ := h
  ⟨_, At_emit hat, hopen.straight.concat hplain, hopen.succs⟩

theorem At_replace {b bound : Block} {name : String} {value : Operand} (hat : s.At b)
    (hbound : b.bindLast? name value = some bound) : (s.replace bound).At bound := by
  change (s.replace bound).block? s.current = _
  rw [block?_replace ((Block.bindLast?_id hbound).trans (block?_id hat)), if_pos rfl, hat]
  rfl

theorem IsOpen.replace {b bound : Block} {name : String} {value : Operand} (h : s.IsOpen) (hat : s.At b)
    (hbound : b.bindLast? name value = some bound) : (s.replace bound).IsOpen := by
  obtain ⟨c, hc, hopen⟩ := h
  obtain rfl : c = b := Option.some.inj (hc.symm.trans hat)
  refine ⟨bound, At_replace hat hbound, ?_, (Block.bindLast?_succs hbound).trans hopen.succs⟩
  obtain ⟨init, last, hinstrs, _, _, _, _, heq⟩ := Block.bindLast?_eq_some hbound
  have hstraight := hopen.straight
  rw [hinstrs] at hstraight
  rw [heq]
  refine ⟨fun i hi => ?_, fun i hi => ?_⟩
  · rcases List.mem_append.mp hi with hi | hi
    · exact hstraight.goesOn i (List.mem_append_left _ hi)
    · rw [List.mem_singleton.mp hi]
      exact hstraight.goesOn last (by simp)
  · cases init with
    | nil => cases hi
    | cons first rest =>
        rcases List.mem_append.mp hi with hi | hi
        · exact hstraight.phiFirst i (List.mem_append_left _ hi)
        · rw [List.mem_singleton.mp hi]
          exact hstraight.phiFirst last (by simp)

theorem IsOpen.link (h : s.IsOpen) : (s.link s.current [target]).IsClosed := by
  obtain ⟨b, hat, hstraight, _⟩ := h
  exact ⟨_, At_link hat, .jump hstraight⟩

theorem IsOpen.terminated (h : s.IsOpen) : s.terminated = false := by
  obtain ⟨b, hat, hopen⟩ := h
  rw [Builder.terminated, hat]
  exact hopen.isTerminated

theorem IsClosed.terminated (h : s.IsClosed) : s.terminated = true := by
  obtain ⟨b, hat, hclosed⟩ := h
  rw [Builder.terminated, hat]
  exact hclosed.isTerminated

theorem IsOpen.ret {value : Operand} (h : s.IsOpen) : (s.emit none .ret [value]).IsClosed := by
  obtain ⟨⟨id, instrs, succs⟩, hat, hstraight, rfl⟩ := h
  exact ⟨_, At_emit hat, .ret hstraight rfl⟩

end Builder

namespace Sound

variable {waiting : List BlockId} {s t : Builder} {target : BlockId}

theorem fallTo (h : Sound waiting s) (hs : s.IsOpen ∨ s.IsClosed) (htarget : target ∈ s.ids.tail) :
    Sound waiting (s.fallTo target) ∧ (s.fallTo target).IsClosed := by
  rw [Builder.fallTo]
  rcases hs with hopen | hclosed
  · rw [hopen.terminated]
    refine ⟨h.linkCurrent fun t ht => ?_, hopen.link⟩
    rwa [List.mem_singleton.mp ht]
  · rw [hclosed.terminated]
    exact ⟨h, hclosed⟩

theorem reopen (h : Sound waiting s) (hs : s.IsOpen ∨ s.IsClosed) :
    Sound waiting s.reopen ∧ s.reopen.IsOpen := by
  rw [Builder.reopen]
  rcases hs with hopen | ⟨b, hat, hb⟩
  · rw [hopen.terminated]
    exact ⟨h, hopen⟩
  · rw [Builder.IsClosed.terminated ⟨b, hat, hb⟩]
    obtain ⟨hsound, hempty⟩ := h.alloc.enter ⟨b, Builder.At_alloc hat, hb⟩
    exact ⟨hsound, Builder.isOpen_of_empty hempty⟩

theorem split {condition : Operand} (h : Sound waiting s) (hopen : s.IsOpen) :
    Sound (s.later 2 :: s.later 1 :: s.later 0 :: waiting) (s.split condition) ∧
      (s.split condition).IsClosed := by
  have hallocs : Sound (s.later 2 :: s.later 1 :: s.later 0 :: waiting)
      (s.emit none .branch [condition]).alloc.alloc.alloc := h.emit.alloc.alloc.alloc
  have hne : s.later 0 ≠ s.later 1 := by
    intro heq
    have hindex := congrArg BlockId.index heq
    simp [Builder.later] at hindex
  obtain ⟨⟨id, instrs, succs⟩, hat, hstraight, rfl⟩ := hopen
  refine ⟨hallocs.linkCurrent fun t ht => (hallocs.empty t ?_).2, ?_⟩
  · simp only [List.mem_cons, List.not_mem_nil, or_false] at ht ⊢
    tauto
  · exact ⟨_, Builder.At_link (Builder.At_alloc (Builder.At_alloc (Builder.At_alloc (Builder.At_emit hat)))),
      .branch hstraight rfl hne⟩

theorem openMerge {condition : Operand} {trueFirst : Bool} (h : Sound waiting s) (hopen : s.IsOpen) :
    Sound (s.otherArm trueFirst :: s.later 2 :: waiting) (s.openMerge condition trueFirst) ∧
      (s.openMerge condition trueFirst).At (.empty (s.firstArm trueFirst)) := by
  obtain ⟨hsplit, hclosed⟩ := Sound.split (s := s.draw) h.draw hopen
  have hphis := hsplit.of_blocks_eq
    (t := (s.draw.split condition).withPhis (s.phis.openPhi s.supply.nextInstr (s.later 2)))
    rfl rfl rfl (le_refl _)
  have hperm : List.Perm [s.later 2, s.later 1, s.later 0]
      [s.firstArm trueFirst, s.otherArm trueFirst, s.later 2] := by
    cases trueFirst with
    | true => exact List.reverse_perm [s.later 0, s.later 1, s.later 2]
    | false => exact (List.Perm.swap _ _ _).trans ((List.Perm.swap _ _ _).cons _)
  exact (hphis.perm (hperm.append_right waiting)).enter hclosed

theorem deliver {phi : InstrId} {join : BlockId} {entry : Phi.Entry} {value : Operand}
    (h : Sound waiting s) (hopen : s.IsOpen) (hjoin : join ∈ s.ids.tail) :
    Sound waiting (s.deliver phi join entry value) ∧ (s.deliver phi join entry value).IsClosed := by
  have hphis : Sound waiting
      (s.withPhis ⟨s.phis.entries.insert phi ⟨entry.block, entry.inputs ++ [⟨s.current, value⟩]⟩⟩) :=
    h.of_blocks_eq rfl rfl rfl (le_refl _)
  obtain ⟨⟨id, instrs, succs⟩, hat, hstraight, rfl⟩ := hopen
  refine ⟨hphis.emit.linkCurrent fun t ht => ?_, _, Builder.At_link (Builder.At_emit hat), .deliver hstraight rfl⟩
  rw [List.mem_singleton.mp ht, Builder.ids_emit]
  exact hjoin

theorem place {phi : InstrId} {join : BlockId} (h : Sound (join :: waiting) s) (hclosed : s.IsClosed) :
    Sound waiting (s.place phi join) ∧ (s.place phi join).IsOpen := by
  obtain ⟨henter, hat⟩ := h.enter hclosed
  refine ⟨henter.modifyCurrent (fun _ hid => hid) fun b hb => henter.succs (b := b) hb, ?_⟩
  refine ⟨_, Builder.At_place hat, ⟨fun i hi => ?_, fun i hi => nomatch hi⟩, rfl⟩
  rw [List.mem_singleton.mp hi]
  rfl

/-- From the first arm of a merge to the second. -/
theorem nextArm {phi : InstrId} {other join : BlockId} {entry : Phi.Entry} {value : Operand}
    (h : Sound (other :: join :: waiting) s) (hopen : s.IsOpen) :
    Sound (join :: waiting) ((s.deliver phi join entry value).enter other) ∧
      ((s.deliver phi join entry value).enter other).At (.empty other) := by
  obtain ⟨hdeliver, hclosed⟩ := h.deliver hopen (h.empty join (by simp)).2
  exact hdeliver.enter hclosed

theorem closeMerge {phi : InstrId} {join : BlockId} {entry : Phi.Entry} {value : Operand}
    (h : Sound (join :: waiting) s) (hopen : s.IsOpen) :
    Sound waiting ((s.deliver phi join entry value).place phi join) ∧
      ((s.deliver phi join entry value).place phi join).IsOpen := by
  obtain ⟨hdeliver, hclosed⟩ := h.deliver hopen (h.empty join (by simp)).2
  exact hdeliver.place hclosed

theorem openBranch {condition : Operand} (h : Sound waiting s) (hopen : s.IsOpen) :
    Sound (s.later 1 :: s.later 2 :: waiting) ((s.split condition).enter (s.later 0)) ∧
      ((s.split condition).enter (s.later 0)).At (.empty (s.later 0)) := by
  obtain ⟨hsplit, hclosed⟩ := h.split hopen
  have hperm := List.reverse_perm [s.later 0, s.later 1, s.later 2]
  exact (hsplit.perm (hperm.append_right waiting)).enter hclosed

/-- From an arm of a branch to the next block that waits. -/
theorem fallThenEnter {next join : BlockId} (h : Sound (next :: waiting) s) (hs : s.IsOpen ∨ s.IsClosed)
    (hjoin : join ∈ next :: waiting) :
    Sound waiting ((s.fallTo join).enter next) ∧ ((s.fallTo join).enter next).At (.empty next) := by
  obtain ⟨hfall, hclosed⟩ := h.fallTo hs (h.empty join hjoin).2
  exact hfall.enter hclosed

theorem openLoop {testFirst : Bool} (h : Sound waiting s) (hopen : s.IsOpen) :
    Sound (s.later 4 :: s.later 1 :: s.later 0 :: waiting) (s.openLoop testFirst) ∧
      (s.openLoop testFirst).At (.empty (s.later 3)) := by
  have hallocs : Sound (s.later 4 :: s.later 3 :: s.later 2 :: s.later 1 :: s.later 0 :: waiting)
      s.alloc.alloc.alloc.alloc.alloc := h.alloc.alloc.alloc.alloc.alloc
  have htail : ∀ id ∈ [s.later 4, s.later 3, s.later 2],
      id ∈ s.alloc.alloc.alloc.alloc.alloc.ids.tail := by
    intro id hid
    refine (hallocs.empty id ?_).2
    simp only [List.mem_cons, List.not_mem_nil, or_false] at hid ⊢
    tauto
  have hheader : Sound (s.later 4 :: s.later 3 :: s.later 2 :: s.later 1 :: s.later 0 :: waiting)
      (s.alloc.alloc.alloc.alloc.alloc.link s.current [s.later 2]) := by
    refine hallocs.linkCurrent fun t ht => htail t ?_
    rw [List.mem_singleton.mp ht]
    simp
  have hperm : List.Perm
      (s.later 4 :: s.later 3 :: s.later 2 :: s.later 1 :: s.later 0 :: waiting)
      (s.later 2 :: s.later 3 :: s.later 4 :: s.later 1 :: s.later 0 :: waiting) :=
    (List.reverse_perm [s.later 2, s.later 3, s.later 4]).append_right (s.later 1 :: s.later 0 :: waiting)
  have hlinked : Sound (s.later 3 :: s.later 4 :: s.later 1 :: s.later 0 :: waiting)
      ((s.alloc.alloc.alloc.alloc.alloc.link s.current [s.later 2]).link (s.later 2)
        [if testFirst then s.later 3 else s.later 4]) := by
    refine (hheader.perm hperm).linkWaiting ?_
    rw [Builder.ids_link]
    apply htail
    cases testFirst <;> simp
  have hclosed : ((s.alloc.alloc.alloc.alloc.alloc.link s.current [s.later 2]).link (s.later 2)
      [if testFirst then s.later 3 else s.later 4]).IsClosed := by
    obtain ⟨b, hat, hstraight, _⟩ := hopen
    have hcurrent : s.current ≠ s.later 2 := fun heq => h.fresh.later_notMem 2 (heq ▸ h.current)
    have hat' := Builder.At_alloc (Builder.At_alloc (Builder.At_alloc (Builder.At_alloc (Builder.At_alloc hat))))
    exact ⟨_, Builder.At_link_of_ne (Builder.At_link hat') hcurrent, .jump hstraight⟩
  exact hlinked.enter hclosed

theorem header_mem_tail {testFirst : Bool} (h : Sound waiting s) :
    s.later 2 ∈ (s.openLoop testFirst).ids.tail := by
  rw [Builder.ids_openLoop]
  simp only [List.append_assoc]
  rw [List.tail_append_of_ne_nil (List.ne_nil_of_mem h.current)]
  simp

theorem openBody {condition : Operand} {labels : List String} {body breakEntry continueEntry : BlockId}
    (h : Sound (body :: breakEntry :: continueEntry :: waiting) s) (hopen : s.IsOpen) :
    Sound (breakEntry :: continueEntry :: waiting)
        (s.openBody condition body breakEntry ⟨labels, continueEntry, continueEntry, [], breakEntry, []⟩) ∧
      (s.openBody condition body breakEntry ⟨labels, continueEntry, continueEntry, [], breakEntry, []⟩).At
        (.empty body) := by
  have hne : body ≠ breakEntry := by
    have hnodup := (List.nodup_cons.mp (List.nodup_cons.mp h.apart).2).1
    exact fun heq => hnodup (List.mem_cons.mpr (.inl heq))
  have hlinked : Sound (body :: breakEntry :: continueEntry :: waiting)
      ((s.emit none .branch [condition]).link s.current [body, breakEntry]) := by
    refine h.emit.linkCurrent fun t ht => ?_
    rw [Builder.ids_emit]
    refine (h.empty t ?_).2
    simp only [List.mem_cons, List.not_mem_nil, or_false] at ht ⊢
    tauto
  have hloops : Sound (body :: breakEntry :: continueEntry :: waiting)
      (((s.emit none .branch [condition]).link s.current [body, breakEntry]).withLoops
        (⟨labels, continueEntry, continueEntry, [], breakEntry, []⟩ :: s.loops)) := by
    refine hlinked.withLoops fun l hl => ?_
    rcases List.mem_cons.mp hl with rfl | hl
    · exact Loop.chainedIn_new labels continueEntry breakEntry
    · exact hlinked.loops l hl
  obtain ⟨⟨id, instrs, succs⟩, hat, hstraight, rfl⟩ := hopen
  exact hloops.enter ⟨_, Builder.At_link (Builder.At_emit hat), .branch hstraight rfl hne⟩

theorem openUpdate {frame : Loop} {outer : List Loop} (h : Sound (frame.waiting ++ waiting) s)
    (hs : s.IsOpen ∨ s.IsClosed) (hloops : s.loops = frame :: outer) :
    Sound (frame.breakTarget :: (frame.continues.getLast?.toList ++ waiting)) (s.openUpdate frame outer) ∧
      (s.openUpdate frame outer).At (.empty frame.continueEntry) := by
  have houter : Sound (frame.waiting ++ waiting) (s.withLoops outer) :=
    h.withLoops fun l hl => h.loops l (hloops ▸ List.mem_cons_of_mem frame hl)
  have hentry : frame.continueEntry ∈ s.ids.tail := (h.empty _ (by simp [Loop.waiting])).2
  obtain ⟨hfall, hclosed⟩ := houter.fallTo hs hentry
  exact (hfall.perm (List.Perm.swap _ _ _)).enter hclosed

theorem closeContinues {frame : Loop} {header : BlockId}
    (h : Sound (frame.continues.getLast?.toList ++ waiting) s) (hopen : s.IsOpen)
    (hheader : header ∈ s.ids.tail) (hcontinues : frame.ChainedIn s.ids.tail) :
    Sound waiting (s.closeContinues frame header) ∧ (s.closeContinues frame header).IsClosed := by
  rw [Builder.closeContinues]
  cases hframe : frame.continues with
  | nil =>
      rw [hframe] at h
      refine ⟨h.linkCurrent fun t ht => ?_, hopen.link⟩
      rwa [List.mem_singleton.mp ht]
  | cons first rest =>
      rw [hcontinues.chained.getLast?_continues (by simp [hframe])] at h
      have hne : s.current ≠ frame.continueTarget := fun heq =>
        (List.nodup_cons.mp h.apart).1 (List.mem_cons.mpr (.inl heq))
      have hfirst : Sound (frame.continueTarget :: waiting) (s.link s.current [first]) := by
        refine h.linkCurrent fun t ht => hcontinues.mem t ?_
        rw [List.mem_singleton.mp ht, hframe]
        exact List.mem_cons_self
      obtain ⟨b, hat, hstraight, _⟩ := hopen
      refine ⟨hfirst.linkWaiting (by rwa [Builder.ids_link]), { b with succs := [first] }, ?_, .jump hstraight⟩
      exact Builder.At_link_of_ne (Builder.At_link hat) hne

theorem closeLoop {frame : Loop} {header : BlockId}
    (h : Sound (frame.breakTarget :: (frame.continues.getLast?.toList ++ waiting)) s) (hopen : s.IsOpen)
    (hheader : header ∈ s.ids.tail) (hcontinues : frame.ChainedIn s.ids.tail) :
    Sound waiting (s.closeLoop frame header) ∧
      (s.closeLoop frame header).At (.empty ((s.closeContinues frame header).later 0)) := by
  obtain ⟨hclosed, b, hat, hb⟩ := (h.perm List.perm_middle.symm).closeContinues hopen hheader hcontinues
  have halloc := hclosed.alloc.perm (List.Perm.swap _ _ _)
  have hnew := (halloc.empty ((s.closeContinues frame header).later 0) (by simp)).2
  have hne : (s.closeContinues frame header).current ≠ frame.breakTarget := fun heq =>
    (List.nodup_cons.mp halloc.apart).1 (List.mem_cons.mpr (.inl heq))
  exact (halloc.linkWaiting hnew).enter ⟨b, Builder.At_link_of_ne (Builder.At_alloc hat) hne, hb⟩

/-- The end of a chain is linked, where a jump does that at once. -/
theorem linkChain {once : Bool} {chainEnd : BlockId}
    (h : Sound (target :: ((if once then [chainEnd] else []) ++ waiting)) s) (hclosed : s.IsClosed) :
    Sound (target :: waiting) (if once then s.link chainEnd [target] else s) ∧
      (if once then s.link chainEnd [target] else s).IsClosed := by
  cases once with
  | false => exact ⟨h, hclosed⟩
  | true =>
      have hswap := h.perm (List.Perm.swap _ _ _)
      have hne : s.current ≠ chainEnd := fun heq =>
        (List.nodup_cons.mp hswap.apart).1 (List.mem_cons.mpr (.inl heq))
      obtain ⟨b, hat, hb⟩ := hclosed
      exact ⟨hswap.linkWaiting (h.empty _ List.mem_cons_self).2, b, Builder.At_link_of_ne hat hne, hb⟩

theorem jumpTo {kind : Jump} {inner outer : List Loop} {frame : Loop} {pending : List BlockId}
    (h : Sound (pending ++ s.loopsWaiting) s) (hopen : s.IsOpen)
    (hloops : s.loops = inner ++ frame :: outer) :
    Sound (pending ++ (s.jumpTo kind inner frame outer).loopsWaiting) (s.jumpTo kind inner frame outer) ∧
      (s.jumpTo kind inner frame outer).IsClosed := by
  have hframe : frame.ChainedIn s.ids.tail := h.loops frame (by simp [hloops])
  obtain ⟨rest, hbefore, hafter⟩ := hframe.chained.waiting_extend kind (s.later 0)
  -- What waits besides the blocks of this chain is left alone.
  have hsplit : ∀ w : List BlockId,
      (pending ++ (inner.flatMap Loop.waiting ++ (w ++ outer.flatMap Loop.waiting))).Perm
        (w ++ (pending ++ (inner.flatMap Loop.waiting ++ outer.flatMap Loop.waiting))) := by
    intro w
    rw [← List.append_assoc, ← List.append_assoc, ← List.append_assoc, ← List.append_assoc]
    refine List.Perm.append_right _ ?_
    rw [List.append_assoc w]
    exact List.perm_append_comm
  generalize hothers : rest ++ (pending ++ (inner.flatMap Loop.waiting ++ outer.flatMap Loop.waiting)) = others
  have hwaiting : (pending ++ s.loopsWaiting).Perm
      ((if frame.linksAtOnce kind then [frame.chainEnd kind] else []) ++ others) := by
    rw [Builder.loopsWaiting, hloops, List.flatMap_append, List.flatMap_cons, ← hothers]
    have hperm := (hsplit _).trans (hbefore.append_right _)
    rwa [List.append_assoc] at hperm
  have hwaiting' : (s.later 0 :: others).Perm
      (pending ++ (s.jumpTo kind inner frame outer).loopsWaiting) := by
    rw [Builder.loopsWaiting, Builder.loops_jumpTo, List.flatMap_append, List.flatMap_cons, ← hothers]
    exact ((hsplit _).trans (hafter.append_right _)).symm
  have halloc := (h.perm hwaiting).alloc
  have hlinked : Sound
      (s.later 0 :: ((if frame.linksAtOnce kind then [frame.chainEnd kind] else []) ++ others))
      (s.alloc.link s.current [s.later 0]) := by
    refine halloc.linkCurrent fun t ht => (halloc.empty t ?_).2
    rw [List.mem_singleton.mp ht]
    exact List.mem_cons_self
  obtain ⟨b, hat, hstraight, _⟩ := hopen
  obtain ⟨hchained, hclosed⟩ := hlinked.linkChain ⟨_, Builder.At_link (Builder.At_alloc hat), .jump hstraight⟩
  refine ⟨(hchained.withLoops fun l hl => ?_).perm hwaiting', hclosed⟩
  have hnew := (hchained.empty _ List.mem_cons_self).2
  have hold : ∀ l ∈ inner ++ frame :: outer, l.ChainedIn _ :=
    fun l hl => hchained.loops l (by rw [← hloops] at hl; split <;> exact hl)
  rcases List.mem_append.mp hl with hl | hl
  · exact hold l (List.mem_append_left _ hl)
  · rcases List.mem_cons.mp hl with rfl | hl
    · exact (hold frame (by simp)).extend kind hnew
    · exact hold l (by simp [hl])

end Sound

theorem Builder.loopsWaiting_enter {s : Builder} {id : BlockId} : (s.enter id).loopsWaiting = s.loopsWaiting :=
  rfl

theorem Builder.loopsWaiting_fallTo {s : Builder} {target : BlockId} :
    (s.fallTo target).loopsWaiting = s.loopsWaiting := by
  rw [loopsWaiting, loops_fallTo, loopsWaiting]

theorem Builder.loopsWaiting_closeLoop {s : Builder} {frame : Loop} {header : BlockId} :
    (s.closeLoop frame header).loopsWaiting = s.loopsWaiting := by
  rw [loopsWaiting, loops_closeLoop, loopsWaiting]

theorem Builder.loopsWaiting_reopen {s : Builder} : s.reopen.loopsWaiting = s.loopsWaiting := by
  rw [loopsWaiting, loops_reopen, loopsWaiting]

inductive Stage where
  | code
  | flow

/-- What the stage asks of the current block. -/
def Stage.Fits : Stage → Builder → Prop
  | code, s => s.IsOpen
  | flow, s => s.IsOpen ∨ s.IsClosed

/-- A builder in which lowering can go on. -/
def Stage.Ready (k : Stage) (s : Builder) : Prop :=
  k.Fits s ∧ ∃ pending, Sound (pending ++ s.loopsWaiting) s

theorem Stage.Ready.flow {s : Builder} (h : Stage.code.Ready s) : Stage.flow.Ready s :=
  ⟨.inl h.1, h.2⟩

/-- Lowering from `s` to `t` keeps the blocks in order: what waited for others still does, and what the
lowering itself made wait it has entered or linked. -/
structure Keeps (k : Stage) (s t : Builder) : Prop where
  sound : ∀ {pending : List BlockId}, Sound (pending ++ s.loopsWaiting) s → k.Fits s →
    Sound (pending ++ t.loopsWaiting) t ∧ k.Fits t
  mem_tail : ∀ {id}, id ∈ s.ids.tail → id ∈ t.ids.tail

theorem Keeps.ready {k : Stage} {s t : Builder} (h : Keeps k s t) (hs : k.Ready s) : k.Ready t := by
  obtain ⟨hfits, pending, hsound⟩ := hs
  obtain ⟨hsound', hfits'⟩ := h.sound hsound hfits
  exact ⟨hfits', pending, hsound'⟩

/-! A merge, a branch and a loop, from part to part. -/

namespace Sound

variable {pending : List BlockId} {s s₁ s₂ s₃ : Builder}

theorem firstArm {condition : Operand} {trueFirst : Bool} (h : Sound (pending ++ s.loopsWaiting) s)
    (hopen : s.IsOpen) (hfirst : Keeps .code (s.openMerge condition trueFirst) s₁) :
    Sound (s.otherArm trueFirst :: s.later 2 :: (pending ++ s₁.loopsWaiting)) s₁ ∧ s₁.IsOpen := by
  obtain ⟨hsound, hat⟩ := h.openMerge hopen
  exact @Keeps.sound _ _ _ hfirst (_ :: _ :: pending) hsound (Builder.isOpen_of_empty hat)

theorem secondArm {phi : InstrId} {other join : BlockId} {entry : Phi.Entry} {value : Operand}
    (h : Sound (other :: join :: (pending ++ s₁.loopsWaiting)) s₁) (hopen : s₁.IsOpen)
    (hsecond : Keeps .code ((s₁.deliver phi join entry value).enter other) s₂) :
    Sound (join :: (pending ++ s₂.loopsWaiting)) s₂ ∧ s₂.IsOpen := by
  obtain ⟨hsound, hat⟩ := h.nextArm hopen
  exact @Keeps.sound _ _ _ hsecond (_ :: pending) hsound (Builder.isOpen_of_empty hat)

theorem consequent {condition : Operand} (h : Sound (pending ++ s.loopsWaiting) s) (hopen : s.IsOpen)
    (hconsequent : Keeps .flow ((s.split condition).enter (s.later 0)) s₁) :
    Sound (s.later 1 :: s.later 2 :: (pending ++ s₁.loopsWaiting)) s₁ ∧ (s₁.IsOpen ∨ s₁.IsClosed) := by
  obtain ⟨hsound, hat⟩ := h.openBranch hopen
  exact @Keeps.sound _ _ _ hconsequent (_ :: _ :: pending) hsound (.inl (Builder.isOpen_of_empty hat))

theorem alternate {other join : BlockId} (h : Sound (other :: join :: (pending ++ s₁.loopsWaiting)) s₁)
    (hs : s₁.IsOpen ∨ s₁.IsClosed) (halternate : Keeps .flow ((s₁.fallTo join).enter other) s₂) :
    Sound (join :: (pending ++ s₂.loopsWaiting)) s₂ ∧ (s₂.IsOpen ∨ s₂.IsClosed) := by
  obtain ⟨hsound, hat⟩ := h.fallThenEnter hs (List.mem_cons_of_mem _ List.mem_cons_self)
  rw [← Builder.loopsWaiting_fallTo] at hsound
  exact @Keeps.sound _ _ _ halternate (_ :: pending) hsound (.inl (Builder.isOpen_of_empty hat))

theorem loopTest {testFirst : Bool} (h : Sound (pending ++ s.loopsWaiting) s) (hopen : s.IsOpen)
    (htest : Keeps .code (s.openLoop testFirst) s₁) :
    Sound (s.later 4 :: s.later 1 :: s.later 0 :: (pending ++ s₁.loopsWaiting)) s₁ ∧ s₁.IsOpen := by
  obtain ⟨hsound, hat⟩ := h.openLoop hopen
  exact @Keeps.sound _ _ _ htest (_ :: _ :: _ :: pending) hsound (Builder.isOpen_of_empty hat)

/-- In the body the two blocks wait as those of the innermost loop. -/
theorem loopBody {condition : Operand} {labels : List String} {body breakEntry continueEntry : BlockId}
    (h : Sound (body :: breakEntry :: continueEntry :: (pending ++ s.loopsWaiting)) s) (hopen : s.IsOpen) :
    Sound (pending ++
        (s.openBody condition body breakEntry ⟨labels, continueEntry, continueEntry, [], breakEntry, []⟩).loopsWaiting)
      (s.openBody condition body breakEntry ⟨labels, continueEntry, continueEntry, [], breakEntry, []⟩) ∧
    (s.openBody condition body breakEntry ⟨labels, continueEntry, continueEntry, [], breakEntry, []⟩).At
      (.empty body) := by
  obtain ⟨hsound, hat⟩ := h.openBody hopen
  exact ⟨hsound.perm (List.perm_append_comm_assoc [breakEntry, continueEntry] pending s.loopsWaiting), hat⟩

theorem loopUpdate {frame : Loop} {outer : List Loop} (h : Sound (pending ++ s.loopsWaiting) s)
    (hs : s.IsOpen ∨ s.IsClosed) (hloops : s.loops = frame :: outer) :
    Sound (frame.breakTarget :: (frame.continues.getLast?.toList ++ pending) ++
        (s.openUpdate frame outer).loopsWaiting) (s.openUpdate frame outer) ∧
      (s.openUpdate frame outer).At (.empty frame.continueEntry) := by
  rw [Builder.loopsWaiting, hloops, List.flatMap_cons] at h
  have hpop := h.perm (List.perm_append_comm_assoc pending frame.waiting (outer.flatMap Loop.waiting))
  obtain ⟨hsound, hat⟩ := hpop.openUpdate hs hloops
  refine ⟨?_, hat⟩
  rw [Builder.loopsWaiting, Builder.loops_openUpdate, List.cons_append, List.append_assoc]
  exact hsound

end Sound

/-- What is known of the end of a loop's update code. -/
structure LoopEnd (frame : Loop) (header : BlockId) (pending : List BlockId) (s : Builder) : Prop where
  sound : Sound (frame.breakTarget :: (frame.continues.getLast?.toList ++ (pending ++ s.loopsWaiting))) s
  isOpen : s.IsOpen
  header : header ∈ s.ids.tail
  continues : frame.ChainedIn s.ids.tail

namespace Sound

variable {pending : List BlockId} {s s₁ s₂ s₃ : Builder}

theorem loopEnd {testFirst : Bool} {condition : Operand} {labels : List String} {frame : Loop} {outer : List Loop}
    (h : Sound (pending ++ s.loopsWaiting) s) (hopen : s.IsOpen)
    (htest : Keeps .code (s.openLoop testFirst) s₁)
    (hbody : Keeps .flow
      (s₁.openBody condition (s.later 4) (s.later 1) ⟨labels, s.later 0, s.later 0, [], s.later 1, []⟩) s₂)
    (hloops : s₂.loops = frame :: outer) (hupdate : Keeps .code (s₂.openUpdate frame outer) s₃) :
    LoopEnd frame (s.later 2) pending s₃ := by
  obtain ⟨hsound₁, hopen₁⟩ := h.loopTest hopen htest
  obtain ⟨hsound₁', hat₁⟩ := @loopBody _ _ condition labels _ _ _ hsound₁ hopen₁
  obtain ⟨hsound₂, hfits₂⟩ := hbody.sound hsound₁' (.inl (Builder.isOpen_of_empty hat₁))
  obtain ⟨hsound₂', hat₂⟩ := hsound₂.loopUpdate hfits₂ hloops
  obtain ⟨hsound₃, hopen₃⟩ := hupdate.sound hsound₂' (Builder.isOpen_of_empty hat₂)
  refine ⟨?_, hopen₃, ?_, (hsound₂.loops frame (hloops ▸ List.mem_cons_self)).mono fun id hid => ?_⟩
  · rwa [List.cons_append, List.append_assoc] at hsound₃
  · apply hupdate.mem_tail
    rw [Builder.ids_openUpdate]
    apply hbody.mem_tail
    rw [Builder.ids_openBody]
    exact htest.mem_tail h.header_mem_tail
  · apply hupdate.mem_tail
    rwa [Builder.ids_openUpdate]

/-- The end of a jump's chain is empty, where the jump links it at once. -/
theorem chainEnd_empty {kind : Jump} {inner outer : List Loop} {frame : Loop}
    (h : Sound (pending ++ s.loopsWaiting) s) (hloops : s.loops = inner ++ frame :: outer)
    (honce : frame.linksAtOnce kind = true) :
    (s.alloc.link s.current [s.later 0]).block? (frame.chainEnd kind) =
      some (.empty (frame.chainEnd kind)) := by
  have hframe : frame.ChainedIn s.ids.tail := h.loops frame (by simp [hloops])
  have hwaits : frame.chainEnd kind ∈ pending ++ s.loopsWaiting := by
    rw [Builder.loopsWaiting, hloops, List.mem_append, List.mem_flatMap]
    exact .inr ⟨frame, by simp, hframe.chained.chainEnd_mem_waiting honce⟩
  have hcurrent : frame.chainEnd kind ≠ s.current := fun heq =>
    (List.nodup_cons.mp h.apart).1 (heq ▸ hwaits)
  rw [Builder.block?_link, if_neg hcurrent]
  exact Builder.block?_alloc_of_some (h.empty _ hwaits).1

end Sound

namespace LoopEnd

variable {pending : List BlockId} {s : Builder} {frame : Loop} {header : BlockId}

theorem closeContinues (h : LoopEnd frame header pending s) :
    Sound (frame.breakTarget :: (pending ++ s.loopsWaiting)) (s.closeContinues frame header) ∧
      (s.closeContinues frame header).IsClosed :=
  (h.sound.perm List.perm_middle.symm).closeContinues h.isOpen h.header h.continues

theorem closeLoop (h : LoopEnd frame header pending s) :
    Sound (pending ++ s.loopsWaiting) (s.closeLoop frame header) ∧
      (s.closeLoop frame header).At (.empty ((s.closeContinues frame header).later 0)) :=
  h.sound.closeLoop h.isOpen h.header h.continues

/-- The chain of continues ends in an empty block. -/
theorem continueTarget_empty (h : LoopEnd frame header pending s) (hne : frame.continues ≠ []) {first : BlockId} :
    (s.link s.current [first]).block? frame.continueTarget = some (.empty frame.continueTarget) := by
  have hsound := h.sound
  rw [h.continues.chained.getLast?_continues hne] at hsound
  have hwaits : frame.continueTarget ∈
      frame.breakTarget :: ((some frame.continueTarget).toList ++ (pending ++ s.loopsWaiting)) := by simp
  have hcurrent : frame.continueTarget ≠ s.current := fun heq =>
    (List.nodup_cons.mp hsound.apart).1 (heq ▸ hwaits)
  rw [Builder.block?_link, if_neg hcurrent]
  exact (hsound.empty _ hwaits).1

/-- The chain of breaks ends in an empty block. -/
theorem breakTarget_empty (h : LoopEnd frame header pending s) :
    (s.closeContinues frame header).alloc.block? frame.breakTarget = some (.empty frame.breakTarget) :=
  Builder.block?_alloc_of_some (h.closeContinues.1.empty _ List.mem_cons_self).1

end LoopEnd

/-- A nested function starts with its entry block alone. -/
theorem Builder.sound_nested (s : Builder) : Sound [] s.nested ∧ s.nested.At (.empty s.supply.nextBlock) := by
  have hids : s.nested.ids = [s.supply.nextBlock] := rfl
  have hat : s.nested.At (.empty s.supply.nextBlock) := by
    simp [At, nested, block?, Block.empty]
  refine ⟨⟨?_, ?_, ?_, List.nodup_singleton _, fun _ h => absurd h List.not_mem_nil, ?_, ?_,
    fun _ h => absurd h List.not_mem_nil⟩, hat⟩
  · rw [hids]
    exact List.nodup_singleton _
  · intro id hid
    rw [hids, List.mem_singleton] at hid
    rw [hid]
    exact Nat.lt_succ_self _
  · rw [hids]
    exact List.mem_singleton.mpr rfl
  · intro id b hb hne _
    have hid := mem_ids_of_block? hb
    rw [hids, List.mem_singleton] at hid
    exact absurd hid hne
  · intro id b hb target htarget
    have hid := mem_ids_of_block? hb
    rw [hids, List.mem_singleton] at hid
    have heq : b = .empty s.supply.nextBlock := by
      rw [hid] at hb
      exact Option.some.inj (hb.symm.trans hat)
    rw [heq] at htarget
    cases htarget

theorem Builder.ready_nested (s : Builder) : Stage.code.Ready s.nested :=
  ⟨isOpen_of_empty s.sound_nested.2, [], s.sound_nested.1⟩

end ScriptSsa
