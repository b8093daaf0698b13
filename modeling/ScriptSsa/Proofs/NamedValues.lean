import Mathlib.Data.Set.Insert
import ScriptSsa.Proofs.LoweringSteps
import ScriptSsa.Proofs.OpenEnds
import ScriptSsa.Proofs.Trace

/-!
Values with a name and values with an id.

The value of an instruction is referred to by the instruction's id, or, once the instruction is bound, by the name
of the variable; never by both. While code is built, some values are held: they have been produced and will be
referred to by id. `Builder.NamesApart` says that no bound instruction is held or has been referred to. It survives
because a value is bound at once or never: only the last instruction of the current block takes a binding, and
nothing has referred to that one yet.
-/

namespace ScriptSsa

open Build

/-- The id by which an operand refers to an instruction. -/
def Operand.ids (o : Operand) : Set InstrId := {id | o = .instr id}

/-- The ids by which operands refer to instructions. -/
def idsOf (os : List Operand) : Set InstrId := {id | .instr id ∈ os}

theorem idsOf_nil_subset {held : Set InstrId} : idsOf [] ⊆ held := fun _ h => nomatch h

theorem idsOf_cons_subset {o : Operand} {os : List Operand} {held : Set InstrId} (ho : o.ids ⊆ held)
    (hos : idsOf os ⊆ held) : idsOf (o :: os) ⊆ held := by
  intro id hid
  rcases List.mem_cons.mp hid with hid | hid
  · exact ho hid.symm
  · exact hos hid

theorem idsOf_subset_iff {os : List Operand} {held : Set InstrId} : idsOf os ⊆ held ↔ ∀ o ∈ os, o.ids ⊆ held := by
  constructor
  · intro h o ho id hid
    exact h (hid ▸ ho : Operand.instr id ∈ os)
  · intro h id hid
    exact h _ hid rfl

namespace Builder

/-- The instructions of the graph under construction. -/
def instrs (s : Builder) : List Instr := s.blocks.flatMap Block.instrs

/-- The ids by which its instructions refer to others. -/
def refs (s : Builder) : Set InstrId := {id | ∃ i ∈ s.instrs, .instr id ∈ i.operands}

/-- Bound instructions are apart from those that are referred to by id, now or later: the ids in `held` are still to
be used. -/
structure NamesApart (s : Builder) (held : Set InstrId) : Prop where
  drawn : ∀ i ∈ s.instrs, i.id ∈ s.supply.drawn
  refs_drawn : s.refs ⊆ s.supply.drawn
  held_drawn : held ⊆ s.supply.drawn
  bound : ∀ i ∈ s.instrs, i.binding ≠ none →
    i.opcode.yieldsValue = true ∧ i.opcode ≠ .phi ∧ i.id ∉ s.refs ∧ i.id ∉ held
  /-- Nothing has referred to an instruction that ends a block, and only the last one of the current block may still
  be waited for. Phis are never bound, so they do not count. -/
  last : ∀ b ∈ s.blocks, ∀ l ∈ b.instrs.getLast?, l.opcode ≠ .phi →
    l.id ∉ s.refs ∧ (l.id ∈ held → b.id = s.current)

variable {s t : Builder} {held held' : Set InstrId}

theorem mem_instrs_of_getLast? {b : Block} {l : Instr} (hb : b ∈ s.blocks) (hl : l ∈ b.instrs.getLast?) :
    l ∈ s.instrs :=
  List.mem_flatMap.mpr ⟨b, hb, List.mem_of_getLast? hl⟩

theorem mem_blocks_modifyBlock {id : BlockId} {f : Block → Block} {c : Block} (h : c ∈ (s.modifyBlock id f).blocks) :
    c ∈ s.blocks ∧ c.id ≠ id ∨ ∃ b ∈ s.blocks, b.id = id ∧ c = f b := by
  obtain ⟨b, hb, rfl⟩ := List.mem_map.mp h
  split
  · next hid => exact .inr ⟨b, hb, hid, rfl⟩
  · next hid => exact .inl ⟨hb, hid⟩

theorem mem_instrs_emit {binding : Option String} {opcode : Opcode} {operands : List Operand} {i : Instr}
    (h : i ∈ (s.emit binding opcode operands).instrs) :
    i ∈ s.instrs ∨ i = ⟨s.supply.nextInstr, opcode, operands, binding⟩ := by
  obtain ⟨c, hc, hi⟩ := List.mem_flatMap.mp h
  rcases mem_blocks_modifyBlock hc with ⟨hc, _⟩ | ⟨b, hb, _, rfl⟩
  · exact .inl (List.mem_flatMap.mpr ⟨c, hc, hi⟩)
  · rcases List.mem_append.mp hi with hi | hi
    · exact .inl (List.mem_flatMap.mpr ⟨b, hb, hi⟩)
    · exact .inr (List.mem_singleton.mp hi)

/-- A block ends as before, or it is the current one and ends in the new instruction. -/
theorem getLast?_emit {binding : Option String} {opcode : Opcode} {operands : List Operand} {c : Block} {l : Instr}
    (hc : c ∈ (s.emit binding opcode operands).blocks) (hl : l ∈ c.instrs.getLast?) :
    c ∈ s.blocks ∧ c.id ≠ s.current ∨
      c.id = s.current ∧ l = ⟨s.supply.nextInstr, opcode, operands, binding⟩ := by
  rcases mem_blocks_modifyBlock hc with hc | ⟨b, _, hid, rfl⟩
  · exact .inl hc
  · rw [List.getLast?_concat, Option.mem_some_iff] at hl
    exact .inr ⟨hid, hl.symm⟩

theorem mem_instrs_replace {b : Block} {i : Instr} (h : i ∈ (s.replace b).instrs) : i ∈ s.instrs ∨ i ∈ b.instrs := by
  obtain ⟨c, hc, hi⟩ := List.mem_flatMap.mp h
  rcases mem_blocks_modifyBlock hc with ⟨hc, _⟩ | ⟨_, _, _, rfl⟩
  · exact .inl (List.mem_flatMap.mpr ⟨c, hc, hi⟩)
  · exact .inr hi

namespace NamesApart

theorem mono (h : s.NamesApart held) (hsub : held' ⊆ held) : s.NamesApart held' where
  drawn := h.drawn
  refs_drawn := h.refs_drawn
  held_drawn := hsub.trans h.held_drawn
  bound i hi hbinding := by
    obtain ⟨hyields, hphi, hrefs, hheld⟩ := h.bound i hi hbinding
    exact ⟨hyields, hphi, hrefs, fun hmem => hheld (hsub hmem)⟩
  last b hb l hl hphi := (h.last b hb l hl hphi).imp_right fun hcurrent hmem => hcurrent (hsub hmem)

theorem nextInstr_notMem (h : s.NamesApart held) : s.supply.nextInstr ∉ held ∧ s.supply.nextInstr ∉ s.refs :=
  ⟨fun hmem => Nat.lt_irrefl _ (h.held_drawn hmem), fun hmem => Nat.lt_irrefl _ (h.refs_drawn hmem)⟩

theorem id_ne_nextInstr (h : s.NamesApart held) {i : Instr} (hi : i ∈ s.instrs) : i.id ≠ s.supply.nextInstr :=
  fun heq => Nat.lt_irrefl _ (heq ▸ h.drawn i hi : s.supply.nextInstr ∈ s.supply.drawn)

/-- The same instructions, and every block with code ends as one did before. -/
theorem of_instrs_eq (h : s.NamesApart held) (hinstrs : t.instrs = s.instrs) (hcurrent : t.current = s.current)
    (hsupply : s.supply ≤ t.supply)
    (hlast : ∀ b ∈ t.blocks, ∀ l ∈ b.instrs.getLast?, ∃ c ∈ s.blocks, c.id = b.id ∧ l ∈ c.instrs.getLast?) :
    t.NamesApart held := by
  have hrefs : t.refs = s.refs := by rw [refs, hinstrs, refs]
  have hdrawn := Supply.drawn_mono hsupply
  refine ⟨?_, ?_, h.held_drawn.trans hdrawn, ?_, fun b hb l hl hphi => ?_⟩
  · rw [hinstrs]
    exact fun i hi => hdrawn (h.drawn i hi)
  · rw [hrefs]
    exact h.refs_drawn.trans hdrawn
  · rw [hinstrs, hrefs]
    exact h.bound
  · obtain ⟨c, hc, hid, hl⟩ := hlast b hb l hl
    rw [hrefs, hcurrent, ← hid]
    exact h.last c hc l hl hphi

/-- The same blocks, and more ids drawn. -/
theorem of_blocks_eq (h : s.NamesApart held) (hblocks : t.blocks = s.blocks) (hcurrent : t.current = s.current)
    (hsupply : s.supply ≤ t.supply) : t.NamesApart held :=
  h.of_instrs_eq (congrArg (List.flatMap Block.instrs) hblocks) hcurrent hsupply
    fun b hb _ hl => ⟨b, hblocks ▸ hb, rfl, hl⟩

theorem draw (h : s.NamesApart held) : s.draw.NamesApart held := h.of_blocks_eq rfl rfl (Supply.le_dropInstr _)

theorem alloc (h : s.NamesApart held) : s.alloc.NamesApart held := by
  refine h.of_instrs_eq (by simp [instrs, Builder.alloc, Block.empty]) rfl (Supply.le_dropBlock _) fun b hb l hl => ?_
  rcases List.mem_append.mp hb with hb | hb
  · exact ⟨b, hb, rfl, hl⟩
  · rw [List.mem_singleton.mp hb] at hl
    cases hl

theorem link (h : s.NamesApart held) (id : BlockId) (succs : List BlockId) : (s.link id succs).NamesApart held := by
  refine h.of_instrs_eq (flatMap_modifyBlock fun _ _ _ => rfl) rfl (le_refl _) fun b hb l hl => ?_
  rcases mem_blocks_modifyBlock hb with ⟨hb, _⟩ | ⟨c, hc, _, rfl⟩
  · exact ⟨b, hb, rfl, hl⟩
  · exact ⟨c, hc, rfl, hl⟩

/-- With nothing held, it does not matter which block is the current one. -/
theorem enter (h : s.NamesApart ∅) (id : BlockId) : (s.enter id).NamesApart ∅ where
  drawn := h.drawn
  refs_drawn := h.refs_drawn
  held_drawn := h.held_drawn
  bound := h.bound
  last b hb _ hl hphi := (h.last b hb _ hl hphi).imp_right fun _ hmem => nomatch hmem

/-- An id that is drawn ahead of its instruction. -/
theorem draw_hold (h : s.NamesApart held) : s.draw.NamesApart (insert s.supply.nextInstr held) := by
  refine ⟨h.draw.drawn, h.draw.refs_drawn, ?_, fun i hi hbinding => ?_, fun b hb l hl hphi => ?_⟩
  · exact Set.insert_subset (Nat.lt_succ_self _) h.draw.held_drawn
  · obtain ⟨hyields, hphi, hrefs, hheld⟩ := h.bound i hi hbinding
    exact ⟨hyields, hphi, hrefs, fun hmem => hmem.elim (h.id_ne_nextInstr hi) hheld⟩
  · obtain ⟨hrefs, hcurrent⟩ := h.last b hb l hl hphi
    refine ⟨hrefs, fun hmem => hmem.elim (fun heq => ?_) hcurrent⟩
    exact absurd heq (h.id_ne_nextInstr (mem_instrs_of_getLast? hb hl))

variable {binding : Option String} {opcode : Opcode} {operands : List Operand}

theorem refs_emit_subset : (s.emit binding opcode operands).refs ⊆ s.refs ∪ idsOf operands := by
  rintro id ⟨i, hi, hid⟩
  rcases mem_instrs_emit hi with hi | rfl
  · exact .inl ⟨i, hi, hid⟩
  · exact .inr hid

/-- What is held does not end any block once another instruction has been added to the current one, so that any block
may be entered. -/
theorem emit_enter (h : s.NamesApart held) (hoperands : idsOf operands ⊆ held)
    (hbinding : binding ≠ none → opcode.yieldsValue = true ∧ opcode ≠ .phi) (id : BlockId) :
    ((s.emit binding opcode operands).enter id).NamesApart held := by
  have hdrawn : s.supply.drawn ⊆ s.supply.dropInstr.drawn := Supply.drawn_mono (Supply.le_dropInstr _)
  have hrefs : (s.emit binding opcode operands).refs ⊆ s.refs ∪ held :=
    refs_emit_subset.trans (Set.union_subset_union_right _ hoperands)
  have hnext : s.supply.nextInstr ∉ (s.emit binding opcode operands).refs :=
    fun hmem => (hrefs hmem).elim h.nextInstr_notMem.2 h.nextInstr_notMem.1
  refine ⟨fun i hi => ?_, ?_, h.held_drawn.trans hdrawn, fun i hi hbound => ?_, fun b hb l hl hphi => ?_⟩
  · rcases mem_instrs_emit hi with hi | rfl
    · exact hdrawn (h.drawn i hi)
    · exact Nat.lt_succ_self _
  · exact hrefs.trans (Set.union_subset (h.refs_drawn.trans hdrawn) (h.held_drawn.trans hdrawn))
  · rcases mem_instrs_emit hi with hi | rfl
    · obtain ⟨hyields, hphi, hnot, hheld⟩ := h.bound i hi hbound
      exact ⟨hyields, hphi, fun hmem => (hrefs hmem).elim hnot hheld, hheld⟩
    · obtain ⟨hyields, hphi⟩ := hbinding hbound
      exact ⟨hyields, hphi, hnext, h.nextInstr_notMem.1⟩
  · rcases getLast?_emit hb hl with ⟨hb, hne⟩ | ⟨_, rfl⟩
    · obtain ⟨hnot, hcurrent⟩ := h.last b hb l hl hphi
      have hheld : l.id ∉ held := fun hmem => hne (hcurrent hmem)
      exact ⟨fun hmem => (hrefs hmem).elim hnot hheld, fun hmem => absurd hmem hheld⟩
    · exact ⟨hnext, fun hmem => absurd hmem h.nextInstr_notMem.1⟩

/-- The value of the new instruction is held. -/
theorem emit (h : s.NamesApart held) (hoperands : idsOf operands ⊆ held) :
    (s.emit none opcode operands).NamesApart (insert s.supply.nextInstr held) := by
  have hadded : (s.emit none opcode operands).NamesApart held :=
    h.emit_enter hoperands (fun hnone => absurd rfl hnone) s.current
  refine ⟨hadded.drawn, hadded.refs_drawn, ?_, fun i hi hbound => ?_, fun b hb l hl hphi => ?_⟩
  · exact Set.insert_subset (Nat.lt_succ_self _) hadded.held_drawn
  · obtain ⟨hyields, hphi, hrefs, hheld⟩ := hadded.bound i hi hbound
    refine ⟨hyields, hphi, hrefs, fun hmem => hmem.elim (fun heq => ?_) hheld⟩
    rcases mem_instrs_emit hi with hi | rfl
    · exact h.id_ne_nextInstr hi heq
    · exact hbound rfl
  · obtain ⟨hrefs, hcurrent⟩ := hadded.last b hb l hl hphi
    refine ⟨hrefs, fun hmem => hmem.elim (fun heq => ?_) hcurrent⟩
    rcases getLast?_emit hb hl with ⟨hb, _⟩ | ⟨hid, _⟩
    · exact absurd heq (h.id_ne_nextInstr (mem_instrs_of_getLast? hb hl))
    · exact hid

/-- A value that is bound is no longer held. -/
theorem bindLocal (h : s.NamesApart held') {name : String} {value : Operand} (hsub : held ⊆ held')
    (hvalue : value.ids ⊆ held') (hfree : ∀ id ∈ value.ids, id ∉ held) : (s.bindLocal name value).NamesApart held := by
  rw [Builder.bindLocal]
  cases hbound : (s.block? s.current).bind fun b => b.bindLast? name value with
  | none =>
      have hadded := h.emit_enter (idsOf_cons_subset hvalue idsOf_nil_subset)
        (fun _ => ⟨rfl, by decide⟩ : some name ≠ none → Opcode.nop.yieldsValue = true ∧ Opcode.nop ≠ .phi) s.current
      exact hadded.mono hsub
  | some bound =>
      obtain ⟨b, hat, hlast⟩ := Option.bind_eq_some_iff.mp hbound
      have hb : b ∈ s.blocks := mem_of_block? hat
      have hid : bound.id = s.current := (Block.bindLast?_id hlast).trans (block?_id hat)
      obtain ⟨init, l, hinstrs, rfl, _, hyields, hphi, rfl⟩ := Block.bindLast?_eq_some hlast
      have hl : l ∈ b.instrs.getLast? := by simp [hinstrs]
      have hlrefs : l.id ∉ s.refs := (h.last b hb l hl hphi).1
      have hlheld : l.id ∉ held := hfree l.id rfl
      -- The instruction differs from the one before in its binding alone.
      have hmem : ∀ {i}, i ∈ (s.replace { b with instrs := init ++ [{ l with binding := some name }] }).instrs →
          i ∈ s.instrs ∨ i = { l with binding := some name } := by
        intro i hi
        rcases mem_instrs_replace hi with hi | hi
        · exact .inl hi
        · rcases List.mem_append.mp hi with hi | hi
          · exact .inl (List.mem_flatMap.mpr ⟨b, hb, hinstrs ▸ List.mem_append_left _ hi⟩)
          · exact .inr (List.mem_singleton.mp hi)
      have hrefs : (s.replace { b with instrs := init ++ [{ l with binding := some name }] }).refs ⊆ s.refs := by
        rintro id ⟨i, hi, hoperand⟩
        rcases hmem hi with hi | rfl
        · exact ⟨i, hi, hoperand⟩
        · exact ⟨l, mem_instrs_of_getLast? hb hl, hoperand⟩
      refine ⟨fun i hi => ?_, hrefs.trans h.refs_drawn, hsub.trans h.held_drawn, fun i hi hbinding => ?_,
        fun c hc k hk hkphi => ?_⟩
      · rcases hmem hi with hi | rfl
        · exact h.drawn i hi
        · exact h.drawn l (mem_instrs_of_getLast? hb hl)
      · rcases hmem hi with hi | rfl
        · obtain ⟨hyields, hphi, hnot, hheld⟩ := h.bound i hi hbinding
          exact ⟨hyields, hphi, fun hmem => hnot (hrefs hmem), fun hmem => hheld (hsub hmem)⟩
        · exact ⟨hyields, hphi, fun hmem => hlrefs (hrefs hmem), hlheld⟩
      · rcases mem_blocks_modifyBlock hc with ⟨hc, _⟩ | ⟨_, _, _, rfl⟩
        · obtain ⟨hnot, hcurrent⟩ := h.last c hc k hk hkphi
          exact ⟨fun hmem => hnot (hrefs hmem), fun hmem => hcurrent (hsub hmem)⟩
        · rw [List.getLast?_concat, Option.mem_some_iff] at hk
          rw [← hk]
          exact ⟨fun hmem => hlrefs (hrefs hmem), fun hmem => absurd hmem hlheld⟩

/-- A phi is placed whose id is held. -/
theorem place {phi : InstrId} {join : BlockId} (h : (s.enter join).NamesApart held) (hphi : phi ∈ held) :
    (s.place phi join).NamesApart held := by
  have hmem : ∀ {i}, i ∈ (s.place phi join).instrs → i ∈ s.instrs ∨ i = ⟨phi, .phi, [], none⟩ := by
    intro i hi
    obtain ⟨c, hc, hi⟩ := List.mem_flatMap.mp hi
    rcases mem_blocks_modifyBlock hc with ⟨hc, _⟩ | ⟨b, hb, _, rfl⟩
    · exact .inl (List.mem_flatMap.mpr ⟨c, hc, hi⟩)
    · exact .inr (List.mem_singleton.mp hi)
  have hrefs : (s.place phi join).refs ⊆ s.refs := by
    rintro id ⟨i, hi, hoperand⟩
    rcases hmem hi with hi | rfl
    · exact ⟨i, hi, hoperand⟩
    · cases hoperand
  refine ⟨fun i hi => ?_, hrefs.trans h.refs_drawn, h.held_drawn, fun i hi hbinding => ?_, fun c hc l hl hlphi => ?_⟩
  · rcases hmem hi with hi | rfl
    · exact h.drawn i hi
    · exact h.held_drawn hphi
  · rcases hmem hi with hi | rfl
    · obtain ⟨hyields, hphi, hnot, hheld⟩ := h.bound i hi hbinding
      exact ⟨hyields, hphi, fun hmem => hnot (hrefs hmem), hheld⟩
    · exact absurd rfl hbinding
  · rcases mem_blocks_modifyBlock hc with ⟨hc, _⟩ | ⟨b, _, _, rfl⟩
    · obtain ⟨hnot, hcurrent⟩ := h.last c hc l hl hlphi
      exact ⟨fun hmem => hnot (hrefs hmem), hcurrent⟩
    · rw [List.getLast?_singleton, Option.mem_some_iff] at hl
      rw [← hl] at hlphi
      exact absurd rfl hlphi

end NamesApart

end Builder

namespace Build

variable {α β : Type}

/-- Code that keeps names apart while it refers to the values in `needs`. The values in its result have been produced
by it or are among those that it needs. -/
def KeepsApart (needs : Set InstrId) (m : Build α) (gives : α → Set InstrId) : Prop :=
  ∀ s a t held, m s = .ok a t → needs ⊆ held → s.NamesApart held →
    s.supply ≤ t.supply ∧ (∀ id ∈ gives a, id ∈ s.supply.drawn → id ∈ needs) ∧ t.NamesApart (held ∪ gives a)

/-- The result refers to nothing. -/
def Nothing (_ : α) : Set InstrId := ∅

variable {needs : Set InstrId}

namespace KeepsApart

variable {m : Build α} {f : α → Build β} {gives : α → Set InstrId} {gives' : β → Set InstrId}

theorem pure {a : α} (h : gives a ⊆ needs) : KeepsApart needs (Pure.pure a : Build α) gives := by
  rintro s _ _ held ⟨⟩ hneeds hapart
  exact ⟨le_refl _, fun _ hid _ => h hid, hapart.mono (Set.union_subset (Set.Subset.refl _) (h.trans hneeds))⟩

theorem fail {e : BuildError} : KeepsApart needs (Build.fail e : Build α) gives := fun _ _ _ _ h => nomatch h

theorem bind (hm : KeepsApart needs m gives)
    (hf : ∀ a needs', needs ⊆ needs' → gives a ⊆ needs' → KeepsApart needs' (f a) gives') :
    KeepsApart needs (m >>= f) gives' := by
  intro s b u held h hneeds hapart
  obtain ⟨a, t, hrun, hrest⟩ := bind_eq_ok h
  obtain ⟨hsupply, hgives, hapart⟩ := hm s a t held hrun hneeds hapart
  have hf := hf a (needs ∪ gives a) Set.subset_union_left Set.subset_union_right
  obtain ⟨hsupply', hgives', hapart'⟩ := hf t b u _ hrest (Set.union_subset_union_left _ hneeds) hapart
  refine ⟨hsupply.trans hsupply', fun id hid hdrawn => ?_, hapart'.mono ?_⟩
  · exact (hgives' id hid (Supply.drawn_mono hsupply hdrawn)).elim (fun hmem => hmem) fun hmem => hgives id hmem hdrawn
  · exact Set.union_subset_union_left _ Set.subset_union_left

/-- Code that needs nothing can stand where some values are held. -/
theorem anywhere (h : KeepsApart ∅ m gives) : KeepsApart needs m gives := by
  intro s a t held hrun _ hapart
  obtain ⟨hsupply, hgives, hapart⟩ := h s a t held hrun (Set.empty_subset _) hapart
  exact ⟨hsupply, fun id hid hdrawn => (hgives id hid hdrawn).elim, hapart⟩

end KeepsApart

/-! Instructions. -/

theorem keepsApart_freshInstr : KeepsApart needs freshInstr Nothing := by
  rintro s _ _ held ⟨⟩ _ hapart
  exact ⟨Supply.le_dropInstr _, fun _ hid => (nomatch hid), hapart.draw.mono (Set.union_empty held).subset⟩

theorem keepsApart_constant (c : Constant) : KeepsApart needs (constant c) Operand.ids :=
  keepsApart_freshInstr.bind fun _ _ _ _ => .pure fun _ hid => nomatch hid

theorem keepsApart_count (n : Nat) : KeepsApart needs (count n) Operand.ids :=
  keepsApart_freshInstr.bind fun _ _ _ _ => .pure fun _ hid => nomatch hid

theorem keepsApart_emit {opcode : Opcode} {operands : List Operand} (h : idsOf operands ⊆ needs) :
    KeepsApart needs (emit opcode operands) Operand.ids := by
  intro s v t held hrun hneeds hapart
  obtain ⟨id, u, hemit, hpure⟩ := bind_eq_ok hrun
  obtain ⟨_, rfl, rfl⟩ := emitBound_eq_ok hemit
  cases hpure
  refine ⟨Supply.le_dropInstr _, fun id hid hdrawn => ?_, (hapart.emit (h.trans hneeds)).mono ?_⟩
  · obtain rfl := Operand.instr.inj hid
    exact absurd hdrawn (Nat.lt_irrefl _)
  · refine Set.union_subset (Set.subset_insert _ _) fun id hid => ?_
    exact .inl (Operand.instr.inj hid).symm

theorem keepsApart_perform {opcode : Opcode} {operands : List Operand} (h : idsOf operands ⊆ needs) :
    KeepsApart needs (perform opcode operands) Nothing := by
  intro s v t held hrun hneeds hapart
  obtain ⟨id, u, hemit, hpure⟩ := bind_eq_ok hrun
  obtain ⟨_, rfl, rfl⟩ := emitBound_eq_ok hemit
  cases hpure
  refine ⟨Supply.le_dropInstr _, fun _ hid => (nomatch hid), (hapart.emit (h.trans hneeds)).mono ?_⟩
  exact Set.union_subset (Set.subset_insert _ _) (Set.empty_subset _)

theorem keepsApart_literal (c : Constant) : KeepsApart needs (literal c) Operand.ids :=
  (keepsApart_constant c).bind fun _ _ _ hc => keepsApart_emit (idsOf_cons_subset hc idsOf_nil_subset)

/-! Merges. -/

/-- An arm starts in any block and leaves its value behind, so that any block may be entered after it. -/
theorem apart_arm {phi : InstrId} {join block : BlockId} {value : Build Operand} {s t : Builder} {a : Unit}
    {held : Set InstrId} (hvalue : KeepsApart needs value Operand.ids) (h : arm phi join block value s = .ok a t)
    (hneeds : needs ⊆ held) (hphi : phi ∈ held) (hapart : ∀ id, (s.enter id).NamesApart held) :
    s.supply ≤ t.supply ∧ ∀ id, (t.enter id).NamesApart held := by
  obtain ⟨_, s₁, hswitch, h⟩ := bind_eq_ok h
  obtain ⟨_, rfl⟩ := switchTo_eq_ok hswitch
  obtain ⟨v, s₂, hrun, h⟩ := bind_eq_ok h
  obtain ⟨_, s₃, hcontribute, hlink⟩ := bind_eq_ok h
  obtain ⟨hsupply, _, hapart₂⟩ := hvalue _ v s₂ held hrun hneeds (hapart block)
  obtain ⟨recorder, rfl⟩ := contribute_eq_ok hcontribute
  obtain ⟨_, _, rfl⟩ := linkCurrent_eq_ok hlink
  refine ⟨hsupply.trans (Supply.le_dropInstr _), fun id => ?_⟩
  have hphis : (s₂.withPhis recorder).NamesApart (held ∪ v.ids) := hapart₂.of_blocks_eq rfl rfl (le_refl _)
  have hphi' : (Operand.instr phi).ids ⊆ held ∪ v.ids := by
    intro id hid
    exact .inl (Operand.instr.inj hid ▸ hphi)
  have hoperands : idsOf [.instr phi, v] ⊆ held ∪ v.ids :=
    idsOf_cons_subset hphi' (idsOf_cons_subset Set.subset_union_right idsOf_nil_subset)
  have hemit := hphis.emit_enter hoperands
    (fun hnone => absurd rfl hnone : none ≠ none → Opcode.toPhi.yieldsValue = true ∧ Opcode.toPhi ≠ .phi) id
  exact (hemit.link s₂.current [join]).mono Set.subset_union_left

theorem keepsApart_merge {condition : Operand} {trueFirst : Bool} {first second : Build Operand}
    (hcondition : condition.ids ⊆ needs) (hfirst : KeepsApart needs first Operand.ids)
    (hsecond : KeepsApart needs second Operand.ids) :
    KeepsApart needs (merge condition trueFirst first second) Operand.ids := by
  intro s v t held hrun hneeds hapart
  obtain ⟨_, s₁, s₂, hrun₁, hrun₂, rfl, rfl⟩ := merge_eq_ok hrun
  have hdraw := hapart.draw_hold
  have hneeds' : needs ⊆ insert s.supply.nextInstr held := hneeds.trans (Set.subset_insert _ _)
  have hphi : s.supply.nextInstr ∈ insert s.supply.nextInstr held := Set.mem_insert _ _
  have hsplit : ∀ id, (((s.draw.split condition).withPhis
      (s.phis.openPhi s.supply.nextInstr (s.later 2))).enter id).NamesApart (insert s.supply.nextInstr held) := by
    intro id
    have hemit := hdraw.emit_enter (idsOf_cons_subset (hcondition.trans hneeds') idsOf_nil_subset)
      (fun hnone => absurd rfl hnone : none ≠ none → Opcode.branch.yieldsValue = true ∧ Opcode.branch ≠ .phi) id
    exact (hemit.alloc.alloc.alloc.link s.current [s.later 0, s.later 1]).of_blocks_eq rfl rfl (le_refl _)
  obtain ⟨hsupply₁, hapart₁⟩ := apart_arm hfirst hrun₁ hneeds' hphi hsplit
  obtain ⟨hsupply₂, hapart₂⟩ := apart_arm hsecond hrun₂ hneeds' hphi hapart₁
  have hopen : s.supply ≤ (s.draw.split condition).supply :=
    s.supply.le_dropInstr.trans (Builder.supply_le_split (s := s.draw))
  refine ⟨hopen.trans (hsupply₁.trans hsupply₂), fun id hid hdrawn => ?_, ((hapart₂ _).place hphi).mono ?_⟩
  · obtain rfl := Operand.instr.inj hid
    exact absurd hdrawn (Nat.lt_irrefl _)
  · refine Set.union_subset (Set.subset_insert _ _) fun id hid => ?_
    exact .inl (Operand.instr.inj hid).symm

/-! Variables. -/

/-- The value has not been produced before. -/
def GivesNew (needs : Set InstrId) (m : Build Operand) : Prop :=
  ∀ s v t held, m s = .ok v t → needs ⊆ held → s.NamesApart held → ∀ id ∈ v.ids, id ∉ s.supply.drawn

theorem givesNew_emit {opcode : Opcode} {operands : List Operand} : GivesNew needs (emit opcode operands) := by
  intro s v t held hrun _ _ id hid hdrawn
  obtain ⟨id', u, hemit, hpure⟩ := bind_eq_ok hrun
  obtain ⟨_, rfl, _⟩ := emitBound_eq_ok hemit
  cases hpure
  obtain rfl := Operand.instr.inj hid
  exact absurd hdrawn (Nat.lt_irrefl _)

theorem KeepsApart.givesNew {m : Build Operand} (h : KeepsApart ∅ m Operand.ids) : GivesNew needs m := by
  intro s v t held hrun _ hapart
  obtain ⟨_, hgives, _⟩ := h s v t held hrun (Set.empty_subset _) hapart
  exact hgives

variable {names : Names} {m : Build Operand}

theorem keepsApart_resolve (access : Access) (name : String) :
    KeepsApart needs (resolve names access name) Nothing := by
  intro s r t held hrun _ hapart
  obtain ⟨_, rfl⟩ := resolve_eq_ok hrun
  exact ⟨le_refl _, fun _ hid => (nomatch hid), hapart.mono (Set.union_empty held).subset⟩

theorem keepsApart_readName (name : String) : KeepsApart needs (readName names name) Operand.ids := by
  refine (keepsApart_resolve .read name).bind fun r _ _ _ => ?_
  cases r with
  | own => exact keepsApart_emit idsOf_nil_subset
  | localVar => exact keepsApart_freshInstr.bind fun _ _ _ _ => .pure fun _ hid => nomatch hid
  | slot depth index =>
      refine (keepsApart_count _).bind fun _ _ _ hdepth => (keepsApart_count _).bind fun _ _ hsub hindex => ?_
      exact keepsApart_emit (idsOf_cons_subset (hdepth.trans hsub) (idsOf_cons_subset hindex idsOf_nil_subset))
  | global =>
      exact (keepsApart_constant _).bind fun _ _ _ hc => keepsApart_emit (idsOf_cons_subset hc idsOf_nil_subset)

theorem keepsApart_storeContext (depth index : Nat) {value : Operand} (hvalue : value.ids ⊆ needs) :
    KeepsApart needs (storeContext depth index value) Nothing := by
  refine (keepsApart_count _).bind fun _ _ hsub hdepth => (keepsApart_count _).bind fun _ _ hsub' hindex => ?_
  exact keepsApart_perform (idsOf_cons_subset (hdepth.trans hsub') (idsOf_cons_subset hindex
    (idsOf_cons_subset (hvalue.trans (hsub.trans hsub')) idsOf_nil_subset)))

/-- A new value is bound. -/
theorem keepsApart_bindLocal (hm : KeepsApart needs m Operand.ids) (hnew : GivesNew needs m) (name : String) :
    KeepsApart needs (m >>= bindLocal name) Nothing := by
  intro s _ u held hrun hneeds hapart
  obtain ⟨v, t, hvalue, hbind⟩ := bind_eq_ok hrun
  obtain ⟨hsupply, _, hapart'⟩ := hm s v t held hvalue hneeds hapart
  obtain ⟨_, rfl⟩ := bindLocal_eq_ok hbind
  have hfree : ∀ id ∈ v.ids, id ∉ held := fun id hid hheld =>
    hnew s v t held hvalue hneeds hapart id hid (hapart.held_drawn hheld)
  have hbound : (t.bindLocal name v).NamesApart held :=
    hapart'.bindLocal Set.subset_union_left Set.subset_union_right hfree
  refine ⟨hsupply.trans ?_, fun _ hid => (nomatch hid), hbound.mono (Set.union_empty held).subset⟩
  rw [Builder.bindLocal]
  split
  · exact le_refl _
  · exact Supply.le_dropInstr _

theorem writeName_of_local {name : String} (h : names.find .write name = .ok .localVar) (v : Operand) :
    writeName names name v = bindLocal name v >>= fun _ => pure (.localVar name) := by
  funext s
  have hresolve : resolve names .write name s = .ok .localVar s := by rw [resolve, h]
  rw [writeName, bind_ok hresolve]

/-- A value is stored where it stays at hand. -/
theorem keepsApart_storeName {name : String} {v : Operand} (h : names.find .write name ≠ .ok .localVar)
    (hv : v.ids ⊆ needs) : KeepsApart needs (writeName names name v) Operand.ids := by
  intro s w t held hrun hneeds hapart
  obtain ⟨r, s₁, hresolve, hrest⟩ := bind_eq_ok hrun
  obtain ⟨hfind, rfl⟩ := resolve_eq_ok hresolve
  have hstore : KeepsApart needs (do
      let key ← constant (.string name)
      perform .storeGlobal [key, v]
      return v) Operand.ids := by
    refine (keepsApart_constant _).bind fun _ _ hsub hkey => ?_
    have hoperands := idsOf_cons_subset hkey (idsOf_cons_subset (hv.trans hsub) idsOf_nil_subset)
    exact (keepsApart_perform hoperands).bind fun _ _ hsub' _ => .pure (hv.trans (hsub.trans hsub'))
  cases r with
  | localVar => exact absurd hfind h
  | slot depth index =>
      have hcontext : KeepsApart needs (storeContext depth index v >>= fun _ => pure v) Operand.ids :=
        (keepsApart_storeContext _ _ hv).bind fun _ _ hsub _ => .pure (hv.trans hsub)
      exact hcontext _ w t held hrest hneeds hapart
  | global | own => exact hstore _ w t held hrest hneeds hapart

/-- A new value is stored into a variable. -/
theorem keepsApart_writeName (hm : KeepsApart needs m Operand.ids) (hnew : GivesNew needs m) (name : String) :
    KeepsApart needs (m >>= writeName names name) Operand.ids := by
  by_cases hlocal : names.find .write name = .ok .localVar
  · rw [funext (writeName_of_local hlocal), ← bind_assoc]
    exact (keepsApart_bindLocal hm hnew name).bind fun _ _ _ _ => .pure fun _ hid => nomatch hid
  · exact hm.bind fun _ _ _ hv => keepsApart_storeName hlocal hv

/-- The value of an instruction is stored into a variable. -/
theorem keepsApart_writeResult {opcode : Opcode} {operands : List Operand} (h : idsOf operands ⊆ needs)
    (name : String) : KeepsApart needs (emit opcode operands >>= writeName names name) Operand.ids :=
  keepsApart_writeName (keepsApart_emit h) givesNew_emit name

theorem keepsApart_loadParams (params : List String) (position : Nat) :
    KeepsApart needs (loadParams names position params) Nothing := by
  induction params generalizing position needs with
  | nil => exact .pure fun _ hid => nomatch hid
  | cons name rest ih =>
      refine (keepsApart_count _).bind fun _ _ _ hposition => ?_
      rw [← bind_assoc]
      refine (keepsApart_writeResult (idsOf_cons_subset hposition idsOf_nil_subset) name).bind fun _ _ _ _ => ?_
      exact ih _

theorem keepsApart_clearVars (vars : List String) : KeepsApart needs (clearVars vars) Nothing := by
  induction vars generalizing needs with
  | nil => exact .pure fun _ hid => nomatch hid
  | cons name rest ih =>
      rw [clearVars, ← bind_assoc]
      have hnew : GivesNew needs (literal .undefined) := (keepsApart_literal _).givesNew
      exact (keepsApart_bindLocal (keepsApart_literal _) hnew name).bind fun _ _ _ _ => ih

theorem keepsApart_prologue (scope : Scope) : KeepsApart needs (prologue names scope) Nothing := by
  have hself : ∀ needs, KeepsApart needs (loadSelf scope.ownSlot) Nothing := by
    intro needs
    cases scope.ownSlot with
    | none => exact .pure fun _ hid => nomatch hid
    | some slot => exact (keepsApart_emit idsOf_nil_subset).bind fun _ _ _ hv => keepsApart_storeContext _ _ hv
  refine (keepsApart_loadParams scope.params 0).bind fun _ _ _ _ => ?_
  exact (hself _).bind fun _ _ _ _ => keepsApart_clearVars scope.vars

/-! Calls. -/

theorem keepsApart_pushArgs {arguments : List Operand} (h : idsOf arguments ⊆ needs) :
    KeepsApart needs (pushArgs arguments) Nothing := by
  have hreverse : ∀ o ∈ arguments.reverse, o.ids ⊆ needs :=
    fun o ho => idsOf_subset_iff.mp h o (List.mem_reverse.mp ho)
  rw [pushArgs]
  generalize arguments.reverse = reversed at hreverse
  clear h
  induction reversed generalizing needs with
  | nil => exact KeepsApart.pure (Set.empty_subset _)
  | cons argument rest ih =>
      obtain ⟨hargument, hrest⟩ := List.forall_mem_cons.mp hreverse
      refine (keepsApart_perform (idsOf_cons_subset hargument idsOf_nil_subset)).bind fun _ _ hsub _ => ?_
      exact ih fun o ho => (hrest o ho).trans hsub

theorem keepsApart_call {function : Operand} {receiver : Build Operand} {arguments : List Operand}
    (hfunction : function.ids ⊆ needs) (hreceiver : ∀ needs', needs ⊆ needs' → KeepsApart needs' receiver Operand.ids)
    (harguments : idsOf arguments ⊆ needs) : KeepsApart needs (call function receiver arguments) Operand.ids := by
  refine (keepsApart_pushArgs harguments).bind fun _ _ hsub _ => (hreceiver _ hsub).bind fun _ _ hsub₁ hr => ?_
  refine (keepsApart_count _).bind fun _ _ hsub₂ hsize => keepsApart_emit ?_
  exact idsOf_cons_subset (hfunction.trans (hsub.trans (hsub₁.trans hsub₂)))
    (idsOf_cons_subset (hr.trans hsub₂) (idsOf_cons_subset hsize idsOf_nil_subset))

theorem keepsApart_new {function : Operand} {arguments : List Operand} (hfunction : function.ids ⊆ needs)
    (harguments : idsOf arguments ⊆ needs) : KeepsApart needs (new function arguments) Operand.ids := by
  refine (keepsApart_pushArgs harguments).bind fun _ _ hsub _ => (keepsApart_count _).bind fun _ _ hsub' hsize => ?_
  exact keepsApart_emit
    (idsOf_cons_subset (hfunction.trans (hsub.trans hsub')) (idsOf_cons_subset hsize idsOf_nil_subset))

end Build

end ScriptSsa
