import ScriptSsa.Proofs.Trace

/-!
Which values are in reach where a block starts.

A certificate gives every block a set of values. They are in reach wherever control comes from: each edge
into the block leaves a block at whose end they are in reach, and the entry starts with none. The blocks of
statements start with no values. The arms and the join of a merge start with those that are in reach where
control splits. A trace extends a certificate to the blocks that it adds.
-/

namespace ScriptSsa

/-- The operands that an instruction uses as values. The first operand of a `toPhi` only names the phi. -/
def Instr.inputs (i : Instr) : List Operand := if i.opcode = .toPhi then i.operands.tail else i.operands

/-- The values that the instructions yield. -/
def valuesOf (instrs : List Instr) : Set InstrId :=
  {d | ∃ i ∈ instrs, i.opcode.yieldsValue = true ∧ i.id = d}

theorem valuesOf_nil : valuesOf [] = ∅ := by simp [valuesOf]

theorem valuesOf_append (is js : List Instr) : valuesOf (is ++ js) = valuesOf is ∪ valuesOf js := by
  ext d
  simp only [valuesOf, Set.mem_ofPred_eq, Set.mem_union, List.mem_append]
  constructor
  · rintro ⟨i, hi | hi, h⟩
    · exact .inl ⟨i, hi, h⟩
    · exact .inr ⟨i, hi, h⟩
  · rintro (⟨i, hi, h⟩ | ⟨i, hi, h⟩)
    · exact ⟨i, .inl hi, h⟩
    · exact ⟨i, .inr hi, h⟩

theorem mem_valuesOf_singleton {i : Instr} {d : InstrId} :
    d ∈ valuesOf [i] ↔ i.opcode.yieldsValue = true ∧ i.id = d := by
  simp [valuesOf]

/-- Every instruction finds its inputs among the values of `reach` and those that come before it, and has a
larger id than they have. -/
def Covered (reach : Set InstrId) (instrs : List Instr) : Prop :=
  ∀ before i after, instrs = before ++ i :: after →
    ∀ d, .instr d ∈ i.inputs → d ∈ reach ∪ valuesOf before ∧ d.index < i.id.index

theorem covered_nil (reach : Set InstrId) : Covered reach [] := by
  intro before i after h
  cases before <;> cases h

/-- An instruction may use what is in reach at the start of its block, and what stands before it. -/
theorem covered_concat {reach : Set InstrId} {instrs : List Instr} {last : Instr} :
    Covered reach (instrs ++ [last]) ↔ Covered reach instrs ∧
      ∀ d, .instr d ∈ last.inputs → d ∈ reach ∪ valuesOf instrs ∧ d.index < last.id.index := by
  constructor
  · intro h
    refine ⟨fun before i after heq => ?_, h instrs last [] rfl⟩
    exact h before i (after ++ [last]) (by simp [heq])
  · rintro ⟨h, hlast⟩ before i after heq
    rcases List.eq_nil_or_concat after with rfl | ⟨init, last', rfl⟩
    · obtain ⟨rfl, heq'⟩ := List.append_inj' heq rfl
      obtain rfl : last = i := List.head_eq_of_cons_eq heq'
      exact hlast
    · rw [List.concat_eq_append, ← List.cons_append, ← List.append_assoc] at heq
      exact h before i init (List.append_inj' heq rfl).1

namespace Builder

/-- The values that the instructions of all blocks yield. -/
def values (s : Builder) : Set InstrId := {d | ∃ id b, s.block? id = some b ∧ d ∈ valuesOf b.instrs}

/-- The block ends with the delivery of this value to the phi. -/
def Delivers (s : Builder) (id : BlockId) (phi : InstrId) (value : Operand) : Prop :=
  ∃ b init i, s.block? id = some b ∧ b.instrs = init ++ [i] ∧ i.opcode = .toPhi ∧
    i.operands = [.instr phi, value]

end Builder

/-- The id of the block has been drawn, and no values are in reach where it starts. -/
def Plain (avail : BlockId → Set InstrId) (s : Builder) (id : BlockId) : Prop :=
  id.index < s.supply.blocks ∧ avail id = ∅

/-- `avail` gives the values that are in reach where each block starts, and `held` are in reach at the end of
the current block. -/
structure Certified (avail : BlockId → Set InstrId) (held : Set InstrId) (s : Builder) : Prop where
  fresh : s.Fresh
  entry : ∃ id, s.ids.head? = some id ∧ avail id = ∅
  covered : ∀ {id b}, s.block? id = some b → Covered (avail id) b.instrs
  edges : ∀ {id b}, s.block? id = some b → ∀ target ∈ b.succs,
    target.index < s.supply.blocks ∧ avail target ⊆ avail id ∪ valuesOf b.instrs
  known : ∀ {id}, id ∈ s.ids → avail id ⊆ s.values
  drawn : ∀ {d}, d ∈ s.values → d.index < s.supply.instrs
  held : ∀ {b}, s.At b → held ⊆ avail s.current ∪ valuesOf b.instrs
  loops : ∀ l ∈ s.loops, ∀ id ∈ l.continueEntry :: l.continues, Plain avail s id
  recorded : ∀ {phi entry}, s.phis.entries.find? phi = some entry →
    ∀ input ∈ entry.inputs, s.Delivers input.source phi input.value

/-- Two certificates say the same of the first `n` blocks. -/
def AgreeBelow (n : Nat) (avail avail' : BlockId → Set InstrId) : Prop :=
  ∀ id : BlockId, id.index < n → avail' id = avail id

/-- Later assignments agree with earlier ones on the blocks that both know. -/
theorem AgreeBelow.trans {n m : Nat} {avail avail' avail'' : BlockId → Set InstrId}
    (h : AgreeBelow n avail avail') (h' : AgreeBelow m avail' avail'') (hle : n ≤ m) :
    AgreeBelow n avail avail'' :=
  fun id hid => (h' id (hid.trans_le hle)).trans (h id hid)

/-- A block that relies on nothing still does when more blocks are known. -/
theorem Plain.of_agree {avail avail' : BlockId → Set InstrId} {s t : Builder} {id : BlockId}
    (h : Plain avail s id) (hagree : AgreeBelow s.supply.blocks avail avail') (hsupply : s.supply ≤ t.supply) :
    Plain avail' t id :=
  ⟨h.1.trans_le hsupply.2, (hagree id h.1).trans h.2⟩

theorem Loop.continueEntry_extend {kind : Jump} (l : Loop) (join : BlockId) :
    (l.extend kind join).continueEntry = l.continueEntry := by
  cases kind <;> rfl

namespace Certified

variable {avail avail' : BlockId → Set InstrId} {held held' : Set InstrId} {s t : Builder} {id : BlockId}
  {b : Block}

/-- What is held must be in reach here: at the start of the block or since. -/
theorem withHeld (h : Certified avail held s)
    (hheld : ∀ {b}, s.At b → held' ⊆ avail s.current ∪ valuesOf b.instrs) : Certified avail held' s :=
  { h with held := hheld }

theorem mono (h : Certified avail held s) (hsub : held' ⊆ held) : Certified avail held' s :=
  h.withHeld fun hat => hsub.trans (h.held hat)

/-- What the certificate says of ids that are not drawn yet does not matter. -/
theorem of_agree (h : Certified avail held s) (hagree : AgreeBelow s.supply.blocks avail avail') :
    Certified avail' held s := by
  have hids : ∀ {id}, id ∈ s.ids → avail' id = avail id := fun hid => hagree _ (h.fresh _ hid)
  have hblock : ∀ {id b}, s.block? id = some b → avail' id = avail id :=
    fun hb => hids (Builder.mem_ids_of_block? hb)
  obtain ⟨first, hfirst, hempty⟩ := h.entry
  refine ⟨h.fresh, ⟨first, hfirst, ?_⟩, fun hb => ?_, fun hb target htarget => ?_, fun hid => ?_, h.drawn,
    fun hat => ?_, fun l hl id hid => ?_, h.recorded⟩
  · rw [hids (List.mem_of_mem_head? hfirst), hempty]
  · rw [hblock hb]
    exact h.covered hb
  · obtain ⟨hlt, hsub⟩ := h.edges hb target htarget
    rw [hblock hb, hagree target hlt]
    exact ⟨hlt, hsub⟩
  · rw [hids hid]
    exact h.known hid
  · rw [hblock hat]
    exact h.held hat
  · obtain ⟨hlt, hempty⟩ := h.loops l hl id hid
    exact ⟨hlt, (hagree id hlt).trans hempty⟩

/-- A change that leaves the graph alone. -/
theorem of_blocks_eq (h : Certified avail held s) (hblocks : t.blocks = s.blocks)
    (hcurrent : t.current = s.current) (hloops : t.loops = s.loops) (hphis : t.phis = s.phis)
    (hsupply : s.supply ≤ t.supply) : Certified avail held t := by
  have hids : t.ids = s.ids := by rw [Builder.ids, hblocks, Builder.ids]
  have hblock : ∀ id, t.block? id = s.block? id := fun id => by rw [Builder.block?, hblocks, Builder.block?]
  have hvalues : t.values = s.values := by simp only [Builder.values, hblock]
  refine ⟨fun id hid => ?_, hids ▸ h.entry, fun hb => h.covered (hblock _ ▸ hb), ?_, ?_, ?_, ?_, ?_, ?_⟩
  · exact (h.fresh id (hids ▸ hid)).trans_le hsupply.2
  · intro id b hb target htarget
    obtain ⟨hlt, hsub⟩ := h.edges (hblock id ▸ hb) target htarget
    exact ⟨hlt.trans_le hsupply.2, hsub⟩
  · rw [hids, hvalues]
    exact h.known
  · rw [hvalues]
    exact fun hd => (h.drawn hd).trans_le hsupply.1
  · intro b hat
    rw [hcurrent]
    refine h.held ?_
    rwa [Builder.At, hblock, hcurrent] at hat
  · rw [hloops]
    intro l hl id hid
    obtain ⟨hlt, hempty⟩ := h.loops l hl id hid
    exact ⟨hlt.trans_le hsupply.2, hempty⟩
  · rw [hphis]
    intro phi entry hfind input hinput
    obtain ⟨b, init, i, hb, hi⟩ := h.recorded hfind input hinput
    exact ⟨b, init, i, (hblock _).trans hb, hi⟩

theorem draw (h : Certified avail held s) : Certified avail held s.draw :=
  h.of_blocks_eq rfl rfl rfl rfl s.supply.le_dropInstr

theorem withLoops {loops : List Loop} (h : Certified avail held s)
    (hloops : ∀ l ∈ loops, ∀ id ∈ l.continueEntry :: l.continues, Plain avail s id) :
    Certified avail held (s.withLoops loops) :=
  ⟨h.fresh, h.entry, h.covered, h.edges, h.known, h.drawn, h.held, hloops, h.recorded⟩

theorem withPhis {phis : Phi.Recorder} (h : Certified avail held s)
    (hphis : ∀ {phi entry}, phis.entries.find? phi = some entry →
      ∀ input ∈ entry.inputs, s.Delivers input.source phi input.value) :
    Certified avail held (s.withPhis phis) :=
  ⟨h.fresh, h.entry, h.covered, h.edges, h.known, h.drawn, h.held, h.loops, hphis⟩

/-- What is held in another block is what is in reach there. -/
theorem enter (h : Certified avail held s)
    (hheld : ∀ {b}, s.block? id = some b → held' ⊆ avail id ∪ valuesOf b.instrs) :
    Certified avail held' (s.enter id) :=
  ⟨h.fresh, h.entry, h.covered, h.edges, h.known, h.drawn, hheld, h.loops, h.recorded⟩

/-- A change to one block, which keeps its values. -/
theorem modifyBlock {f : Block → Block} (h : Certified avail held s)
    (hid : ∀ b, b.id = id → (f b).id = id)
    (hvalues : ∀ {b}, s.block? id = some b → valuesOf b.instrs ⊆ valuesOf (f b).instrs)
    (hcovered : ∀ {b}, s.block? id = some b → Covered (avail id) (f b).instrs)
    (hedges : ∀ {b}, s.block? id = some b → ∀ target ∈ (f b).succs,
      target.index < s.supply.blocks ∧ avail target ⊆ avail id ∪ valuesOf (f b).instrs)
    (hdrawn : ∀ {b}, s.block? id = some b → ∀ d ∈ valuesOf (f b).instrs, d.index < s.supply.instrs)
    (hdelivers : ∀ {b init i}, s.block? id = some b → b.instrs = init ++ [i] → i.opcode = .toPhi →
      (f b).instrs = b.instrs) :
    Certified avail held (s.modifyBlock id f) := by
  have hids : (s.modifyBlock id f).ids = s.ids := Builder.ids_modifyBlock hid
  have hself : (s.modifyBlock id f).block? id = (s.block? id).map f := by
    rw [Builder.block?_modifyBlock hid, if_pos rfl]
  have hother : ∀ {j}, j ≠ id → (s.modifyBlock id f).block? j = s.block? j := by
    intro j hne
    rw [Builder.block?_modifyBlock hid, if_neg hne]
  -- Where each block of the new builder comes from.
  have hcases : ∀ {j c}, (s.modifyBlock id f).block? j = some c →
      (j = id ∧ ∃ b, s.block? id = some b ∧ c = f b) ∨ (j ≠ id ∧ s.block? j = some c) := by
    intro j c hc
    by_cases hj : j = id
    · rw [hj, hself] at hc
      obtain ⟨b, hb, heq⟩ := Option.map_eq_some_iff.mp hc
      exact .inl ⟨hj, b, hb, heq.symm⟩
    · exact .inr ⟨hj, hother hj ▸ hc⟩
  have hkept : ∀ {j b}, s.block? j = some b → ∃ c, (s.modifyBlock id f).block? j = some c ∧
      valuesOf b.instrs ⊆ valuesOf c.instrs := by
    intro j b hb
    by_cases hj : j = id
    · subst hj
      exact ⟨f b, by rw [hself, hb]; rfl, hvalues hb⟩
    · exact ⟨b, (hother hj).trans hb, subset_refl _⟩
  have hsub : s.values ⊆ (s.modifyBlock id f).values := by
    rintro d ⟨j, b, hb, hd⟩
    obtain ⟨c, hc, hmono⟩ := hkept hb
    exact ⟨j, c, hc, hmono hd⟩
  refine ⟨?_, hids.symm ▸ h.entry, ?_, ?_, ?_, ?_, ?_, h.loops, ?_⟩
  · rw [Builder.Fresh, hids]
    exact h.fresh
  · intro j c hc
    rcases hcases hc with ⟨rfl, b, hb, rfl⟩ | ⟨_, hc⟩
    · exact hcovered hb
    · exact h.covered hc
  · intro j c hc
    rcases hcases hc with ⟨rfl, b, hb, rfl⟩ | ⟨_, hc⟩
    · exact hedges hb
    · exact h.edges hc
  · intro j hj
    exact (h.known (hids ▸ hj)).trans hsub
  · rintro d ⟨j, c, hc, hd⟩
    rcases hcases hc with ⟨rfl, b, hb, rfl⟩ | ⟨_, hc⟩
    · exact hdrawn hb d hd
    · exact h.drawn ⟨j, c, hc, hd⟩
  · intro c hc
    rcases hcases hc with ⟨hcurrent, b, hb, rfl⟩ | ⟨_, hc⟩
    · have hat : s.At b := by rwa [← hcurrent] at hb
      exact (h.held hat).trans (Set.union_subset_union_right _ (hvalues hb))
    · exact h.held hc
  · intro phi entry hfind input hinput
    obtain ⟨b, init, i, hb, hinstrs, hop, hoperands⟩ := h.recorded hfind input hinput
    by_cases hj : input.source = id
    · rw [hj] at hb
      refine ⟨f b, init, i, ?_, (hdelivers hb hinstrs hop).trans hinstrs, hop, hoperands⟩
      rw [hj, hself, hb]
      rfl
    · exact ⟨b, init, i, (hother hj).trans hb, hinstrs, hop, hoperands⟩

/-- A block may be linked to one that relies on no more than is in reach at its end. -/
theorem link {succs : List BlockId} (h : Certified avail held s)
    (hsuccs : ∀ {b}, s.block? id = some b → ∀ target ∈ succs,
      target.index < s.supply.blocks ∧ avail target ⊆ avail id ∪ valuesOf b.instrs) :
    Certified avail held (s.link id succs) :=
  h.modifyBlock (fun _ hid => hid) (fun _ => subset_refl _) h.covered hsuccs
    (fun hb _ hd => h.drawn ⟨_, _, hb, hd⟩) fun _ _ _ => rfl

/-- In particular to one that relies on nothing. -/
theorem linkPlain {succs : List BlockId} (h : Certified avail held s)
    (hsuccs : ∀ target ∈ succs, Plain avail s target) : Certified avail held (s.link id succs) := by
  refine h.link fun _ target htarget => ⟨(hsuccs target htarget).1, ?_⟩
  rw [(hsuccs target htarget).2]
  exact Set.empty_subset _

theorem enterPlain (h : Certified avail held s) : Certified avail ∅ (s.enter id) :=
  h.enter fun _ => Set.empty_subset _

theorem held_subset_values (h : Certified avail held s) (hcurrent : s.current ∈ s.ids ∨ held = ∅) :
    held ⊆ s.values := by
  rcases hcurrent with hcurrent | rfl
  · obtain ⟨b, hat⟩ := Builder.exists_block? hcurrent
    intro d hd
    rcases h.held hat hd with hd | hd
    · exact h.known hcurrent hd
    · exact ⟨_, b, hat, hd⟩
  · exact Set.empty_subset _

/-- A new block may rely on what is held when it is created. -/
theorem alloc (h : Certified avail held s) (hcurrent : s.current ∈ s.ids ∨ held = ∅)
    (hnew : avail (s.later 0) ⊆ held) : Certified avail held s.alloc := by
  have hnotMem : s.later 0 ∉ s.ids := h.fresh.later_notMem 0
  have hcases : ∀ {j c}, s.alloc.block? j = some c → c = .empty j ∨ s.block? j = some c := by
    intro j c hc
    by_cases hj : j = s.later 0
    · rw [hj, Builder.block?_alloc_self hnotMem] at hc
      exact .inl (hj ▸ (Option.some.inj hc).symm)
    · exact .inr (Builder.block?_alloc_of_ne hj ▸ hc)
  have hvalues : s.values ⊆ s.alloc.values := by
    rintro d ⟨j, b, hb, hd⟩
    exact ⟨j, b, Builder.block?_alloc_of_some hb, hd⟩
  have hlt : ∀ {j : BlockId}, j.index < s.supply.blocks → j.index < s.alloc.supply.blocks :=
    fun h => Nat.lt_succ_of_lt h
  refine ⟨h.fresh.alloc, ?_, ?_, ?_, ?_, ?_, ?_, ?_, ?_⟩
  · obtain ⟨first, hfirst, hempty⟩ := h.entry
    refine ⟨first, ?_, hempty⟩
    rw [Builder.ids_alloc, List.head?_append, hfirst]
    rfl
  · intro j c hc
    rcases hcases hc with rfl | hc
    · exact covered_nil _
    · exact h.covered hc
  · intro j c hc target htarget
    rcases hcases hc with rfl | hc
    · cases htarget
    · exact ⟨hlt (h.edges hc target htarget).1, (h.edges hc target htarget).2⟩
  · intro j hj
    rw [Builder.ids_alloc] at hj
    rcases List.mem_append.mp hj with hj | hj
    · exact (h.known hj).trans hvalues
    · rw [List.mem_singleton.mp hj]
      exact hnew.trans ((h.held_subset_values hcurrent).trans hvalues)
  · rintro d ⟨j, c, hc, hd⟩
    rcases hcases hc with rfl | hc
    · rw [Block.empty, valuesOf_nil] at hd
      cases hd
    · exact h.drawn ⟨j, c, hc, hd⟩
  · intro c hc
    rcases hcurrent with hcurrent | rfl
    · have hne : s.current ≠ s.later 0 := fun heq => hnotMem (heq ▸ hcurrent)
      exact h.held ((Builder.block?_alloc_of_ne hne).symm.trans hc)
    · exact Set.empty_subset _
  · intro l hl id hid
    exact ⟨hlt (h.loops l hl id hid).1, (h.loops l hl id hid).2⟩
  · intro phi entry hfind input hinput
    obtain ⟨b, init, i, hb, hi⟩ := h.recorded hfind input hinput
    exact ⟨b, init, i, Builder.block?_alloc_of_some hb, hi⟩

/-- An instruction uses only what is held, and holds its value afterwards. -/
theorem emit {binding : Option String} {opcode : Opcode} {operands : List Operand} (h : Certified avail held s)
    (hopen : s.IsOpen)
    (hinputs : ∀ d, .instr d ∈ (Instr.mk s.supply.nextInstr opcode operands binding).inputs → d ∈ held) :
    Certified avail (if opcode.yieldsValue then insert s.supply.nextInstr held else held)
      (s.emit binding opcode operands) := by
  obtain ⟨b, hat, hstraight, _⟩ := hopen
  have hb : ∀ {c}, s.block? s.current = some c → c = b := fun hc => Option.some.inj (hc.symm.trans hat)
  have hheld : held ⊆ {d | d ∈ avail s.current ∪ valuesOf b.instrs ∧ d.index < s.supply.instrs} :=
    fun d hd => ⟨h.held hat hd, h.drawn (h.held_subset_values (.inl (Builder.mem_ids_of_block? hat)) hd)⟩
  have hcert : Certified avail held (s.emit binding opcode operands) := by
    refine h.draw.modifyBlock (fun _ hid => hid) (fun _ => ?_) (fun hc => ?_) (fun hc target htarget => ?_)
      (fun hc d hd => ?_) fun hc hinstrs hop => ?_
    · rw [valuesOf_append]
      exact Set.subset_union_left
    · obtain rfl := hb hc
      exact covered_concat.mpr ⟨h.covered hat, fun d hd => hheld (hinputs d hd)⟩
    · obtain ⟨hlt, hsub⟩ := h.edges hc target htarget
      rw [valuesOf_append, ← Set.union_assoc]
      exact ⟨hlt, hsub.trans Set.subset_union_left⟩
    · rw [valuesOf_append] at hd
      rcases hd with hd | hd
      · exact Nat.lt_succ_of_lt (h.drawn ⟨_, _, hc, hd⟩)
      · rw [← (mem_valuesOf_singleton.mp hd).2]
        exact Nat.lt_succ_self _
    · obtain rfl := hb hc
      have hgoes := hstraight.goesOn _ (hinstrs ▸ List.mem_append_right _ List.mem_cons_self)
      rw [hop] at hgoes
      cases hgoes
  split
  · next hyields =>
    refine hcert.withHeld fun {c} hc => Set.insert_subset ?_ (hcert.held hc)
    obtain rfl := Option.some.inj ((Builder.At_emit hat).symm.trans hc)
    rw [valuesOf_append]
    exact .inr (.inr (mem_valuesOf_singleton.mpr ⟨hyields, rfl⟩))
  · exact hcert

theorem replace {bound : Block} {name : String} {value : Operand} (h : Certified avail held s)
    (hat : s.At b) (hbound : b.bindLast? name value = some bound) : Certified avail held (s.replace bound) := by
  have hid : bound.id = s.current := (Block.bindLast?_id hbound).trans (Builder.block?_id hat)
  obtain ⟨init, last, hinstrs, _, _, hyields, _, heq⟩ := Block.bindLast?_eq_some hbound
  have hvalues : valuesOf bound.instrs = valuesOf b.instrs := by
    rw [heq, hinstrs, valuesOf_append, valuesOf_append]
    congr 1
    ext d
    rw [mem_valuesOf_singleton, mem_valuesOf_singleton]
  have hb : ∀ {c}, s.block? s.current = some c → c = b := fun hc => Option.some.inj (hc.symm.trans hat)
  refine h.modifyBlock (fun _ _ => hid) (fun hc => ?_) (fun _ => ?_) (fun _ => ?_) (fun _ d hd => ?_)
    fun hc hinstrs' hop => ?_
  · rw [hb hc, hvalues]
  · have hcovered := h.covered hat
    rw [hinstrs, covered_concat] at hcovered
    rw [heq]
    exact covered_concat.mpr hcovered
  · rw [Block.bindLast?_succs hbound, hvalues]
    exact h.edges hat
  · exact h.drawn ⟨_, b, hat, hvalues ▸ hd⟩
  · -- The last instruction yields a value, so it delivers none.
    obtain rfl := hb hc
    obtain rfl : last = _ := List.head_eq_of_cons_eq (List.append_inj' (hinstrs.symm.trans hinstrs') rfl).2
    rw [hop] at hyields
    cases hyields

/-- An instruction that yields no value leaves those in reach as they are. -/
theorem emitOther {opcode : Opcode} {operands : List Operand} (h : Certified avail held s) (hopen : s.IsOpen)
    (hyields : opcode.yieldsValue = false)
    (hinputs : ∀ d, .instr d ∈ (Instr.mk s.supply.nextInstr opcode operands none).inputs → d ∈ held) :
    Certified avail held (s.emit none opcode operands) := by
  have hemit := h.emit hopen hinputs
  rwa [hyields, if_neg Bool.false_ne_true] at hemit

theorem emitBranch {condition : Operand} (h : Certified avail held s) (hopen : s.IsOpen)
    (hcondition : condition.HeldIn held) : Certified avail held (s.emit none .branch [condition]) := by
  refine h.emitOther hopen rfl fun d hd => ?_
  rw [← List.mem_singleton.mp hd] at hcondition
  exact hcondition

theorem allocs (h : Certified avail held s) (hcurrent : s.current ∈ s.ids)
    (hnew : ∀ k < 3, avail (s.later k) ⊆ held) : Certified avail held s.alloc.alloc.alloc := by
  have hmem : ∀ {s : Builder}, s.current ∈ s.ids → s.alloc.current ∈ s.alloc.ids := by
    intro s h
    rw [Builder.ids_alloc]
    exact List.mem_append_left _ h
  have h₁ := h.alloc (.inl hcurrent) (hnew 0 (by decide))
  have h₂ := h₁.alloc (.inl (hmem hcurrent)) (hnew 1 (by decide))
  exact h₂.alloc (.inl (hmem (hmem hcurrent))) (hnew 2 (by decide))

/-- Control splits into blocks that start with the values of `avail`. -/
theorem split {condition : Operand} (h : Certified avail held s) (hopen : s.IsOpen)
    (hcondition : condition.HeldIn held) (hnew : ∀ k < 3, avail (s.later k) ⊆ held) :
    Certified avail held (s.split condition) := by
  have hcurrent : (s.emit none .branch [condition]).current ∈ (s.emit none .branch [condition]).ids := by
    obtain ⟨b, hat, _⟩ := hopen
    rw [Builder.ids_emit]
    exact Builder.mem_ids_of_block? hat
  have hallocs := (h.emitBranch hopen hcondition).allocs hcurrent hnew
  refine hallocs.link fun hb target htarget => ?_
  have hlater : ∃ k < 3, target = s.later k := by
    rcases List.mem_pair.mp htarget with rfl | rfl
    · exact ⟨0, by decide, rfl⟩
    · exact ⟨1, by decide, rfl⟩
  obtain ⟨k, hk, rfl⟩ := hlater
  exact ⟨Nat.add_lt_add_left hk _, (hnew k hk).trans (hallocs.held hb)⟩

/-- The arms and the join rely on what was held before the branch. -/
theorem openMerge {condition : Operand} {trueFirst : Bool} (h : Certified avail held s) (hopen : s.IsOpen)
    (hcondition : condition.HeldIn held) (hnew : ∀ k < 3, avail (s.later k) = held) :
    Certified avail held (s.openMerge condition trueFirst) := by
  have hsplit : Certified avail held (s.draw.split condition) :=
    h.draw.split hopen hcondition fun k hk => (hnew k hk).subset
  have hopened : Certified avail held
      ((s.draw.split condition).withPhis (s.phis.openPhi s.supply.nextInstr (s.later 2))) := by
    refine hsplit.withPhis fun {phi entry} hfind input hinput => ?_
    by_cases hphi : phi = s.supply.nextInstr
    · rw [hphi, Phi.Recorder.openPhi, Phi.Entries.find?_insert_self] at hfind
      rw [← Option.some.inj hfind] at hinput
      cases hinput
    · rw [Phi.Recorder.openPhi, Phi.Entries.find?_insert_of_ne hphi] at hfind
      exact hsplit.recorded hfind input hinput
  have hfirst : avail (s.firstArm trueFirst) = held := by
    cases trueFirst with
    | true => exact hnew 0 (by decide)
    | false => exact hnew 1 (by decide)
  refine hopened.enter fun _ => ?_
  rw [hfirst]
  exact Set.subset_union_left

/-- The join relies on no value of the arms; the phi takes it over. -/
theorem deliver {phi : InstrId} {join : BlockId} {entry : Phi.Entry} {value : Operand}
    (h : Certified avail held s) (hopen : s.IsOpen) (hentry : s.phis.entries.find? phi = some entry)
    (hvalue : value.HeldIn held) (hlt : join.index < s.supply.blocks) (hjoin : avail join ⊆ held) :
    Certified avail held (s.deliver phi join entry value) := by
  obtain ⟨b, hat, hb⟩ := hopen
  have hemit : Certified avail held (s.emit none .toPhi [.instr phi, value]) := by
    refine h.emitOther ⟨b, hat, hb⟩ rfl fun d hd => ?_
    rw [← List.mem_singleton.mp hd] at hvalue
    exact hvalue
  have hlinked : Certified avail held ((s.emit none .toPhi [.instr phi, value]).link s.current [join]) := by
    refine hemit.link fun hc target htarget => ?_
    rw [List.mem_singleton.mp htarget]
    exact ⟨hlt, hjoin.trans (hemit.held hc)⟩
  have hhere : ((s.emit none .toPhi [.instr phi, value]).link s.current [join]).Delivers s.current phi value :=
    ⟨_, b.instrs, _, Builder.At_link (Builder.At_emit hat), rfl, rfl, rfl⟩
  refine @withPhis _ _ _ ⟨s.phis.entries.insert phi ⟨entry.block, entry.inputs ++ [⟨s.current, value⟩]⟩⟩
    hlinked ?_
  intro phi' entry' hfind input hinput
  by_cases hphi : phi' = phi
  · rw [hphi, Phi.Entries.find?_insert_self] at hfind
    rw [← Option.some.inj hfind] at hinput
    rw [hphi]
    rcases List.mem_append.mp hinput with hinput | hinput
    · exact hlinked.recorded hentry input hinput
    · rw [List.mem_singleton.mp hinput]
      exact hhere
  · rw [Phi.Entries.find?_insert_of_ne hphi] at hfind
    exact hlinked.recorded hfind input hinput

/-- Behind the join the phi is in reach, with what was held before the branch. -/
theorem place {phi : InstrId} {join : BlockId} (h : Certified avail held s)
    (hempty : s.block? join = some (.empty join)) (hphi : phi.index < s.supply.instrs) :
    Certified avail (insert phi (avail join)) (s.place phi join) := by
  have hb : ∀ {c}, s.block? join = some c → c = .empty join := fun hc => Option.some.inj (hc.symm.trans hempty)
  have hplaced : Certified avail ∅ (s.place phi join) := by
    refine h.enterPlain.modifyBlock (fun _ hid => hid) (fun hc => ?_) (fun _ => ?_) (fun hc target htarget => ?_)
      (fun _ d hd => ?_) fun hc hinstrs _ => ?_
    · rw [hb hc, Block.empty, valuesOf_nil]
      exact Set.empty_subset _
    · refine (@covered_concat _ [] _).mpr ⟨covered_nil _, fun d hd => ?_⟩
      cases hd
    · rw [hb hc] at htarget
      cases htarget
    · rw [← (mem_valuesOf_singleton.mp hd).2]
      exact hphi
    · rw [hb hc] at hinstrs
      simp [Block.empty] at hinstrs
  refine hplaced.withHeld fun {c} hc => ?_
  have hinstrs : c.instrs = [⟨phi, .phi, [], none⟩] := by
    change (s.place phi join).block? join = some c at hc
    rw [Builder.block?_place, if_pos rfl, hempty] at hc
    rw [← Option.some.inj hc]
  rw [hinstrs]
  exact Set.insert_subset (.inr (mem_valuesOf_singleton.mpr ⟨rfl, rfl⟩)) Set.subset_union_left

/-! Statements. Their blocks start with no values in reach. -/

theorem fallTo {target : BlockId} (h : Certified avail held s) (htarget : Plain avail s target) :
    Certified avail held (s.fallTo target) := by
  rw [Builder.fallTo]
  split
  · exact h
  · exact h.linkPlain fun t ht => List.mem_singleton.mp ht ▸ htarget

theorem reopen (h : Certified avail ∅ s) (hnew : avail (s.later 0) = ∅) : Certified avail ∅ s.reopen := by
  rw [Builder.reopen]
  split
  · exact (h.alloc (.inr rfl) hnew.subset).enterPlain
  · exact h

/-- The blocks of a loop rely on nothing, for nothing is held between statements. -/
theorem openLoop {testFirst : Bool} (h : Certified avail ∅ s) (hnew : ∀ k < 5, avail (s.later k) = ∅) :
    Certified avail ∅ (s.openLoop testFirst) := by
  have h₁ := h.alloc (.inr rfl) (hnew 0 (by decide)).subset
  have h₂ := h₁.alloc (.inr rfl) (hnew 1 (by decide)).subset
  have h₃ := h₂.alloc (.inr rfl) (hnew 2 (by decide)).subset
  have h₄ := h₃.alloc (.inr rfl) (hnew 3 (by decide)).subset
  have h₅ := h₄.alloc (.inr rfl) (hnew 4 (by decide)).subset
  have hplain : ∀ k < 5, Plain avail s.alloc.alloc.alloc.alloc.alloc (s.later k) :=
    fun k hk => ⟨Nat.add_lt_add_left hk _, hnew k hk⟩
  have hheader : Certified avail ∅ (s.alloc.alloc.alloc.alloc.alloc.link s.current [s.later 2]) :=
    h₅.linkPlain fun t ht => List.mem_singleton.mp ht ▸ hplain 2 (by decide)
  refine (hheader.linkPlain fun t ht => ?_).enterPlain
  rw [List.mem_singleton.mp ht]
  cases testFirst with
  | true => exact hplain 3 (by decide)
  | false => exact hplain 4 (by decide)

theorem openBody {condition : Operand} {body breakEntry : BlockId} {frame : Loop} (h : Certified avail held s)
    (hopen : s.IsOpen) (hcondition : condition.HeldIn held) (hbody : Plain avail s body)
    (hbreak : Plain avail s breakEntry) (hframe : ∀ id ∈ frame.continueEntry :: frame.continues, Plain avail s id) :
    Certified avail ∅ (s.openBody condition body breakEntry frame) := by
  have hlinked : Certified avail held ((s.emit none .branch [condition]).link s.current [body, breakEntry]) := by
    refine (h.emitBranch hopen hcondition).linkPlain fun target htarget => ?_
    rcases List.mem_pair.mp htarget with rfl | rfl
    · exact hbody
    · exact hbreak
  refine (hlinked.withLoops fun l hl => ?_).enterPlain
  rcases List.mem_cons.mp hl with rfl | hl
  · exact hframe
  · exact h.loops l hl

theorem openUpdate {frame : Loop} {outer : List Loop} (h : Certified avail held s)
    (hloops : s.loops = frame :: outer) : Certified avail ∅ (s.openUpdate frame outer) := by
  have houter : Certified avail held (s.withLoops outer) :=
    h.withLoops fun l hl => h.loops l (hloops ▸ List.mem_cons_of_mem frame hl)
  exact (houter.fallTo (h.loops frame (hloops ▸ List.mem_cons_self) _ List.mem_cons_self)).enterPlain

theorem closeContinues {frame : Loop} {header : BlockId} (h : Certified avail held s)
    (hheader : Plain avail s header) (hframe : ∀ id ∈ frame.continues, Plain avail s id) :
    Certified avail held (s.closeContinues frame header) := by
  rw [Builder.closeContinues]
  cases hcontinues : frame.continues with
  | nil => exact h.linkPlain fun t ht => List.mem_singleton.mp ht ▸ hheader
  | cons first rest =>
      have hfirst : Certified avail held (s.link s.current [first]) := by
        refine h.linkPlain fun t ht => hframe t ?_
        rw [List.mem_singleton.mp ht, hcontinues]
        exact List.mem_cons_self
      exact hfirst.linkPlain fun t ht => List.mem_singleton.mp ht ▸ hheader

theorem closeLoop {frame : Loop} {header : BlockId} (h : Certified avail held s)
    (hheader : Plain avail s header) (hframe : ∀ id ∈ frame.continues, Plain avail s id)
    (hnew : avail (s.later 0) = ∅) : Certified avail ∅ (s.closeLoop frame header) := by
  have hlater : (s.closeContinues frame header).later 0 = s.later 0 := by
    rw [Builder.later, Builder.supply_closeContinues, Builder.later]
  rw [← hlater] at hnew
  have hclosed := ((h.closeContinues hheader hframe).mono (Set.empty_subset _)).alloc (.inr rfl) hnew.subset
  refine (hclosed.linkPlain fun t ht => ?_).enterPlain
  rw [List.mem_singleton.mp ht]
  exact ⟨Nat.lt_succ_self _, hnew⟩

/-- Nor does a merge block, which jumps from anywhere lead to. -/
theorem jumpTo {kind : Jump} {inner outer : List Loop} {frame : Loop} (h : Certified avail ∅ s)
    (hloops : s.loops = inner ++ frame :: outer) (hnew : avail (s.later 0) = ∅) :
    Certified avail ∅ (s.jumpTo kind inner frame outer) := by
  have halloc := h.alloc (.inr rfl) hnew.subset
  have hjoin : Plain avail s.alloc (s.later 0) := ⟨Nat.lt_succ_self _, hnew⟩
  have hlinked : Certified avail ∅ (s.alloc.link s.current [s.later 0]) :=
    halloc.linkPlain fun t ht => List.mem_singleton.mp ht ▸ hjoin
  have hold : ∀ l ∈ inner ++ frame :: outer, ∀ id ∈ l.continueEntry :: l.continues, Plain avail s.alloc id :=
    fun l hl => halloc.loops l (by rw [← hloops] at hl; exact hl)
  have hnewLoops : ∀ l ∈ inner ++ frame.extend kind (s.later 0) :: outer,
      ∀ id ∈ l.continueEntry :: l.continues, Plain avail s.alloc id := by
    intro l hl id hid
    rcases List.mem_append.mp hl with hl | hl
    · exact hold l (List.mem_append_left _ hl) id hid
    · rcases List.mem_cons.mp hl with rfl | hl
      · have hframe := hold frame (by simp)
        rcases List.mem_cons.mp hid with rfl | hid
        · rw [Loop.continueEntry_extend]
          exact hframe _ List.mem_cons_self
        · rcases frame.mem_continues_extend hid with hid | rfl
          · exact hframe id (List.mem_cons_of_mem _ hid)
          · exact hjoin
      · exact hold l (by simp [hl]) id hid
  rw [Builder.jumpTo]
  split
  · exact (hlinked.linkPlain fun t ht => List.mem_singleton.mp ht ▸ hjoin).withLoops hnewLoops
  · exact hlinked.withLoops hnewLoops

end Certified

/-- The certificate that gives every block from the `n`th on the values of `held`. -/
def extendAvail (avail : BlockId → Set InstrId) (n : Nat) (held : Set InstrId) : BlockId → Set InstrId :=
  fun id => if id.index < n then avail id else held

theorem agreeBelow_extendAvail {avail : BlockId → Set InstrId} {n : Nat} {held : Set InstrId} :
    AgreeBelow n avail (extendAvail avail n held) :=
  fun _ h => if_pos h

theorem extendAvail_later {avail : BlockId → Set InstrId} {held : Set InstrId} {s : Builder} (k : Nat) :
    extendAvail avail s.supply.blocks held (s.later k) = held :=
  if_neg (Nat.not_lt.mpr (Nat.le_add_right _ k))

/-- Values stay in reach along code. -/
theorem Trace.held_subset {k : Stage} {held held' : Set InstrId} {s t : Builder}
    (h : Trace k held s held' t) : held ⊆ held' := by
  induction h with
  | trans _ _ ih₁ ih₂ => exact ih₁.trans ih₂
  | emit =>
      split
      · exact Set.subset_insert _ _
      · exact subset_refl _
  | merge => exact Set.subset_insert _ _
  | _ => exact subset_refl _

/-- A trace extends every certificate to the blocks that it adds. -/
theorem Trace.certified {k : Stage} {held held' : Set InstrId} {s t : Builder} (h : Trace k held s held' t)
    {avail : BlockId → Set InstrId} (hcert : Certified avail held s) :
    ∃ avail', AgreeBelow s.supply.blocks avail avail' ∧ Certified avail' held' t := by
  induction h generalizing avail with
  | refl | skip => exact ⟨avail, fun _ _ => rfl, hcert⟩
  | draw => exact ⟨avail, fun _ _ => rfl, hcert.draw⟩
  | trans h₁ _ ih₁ ih₂ | seq h₁ _ ih₁ ih₂ =>
      obtain ⟨avail₁, hagree₁, hcert₁⟩ := ih₁ hcert
      obtain ⟨avail₂, hagree₂, hcert₂⟩ := ih₂ hcert₁
      exact ⟨avail₂, hagree₁.trans hagree₂ h₁.supply_le.2, hcert₂⟩
  | emit hready hplain hheld =>
      refine ⟨avail, fun _ _ => rfl, hcert.emit hready.1 fun d hd => ?_⟩
      rw [Instr.inputs, if_neg] at hd
      · exact (hheld _ hd).resolve_right fun ⟨_, _, hblock⟩ => nomatch hblock
      · rintro rfl
        cases hplain
  | rebind _ hat hbound => exact ⟨avail, fun _ _ => rfl, hcert.replace hat hbound⟩
  | @merge held held₁ held₂ s s₁ s₂ condition v₁ v₂ trueFirst e₁ e₂ hready hcondition hfirst hready₁ hv₁ he₁
      hsecond hready₂ hv₂ he₂ hjoin ih₁ ih₂ =>
      -- The arms and the join start with what is in reach here.
      have hsupply₁ : s.supply.blocks + 3 ≤ s₁.supply.blocks := hfirst.supply_le.2
      have hsupply₂ : s₁.supply.blocks ≤ s₂.supply.blocks := hsecond.supply_le.2
      have hlater : ∀ k < 3, (s.later k).index < s.supply.blocks + 3 := fun k hk => Nat.add_lt_add_left hk _
      obtain ⟨avail₁, hagree₁, hcert₁⟩ := ih₁ ((hcert.of_agree agreeBelow_extendAvail).openMerge hready.1
        hcondition fun k _ => extendAvail_later k)
      have hstart₁ : ∀ k < 3, avail₁ (s.later k) = held := fun k hk =>
        (hagree₁ _ (hlater k hk)).trans (extendAvail_later k)
      have hdeliver₁ := hcert₁.deliver hready₁.1 he₁ hv₁ ((hlater 2 (by decide)).trans_le hsupply₁)
        ((hstart₁ 2 (by decide)).subset.trans hfirst.held_subset)
      have hother : avail₁ (s.otherArm trueFirst) = held := by
        cases trueFirst with
        | true => exact hstart₁ 1 (by decide)
        | false => exact hstart₁ 0 (by decide)
      obtain ⟨avail₂, hagree₂, hcert₂⟩ :=
        ih₂ (hdeliver₁.enter fun _ => hother.symm.subset.trans Set.subset_union_left)
      have hjoin₂ : avail₂ (s.later 2) = held :=
        (hagree₂ _ ((hlater 2 (by decide)).trans_le hsupply₁)).trans (hstart₁ 2 (by decide))
      have hdeliver₂ := hcert₂.deliver hready₂.1 he₂ hv₂
        ((hlater 2 (by decide)).trans_le (hsupply₁.trans hsupply₂)) (hjoin₂.subset.trans hsecond.held_subset)
      have hphi : s.supply.nextInstr.index < (s₂.deliver s.supply.nextInstr (s.later 2) e₂ v₂).supply.instrs := by
        have hinstrs₁ : s.supply.instrs + 1 + 1 ≤ s₁.supply.instrs := hfirst.supply_le.1
        have hinstrs₂ : s₁.supply.instrs + 1 ≤ s₂.supply.instrs := hsecond.supply_le.1
        change s.supply.instrs < s₂.supply.instrs + 1
        omega
      have hplaced := hdeliver₂.place hjoin hphi
      rw [hjoin₂] at hplaced
      refine ⟨avail₂, ?_, hplaced⟩
      exact (agreeBelow_extendAvail.trans hagree₁ (Nat.le_add_right _ 3)).trans hagree₂
        ((Nat.le_add_right _ 3).trans hsupply₁)
  | function hbody _ _ =>
      exact ⟨avail, fun _ _ => rfl,
        hcert.of_blocks_eq rfl rfl rfl rfl ((Supply.le_dropBlock _).trans hbody.supply_le)⟩
  | reopen =>
      refine ⟨_, agreeBelow_extendAvail, (hcert.of_agree agreeBelow_extendAvail).reopen (extendAvail_later 0)⟩
  | code _ _ ih =>
      obtain ⟨avail₁, hagree₁, hcert₁⟩ := ih hcert
      exact ⟨avail₁, hagree₁, hcert₁.mono (Set.empty_subset _)⟩
  | ret _ _ hready' hvalue ih =>
      obtain ⟨avail₁, hagree₁, hcert₁⟩ := ih hcert
      refine ⟨avail₁, hagree₁, (hcert₁.emitOther hready'.1 rfl fun d hd => ?_).mono (Set.empty_subset _)⟩
      rw [← List.mem_singleton.mp hd] at hvalue
      exact hvalue
  | @branch held s s₀ s₁ s₂ condition hready htest hready₀ hcondition hconsequent halternate ih₀ ih₁ ih₂ =>
      obtain ⟨avail₀, hagree₀, hcert₀⟩ := ih₀ hcert
      have hsplit := (hcert₀.of_agree agreeBelow_extendAvail).split hready₀.1 hcondition
        fun k _ => (extendAvail_later k).subset.trans (Set.empty_subset _)
      obtain ⟨avail₁, hagree₁, hcert₁⟩ := ih₁ hsplit.enterPlain
      have hjoin₀ : Plain (extendAvail avail₀ s₀.supply.blocks ∅) (s₀.split condition) (s₀.later 2) :=
        ⟨Nat.lt_succ_self _, extendAvail_later 2⟩
      have hjoin₁ : Plain avail₁ s₁ (s₀.later 2) := hjoin₀.of_agree hagree₁ hconsequent.supply_le
      have hsupply₁ : s₁.supply ≤ ((s₁.fallTo (s₀.later 2)).enter (s₀.later 1)).supply :=
        le_of_eq Builder.supply_fallTo.symm
      obtain ⟨avail₂, hagree₂, hcert₂⟩ := ih₂ (hcert₁.fallTo hjoin₁).enterPlain
      have hjoin₂ : Plain avail₂ s₂ (s₀.later 2) :=
        (hjoin₁.of_agree (fun _ _ => rfl) hsupply₁).of_agree hagree₂ halternate.supply_le
      refine ⟨avail₂, ?_, (hcert₂.fallTo hjoin₂).enterPlain⟩
      have hle₁ : s₀.supply.blocks ≤ s₁.supply.blocks := (Nat.le_add_right _ 3).trans hconsequent.supply_le.2
      have hagree := (agreeBelow_extendAvail.trans hagree₁ (Nat.le_add_right _ 3)).trans hagree₂
        (hle₁.trans hsupply₁.2)
      exact hagree₀.trans hagree htest.supply_le.2
  | @loop held held' s s₁ s₂ s₃ condition testFirst labels frame outer hready htest hready₁ hcondition hbody
      hloops hupdate ih₁ ih₂ ih₃ =>
      obtain ⟨avail₁, hagree₁, hcert₁⟩ :=
        ih₁ ((hcert.of_agree agreeBelow_extendAvail).openLoop fun k _ => extendAvail_later k)
      have hplain₁ : ∀ k < 5, Plain avail₁ s₁ (s.later k) := by
        intro k hk
        have hplain : Plain (extendAvail avail s.supply.blocks ∅) (s.openLoop testFirst) (s.later k) :=
          ⟨Nat.add_lt_add_left hk _, extendAvail_later k⟩
        exact hplain.of_agree hagree₁ htest.supply_le
      obtain ⟨avail₂, hagree₂, hcert₂⟩ := ih₂ (hcert₁.openBody hready₁.1 hcondition (hplain₁ 4 (by decide))
        (hplain₁ 1 (by decide)) fun id hid => List.mem_singleton.mp hid ▸ hplain₁ 0 (by decide))
      have hsupply₂ : s₂.supply ≤ (s₂.openUpdate frame outer).supply :=
        le_of_eq (Builder.supply_fallTo (s := s₂.withLoops outer)).symm
      obtain ⟨avail₃, hagree₃, hcert₃⟩ := ih₃ (hcert₂.openUpdate hloops)
      -- What is known of a block while the body is lowered holds until the loop is closed.
      have hplain₃ : ∀ {id}, Plain avail₂ s₂ id → Plain (extendAvail avail₃ s₃.supply.blocks ∅) s₃ id :=
        fun hid => ((hid.of_agree (fun _ _ => rfl) hsupply₂).of_agree hagree₃ hupdate.supply_le).of_agree
          agreeBelow_extendAvail (le_refl _)
      have hheader : Plain avail₂ s₂ (s.later 2) :=
        (hplain₁ 2 (by decide)).of_agree hagree₂ ((Supply.le_dropInstr _).trans hbody.supply_le)
      refine ⟨_, ?_, (hcert₃.of_agree agreeBelow_extendAvail).closeLoop (hplain₃ hheader) (fun id hid => ?_)
        (extendAvail_later 0)⟩
      · have hle₁ : s.supply.blocks ≤ s₁.supply.blocks := (Nat.le_add_right _ 5).trans htest.supply_le.2
        have hle₂ : s₁.supply.blocks ≤ s₂.supply.blocks := hbody.supply_le.2
        have hle₃ : s₂.supply.blocks ≤ s₃.supply.blocks := hsupply₂.2.trans hupdate.supply_le.2
        have hbody₂ := (agreeBelow_extendAvail.trans hagree₁ (Nat.le_add_right _ 5)).trans hagree₂ hle₁
        have hupdate₃ := hbody₂.trans hagree₃ ((hle₁.trans hle₂).trans hsupply₂.2)
        exact hupdate₃.trans agreeBelow_extendAvail ((hle₁.trans hle₂).trans hle₃)
      · exact hplain₃ (hcert₂.loops frame (hloops ▸ List.mem_cons_self) id (List.mem_cons_of_mem _ hid))
  | jump _ hloops _ _ =>
      exact ⟨_, agreeBelow_extendAvail,
        (hcert.of_agree agreeBelow_extendAvail).jumpTo hloops (extendAvail_later 0)⟩

end ScriptSsa
