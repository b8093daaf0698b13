import Mathlib.Tactic.ByContra
import ScriptSsa.Proofs.LoweringTrace

/-!
The graphs of a construction are well-formed control-flow graphs.

At the end of a function nothing waits any more, so every block but the current one is closed. The shape of a
graph is then read off its blocks one by one.
-/

namespace ScriptSsa

/-- The last instruction of the block has this opcode. -/
def Block.EndsIn (b : Block) (opcode : Opcode) : Prop := ∃ last, b.instrs.getLast? = some last ∧ last.opcode = opcode

/-- What is required of a block, apart from where its successors are. -/
structure Block.WellFormed (b : Block) : Prop where
  atMostTwo : b.succs.length ≤ 2
  two_iff : b.succs.length = 2 ↔ b.EndsIn .branch
  distinct : b.succs.Nodup
  endsLast : ∀ i ∈ b.instrs.dropLast, i.opcode ≠ .branch ∧ i.opcode ≠ .ret ∧ i.opcode ≠ .toPhi
  phiFirst : ∀ i ∈ b.instrs.tail, i.opcode ≠ .phi
  ret : b.EndsIn .ret → b.succs = []
  deliver : b.EndsIn .toPhi → b.succs.length = 1

/-- Control falls off the end of the function in the block. -/
def Block.FallsOff (b : Block) : Prop := b.succs = [] ∧ ¬b.EndsIn .ret

structure Graph.WellFormed (g : Graph) : Prop where
  entryFirst : g.blocks.head?.map Block.id = some g.entry
  entryApart : ∀ b ∈ g.blocks, g.entry ∉ b.succs
  nodup : (g.blocks.map Block.id).Nodup
  succsInside : ∀ b ∈ g.blocks, ∀ id ∈ b.succs, id ∈ g.blocks.map Block.id
  block : ∀ b ∈ g.blocks, b.WellFormed
  /-- Control falls off the end in one place at most. -/
  oneEnd : ∀ b ∈ g.blocks, ∀ c ∈ g.blocks, b.FallsOff → c.FallsOff → b = c

theorem Straight.not_endsIn {b : Block} {opcode : Opcode} (h : Straight b.instrs)
    (hends : opcode.endsBlock = true) : ¬b.EndsIn opcode := by
  rintro ⟨last, hlast, rfl⟩
  rw [h.goesOn last (List.mem_of_getLast? hlast)] at hends
  cases hends

theorem Straight.endsLast {instrs : List Instr} (h : Straight instrs) :
    ∀ i ∈ instrs, i.opcode ≠ .branch ∧ i.opcode ≠ .ret ∧ i.opcode ≠ .toPhi := by
  intro i hi
  have hgoes := h.goesOn i hi
  refine ⟨?_, ?_, ?_⟩ <;> · intro heq; rw [heq] at hgoes; cases hgoes

namespace Block

variable {id : BlockId} {instrs : List Instr} {last : Instr} {succs : List BlockId}

theorem endsIn_concat {opcode : Opcode} :
    (Block.mk id (instrs ++ [last]) succs).EndsIn opcode ↔ last.opcode = opcode := by
  simp [EndsIn]

theorem wellFormed_of_straight {b : Block} (h : Straight b.instrs) (hsuccs : b.succs.length ≤ 1) :
    b.WellFormed where
  atMostTwo := by omega
  two_iff := by
    refine ⟨fun htwo => ?_, fun hends => absurd hends (h.not_endsIn rfl)⟩
    omega
  distinct := by
    rcases hb : b.succs with _ | ⟨target, _ | _⟩
    · exact List.nodup_nil
    · exact List.nodup_singleton _
    · simp [hb] at hsuccs
  endsLast i hi := h.endsLast i (List.dropLast_subset _ hi)
  phiFirst := h.phiFirst
  ret hends := absurd hends (h.not_endsIn rfl)
  deliver hends := absurd hends (h.not_endsIn rfl)

theorem wellFormed_concat (h : Straight instrs) (hlast : last.opcode ≠ .phi) (hsuccs : succs.length ≤ 2)
    (hdistinct : succs.Nodup) (htwo : succs.length = 2 ↔ last.opcode = .branch)
    (hret : last.opcode = .ret → succs = []) (hdeliver : last.opcode = .toPhi → succs.length = 1) :
    (Block.mk id (instrs ++ [last]) succs).WellFormed where
  atMostTwo := hsuccs
  two_iff := by rw [endsIn_concat, htwo]
  distinct := hdistinct
  endsLast i hi := h.endsLast i (by simpa using hi)
  phiFirst := h.phiFirst_concat hlast
  ret hends := hret (endsIn_concat.mp hends)
  deliver hends := hdeliver (endsIn_concat.mp hends)

theorem IsClosed.wellFormed {b : Block} (h : b.IsClosed) : b.WellFormed := by
  cases h with
  | jump h => exact wellFormed_of_straight h (Nat.le_refl 1)
  | deliver h hlast =>
      refine wellFormed_concat h ?_ (Nat.le_succ 1) (List.nodup_singleton _) ?_ ?_ fun _ => rfl
      all_goals simp [hlast]
  | branch h hlast hne =>
      refine wellFormed_concat h ?_ (Nat.le_refl 2) (by simpa using hne) ?_ ?_ ?_
      all_goals simp [hlast]
  | ret h hlast =>
      refine wellFormed_concat h ?_ (Nat.zero_le 2) List.nodup_nil ?_ (fun _ => rfl) ?_
      all_goals simp [hlast]

theorem IsClosed.not_fallsOff {b : Block} (h : b.IsClosed) : ¬b.FallsOff := by
  rintro ⟨hsuccs, hret⟩
  cases h with
  | jump | deliver | branch => cases hsuccs
  | ret _ hlast => exact hret (endsIn_concat.mpr hlast)

end Block

/-- At the end of a function no block waits, and control has left every block but perhaps the last one. -/
theorem Graph.Built.sound {g : Graph} (h : g.Built) :
    ∃ t : Builder, Sound [] t ∧ (t.IsOpen ∨ t.IsClosed) ∧ g.blocks = t.blocks ∧ [g.entry] <+: t.ids := by
  obtain ⟨s, t, htrace, _, hentry, hblocks⟩ := h
  obtain ⟨hsound, hempty⟩ := s.sound_nested
  obtain ⟨hsound', hfits⟩ := @Keeps.sound _ _ _ htrace.keeps [] hsound (.inl (Builder.isOpen_of_empty hempty))
  have hloops : t.loops = [] := List.forall₂_nil_left_iff.mp htrace.loops_grow
  rw [Builder.loopsWaiting, hloops] at hsound'
  rw [hentry]
  exact ⟨t, hsound', hfits, hblocks, htrace.ids_prefix⟩

theorem Graph.Built.wellFormed {g : Graph} (h : g.Built) : g.WellFormed := by
  obtain ⟨t, hsound, hfits, hblocks, rest, hids⟩ := h.sound
  have hclosed : ∀ b ∈ t.blocks, b.id ≠ t.current → b.IsClosed := fun b hb hne =>
    hsound.closed (Builder.block?_of_mem hsound.nodup hb) hne (fun hmem => nomatch hmem)
  have hcurrent : ∀ b ∈ t.blocks, b.id = t.current → b.IsOpen ∨ b.IsClosed := by
    intro b hb hid
    have hat : t.block? t.current = some b := hid ▸ Builder.block?_of_mem hsound.nodup hb
    rcases hfits with ⟨c, hc, hopen⟩ | ⟨c, hc, hclosed⟩
    · exact .inl (Option.some.inj (hc.symm.trans hat) ▸ hopen)
    · exact .inr (Option.some.inj (hc.symm.trans hat) ▸ hclosed)
  have hsuccs : ∀ b ∈ t.blocks, ∀ id ∈ b.succs, id ∈ t.ids.tail := fun b hb =>
    hsound.succs (Builder.block?_of_mem hsound.nodup hb)
  have hids' : t.blocks.map Block.id = g.entry :: rest := hids.symm
  have hentry : g.entry ∉ rest := (List.nodup_cons.mp (hids' ▸ hsound.nodup)).1
  have htail : t.ids.tail = rest := by rw [← hids]; rfl
  rw [htail] at hsuccs
  constructor
  case entryFirst =>
    rw [hblocks, ← List.head?_map, hids']
    rfl
  case entryApart => exact fun b hb hmem => hentry (hsuccs b (hblocks ▸ hb) _ hmem)
  case nodup =>
    rw [hblocks]
    exact hsound.nodup
  case succsInside =>
    intro b hb id hid
    rw [hblocks, hids']
    exact List.mem_cons_of_mem _ (hsuccs b (hblocks ▸ hb) id hid)
  case block =>
    intro b hb
    rw [hblocks] at hb
    by_cases hid : b.id = t.current
    · rcases hcurrent b hb hid with hopen | hclosed
      · exact Block.wellFormed_of_straight hopen.straight (by rw [hopen.succs]; exact Nat.zero_le 1)
      · exact hclosed.wellFormed
    · exact (hclosed b hb hid).wellFormed
  case oneEnd =>
    intro b hb c hc hbEnd hcEnd
    rw [hblocks] at hb hc
    have hat : ∀ x ∈ t.blocks, x.FallsOff → x.id = t.current := by
      intro x hx hend
      by_contra hne
      exact (hclosed x hx hne).not_fallsOff hend
    exact List.inj_on_of_nodup_map hsound.nodup hb hc ((hat b hb hbEnd).trans (hat c hc hcEnd).symm)

/-- Every graph of a construction is a well-formed control-flow graph. -/
theorem constructed_wellFormed (p : Program) (supply : Supply) (graphs : List Graph)
    (h : (constructWith p supply).1 = .ok graphs) : ∀ g ∈ graphs, g.WellFormed :=
  fun g hg => (built_of_constructUsing h g hg).wellFormed

/-- `while (a && b) { if (c) break; continue; } return function () {};` -/
def loopScript : Program :=
  ⟨[.whileLoop (.logical .and (.ident "a") (.ident "b"))
      (.block [.branch (.ident "c") (.jump .exit none) none, .jump .next none]),
    .ret (some (.function (.plain none [] [])))]⟩

def loopGraphs : List Graph := (constructWith loopScript .fresh).1.toOption.getD []

theorem constructed_wellFormed_loop :
    (constructWith loopScript .fresh).1 = .ok loopGraphs ∧
    loopGraphs.map (fun g => g.blocks.length) = [15, 1] ∧ ∀ g ∈ loopGraphs, g.WellFormed :=
  ⟨by decide +kernel, by decide +kernel, constructed_wellFormed loopScript .fresh loopGraphs (by decide +kernel)⟩

end ScriptSsa
