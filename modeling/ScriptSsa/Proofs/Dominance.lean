import Mathlib.Data.List.Pairwise
import ScriptSsa.Proofs.Availability
import ScriptSsa.Proofs.LoweringTrace
import ScriptSsa.Proofs.Numbering

/-!
Definitions dominate uses.

The certificate of a finished graph says which values are in reach where a block starts. On a path from the
entry such a value can only have come from an instruction in a block that the path has gone through, and ids
are unique in a graph, so it is the same block for every path.
-/

namespace ScriptSsa

namespace Graph

/-- `g.Path visited id` is a way along the edges from the entry to the block `id`; `visited` are the blocks it
goes through before it gets there. -/
inductive Path (g : Graph) : List BlockId → BlockId → Prop where
  | entry : g.Path [] g.entry
  | step {visited : List BlockId} {id next : BlockId} (h : g.Path visited id) (hedge : (id, next) ∈ g.edges) :
      g.Path (visited ++ [id]) next

/-- At a place in the block `b`, behind the instructions `before`, the value `d` is known: it is that of exactly
one instruction, which stands among those before it or in a block that every path to `b` visits first. -/
def Defines (g : Graph) (d : InstrId) (b : Block) (before : List Instr) : Prop :=
  (g.instrs.map Instr.id).count d = 1 ∧ ∃ i, i.id = d ∧ i.opcode.yieldsValue = true ∧
    (i ∈ before ∨ ∃ c ∈ g.blocks, i ∈ c.instrs ∧ ∀ visited, g.Path visited b.id → c.id ∈ visited)

/-- Values are known where they are used. -/
structure DefinesUses (g : Graph) : Prop where
  inputs : ∀ b ∈ g.blocks, ∀ before u after, b.instrs = before ++ u :: after →
    ∀ d, .instr d ∈ u.inputs → d.index < u.id.index ∧ g.Defines d b before
  phis : ∀ u ∈ g.instrs, u.opcode = .toPhi → ∃ phi value, u.operands = [.instr phi, value] ∧
    ∃ i ∈ g.instrs, i.opcode = .phi ∧ i.id = phi
  /-- What flows into a phi is known at the end of the block that it comes from. -/
  table : ∀ e ∈ g.phis.entries, ∀ input ∈ e.2.inputs, ∀ d, input.value = .instr d →
    ∃ b ∈ g.blocks, b.id = input.source ∧ g.Defines d b b.instrs ∧
      ∃ last, b.instrs.getLast? = some last ∧ d.index < last.id.index

end Graph

/-- A graph with a certificate, and with unique ids. -/
structure Graph.Certified (g : Graph) (avail : BlockId → Set InstrId) : Prop where
  nodup : (g.instrs.map Instr.id).Nodup
  entry : avail g.entry = ∅
  covered : ∀ b ∈ g.blocks, Covered (avail b.id) b.instrs
  edges : ∀ b ∈ g.blocks, ∀ target ∈ b.succs, avail target ⊆ avail b.id ∪ valuesOf b.instrs
  known : ∀ b ∈ g.blocks, ∀ d ∈ avail b.id, ∃ c ∈ g.blocks, d ∈ valuesOf c.instrs

namespace Graph.Certified

variable {g : Graph} {avail : BlockId → Set InstrId} {b c : Block} {i j : Instr}

/-- An id stands in one block only. -/
theorem block_eq (h : g.Certified avail) (hb : b ∈ g.blocks) (hi : i ∈ b.instrs) (hc : c ∈ g.blocks)
    (hj : j ∈ c.instrs) (hid : i.id = j.id) : b = c := by
  have hnodup := h.nodup
  rw [Graph.instrs, List.map_flatMap, List.nodup_flatMap] at hnodup
  have hsymm : Std.Symm (Function.onFun List.Disjoint fun b : Block => b.instrs.map Instr.id) :=
    ⟨fun _ _ hdisjoint _ hleft hright => hdisjoint hright hleft⟩
  by_contra hne
  exact hnodup.2.forall hb hc hne (List.mem_map_of_mem hi) (hid ▸ List.mem_map_of_mem hj)

/-- On every path, a value that is in reach where a block starts comes from a block that was visited. -/
theorem visited_of_path (h : g.Certified avail) {visited : List BlockId} {id : BlockId}
    (hpath : g.Path visited id) {d : InstrId} (hd : d ∈ avail id) :
    ∃ c ∈ g.blocks, d ∈ valuesOf c.instrs ∧ c.id ∈ visited := by
  induction hpath with
  | entry =>
      rw [h.entry] at hd
      cases hd
  | step _ hedge ih =>
      obtain ⟨b, hb, rfl, htarget⟩ := Graph.mem_edges.mp hedge
      rcases h.edges b hb _ htarget hd with hd | hd
      · obtain ⟨c, hc, hvalue, hvisited⟩ := ih hd
        exact ⟨c, hc, hvalue, List.mem_append_left _ hvisited⟩
      · exact ⟨b, hb, hd, List.mem_append_right _ (List.mem_singleton.mpr rfl)⟩

theorem defines (h : g.Certified avail) (hb : b ∈ g.blocks) {before : List Instr} (hbefore : before ⊆ b.instrs)
    {d : InstrId} (hd : d ∈ avail b.id ∪ valuesOf before) : g.Defines d b before := by
  have hcount : ∀ {c i}, c ∈ g.blocks → i ∈ c.instrs → i.id = d → (g.instrs.map Instr.id).count d = 1 := by
    rintro c i hc hi rfl
    exact List.count_eq_one_of_mem h.nodup (List.mem_map_of_mem (List.mem_flatMap.mpr ⟨c, hc, hi⟩))
  rcases hd with hd | ⟨i, hi, hyields, hid⟩
  · obtain ⟨c, hc, i, hi, hyields, hid⟩ := h.known b hb d hd
    refine ⟨hcount hc hi hid, i, hid, hyields, .inr ⟨c, hc, hi, fun visited hpath => ?_⟩⟩
    obtain ⟨c', hc', ⟨i', hi', _, hid'⟩, hvisited⟩ := h.visited_of_path hpath hd
    rwa [h.block_eq hc hi hc' hi' (hid.trans hid'.symm)]
  · exact ⟨hcount hb (hbefore hi) hid, i, hid, hyields, .inl hi⟩

theorem inputs (h : g.Certified avail) (hb : b ∈ g.blocks) {before after : List Instr} {u : Instr}
    (hinstrs : b.instrs = before ++ u :: after) {d : InstrId} (hd : .instr d ∈ u.inputs) :
    d.index < u.id.index ∧ g.Defines d b before := by
  obtain ⟨hreach, hlt⟩ := h.covered b hb before u after hinstrs _ hd
  exact ⟨hlt, h.defines hb (hinstrs ▸ List.subset_append_left _ _) hreach⟩

end Graph.Certified

theorem Graph.Defines.mono {g : Graph} {d : InstrId} {b : Block} {before before' : List Instr}
    (h : g.Defines d b before) (hsub : before ⊆ before') : g.Defines d b before' := by
  obtain ⟨hcount, i, hid, hyields, hplace⟩ := h
  exact ⟨hcount, i, hid, hyields, hplace.imp_left fun hi => hsub hi⟩

theorem Builder.certified_nested (s : Builder) : Certified (fun _ => ∅) ∅ s.nested := by
  obtain ⟨hsound, hat⟩ := s.sound_nested
  have hblock : ∀ {id b}, s.nested.block? id = some b → b = .empty s.supply.nextBlock := by
    intro id b hb
    have hid : id = s.nested.current := List.mem_singleton.mp (mem_ids_of_block? hb)
    exact Option.some.inj ((hid ▸ hb).symm.trans hat)
  refine ⟨hsound.fresh, ⟨_, rfl, rfl⟩, fun hb => ?_, fun hb target htarget => ?_, fun _ => Set.empty_subset _, ?_,
    fun _ => Set.empty_subset _, (fun _ hl => nomatch hl), fun hfind => nomatch hfind⟩
  · rw [hblock hb]
    exact covered_nil _
  · rw [hblock hb] at htarget
    cases htarget
  · rintro d ⟨id, b, hb, hd⟩
    rw [hblock hb, Block.empty, valuesOf_nil] at hd
    cases hd

namespace Graph.Built

variable {g : Graph}

/-- The instructions of a finished graph have ids of their own, and every `toPhi` names a phi among them. -/
theorem placed (h : g.Built) : (g.instrs.map Instr.id).Nodup ∧ PhisPlaced ∅ (g.instrs.map Instr.bare) := by
  obtain ⟨s, t, htrace, _, _, hblocks⟩ := h
  obtain ⟨new, hadds, hplaced⟩ := htrace.grows
  have hnew : t.bare.Perm new := by simpa [Builder.bare, Builder.nested, Block.empty] using hadds.bare
  have hbare : g.instrs.map Instr.bare = t.bare := by
    rw [Graph.instrs, hblocks, List.map_flatMap, Builder.bare]
  have hids : g.instrs.map Instr.id = t.bare.map Instr.id := by
    rw [← hbare, List.map_map]
    rfl
  rw [hids, hbare]
  refine ⟨(hnew.map _).nodup_iff.mpr hadds.nodup, fun i hi hop => ?_⟩
  obtain ⟨phi, value, hoperands, hphi⟩ := hplaced i (hnew.mem_iff.mp hi) hop
  refine ⟨phi, value, hoperands, hphi.imp_right ?_⟩
  rintro ⟨j, hj, hplace⟩
  exact ⟨j, hnew.mem_iff.mpr hj, hplace⟩

/-- The finished graph has a certificate, and what flows into a phi is delivered where it comes from. -/
theorem certified (h : g.Built) : ∃ avail, g.Certified avail ∧
    ∀ e ∈ g.phis.entries, ∀ input ∈ e.2.inputs, ∃ b ∈ g.blocks, b.id = input.source ∧
      ∃ init u, b.instrs = init ++ [u] ∧ u.opcode = .toPhi ∧ u.operands = [.instr e.1, input.value] := by
  obtain ⟨hnodup, _⟩ := h.placed
  obtain ⟨s, t, htrace, hphis, hentry, hblocks⟩ := h
  obtain ⟨avail, _, hcert⟩ := htrace.certified s.certified_nested
  obtain ⟨_, _, hsound⟩ := htrace.ready s.ready_nested.flow
  have hblock : ∀ {b}, b ∈ g.blocks → t.block? b.id = some b :=
    fun hb => Builder.block?_of_mem hsound.nodup (hblocks ▸ hb)
  refine ⟨avail, ⟨hnodup, ?_, fun b hb => hcert.covered (hblock hb), fun b hb target htarget =>
    (hcert.edges (hblock hb) target htarget).2, fun b hb d hd => ?_⟩, fun e he input hinput => ?_⟩
  · obtain ⟨rest, hids⟩ := htrace.ids_prefix
    obtain ⟨id, hid, hempty⟩ := hcert.entry
    rw [← hids] at hid
    rw [hentry, ← hempty]
    exact congrArg avail (Option.some.inj hid)
  · obtain ⟨id, c, hc, hvalue⟩ := hcert.known (Builder.mem_ids_of_block? (hblock hb)) hd
    exact ⟨c, hblocks ▸ Builder.mem_of_block? hc, hvalue⟩
  · rw [Phi.Recorder.finish_entries hphis] at he
    have hfind := Phi.Entries.find?_of_mem (htrace.phis_keep.nodup List.nodup_nil) he
    obtain ⟨b, init, u, hb, hu⟩ := hcert.recorded hfind input hinput
    exact ⟨b, hblocks ▸ Builder.mem_of_block? hb, Builder.block?_id hb, init, u, hu⟩

theorem definesUses (h : g.Built) : g.DefinesUses := by
  obtain ⟨avail, hcert, hdelivers⟩ := h.certified
  refine ⟨fun b hb before u after hinstrs d hd => hcert.inputs hb hinstrs hd, fun u hu hop => ?_,
    fun e he input hinput d hd => ?_⟩
  · obtain ⟨phi, value, hoperands, hphi⟩ := h.placed.2 u.bare (List.mem_map_of_mem hu) hop
    obtain ⟨_, hj, hplace⟩ := hphi.resolve_left (Set.notMem_empty phi)
    obtain ⟨i, hi, rfl⟩ := List.mem_map.mp hj
    exact ⟨phi, value, hoperands, i, hi, hplace⟩
  · obtain ⟨b, hb, hid, init, u, hinstrs, hop, hoperands⟩ := hdelivers e he input hinput
    have hused : .instr d ∈ u.inputs := by
      rw [Instr.inputs, if_pos hop, hoperands, hd]
      exact List.mem_singleton.mpr rfl
    obtain ⟨hlt, hdefines⟩ := hcert.inputs hb hinstrs hused
    refine ⟨b, hb, hid, hdefines.mono ?_, u, by simp [hinstrs], hlt⟩
    rw [hinstrs]
    exact List.subset_append_left _ _

end Graph.Built

/-- Every value that a constructed graph uses is defined once, before its use on every path. -/
theorem definitions_dominate_uses (p : Program) (supply : Supply) (graphs : List Graph)
    (h : (constructWith p supply).1 = .ok graphs) : ∀ g ∈ graphs, g.DefinesUses :=
  fun g hg => (built_of_constructUsing h g hg).definesUses

/-- `while (a + (b && c)) x = d(e ? f : g); (function (y) { return y || a; });` -/
def mergeScript : Program :=
  ⟨[.whileLoop (.binary .add (.ident "a") (.logical .and (.ident "b") (.ident "c")))
      (.expr (.assign .assign (.ident "x")
        (.call (.ident "d") [.conditional (.ident "e") (.ident "f") (.ident "g")]))),
    .expr (.function (.plain none ["y"] [.ret (some (.logical .or (.ident "y") (.ident "a")))]))]⟩

def mergeGraphs : List Graph := (constructWith mergeScript .fresh).1.toOption.getD []

theorem definitions_dominate_uses_merge :
    (constructWith mergeScript .fresh).1 = .ok mergeGraphs ∧
    mergeGraphs.map (fun g => (g.instrs.length, g.phis.size)) = [(22, 2), (7, 1)] ∧
    ∀ g ∈ mergeGraphs, g.DefinesUses :=
  ⟨by decide +kernel, by decide +kernel,
    definitions_dominate_uses mergeScript .fresh mergeGraphs (by decide +kernel)⟩

end ScriptSsa
