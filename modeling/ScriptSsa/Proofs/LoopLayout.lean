import ScriptSsa.Proofs.Acceptance
import ScriptSsa.Proofs.JumpChains

/-!
The loops of a function in its graph.

`Charts s sites t` says of the way from one builder to another that the sites are those that lie on it: the charts
of the loops that are open get the jumps to them, and the loops that are opened and closed on the way have their
chains. What comes later adds no edges to the blocks of a closed loop, because its merge blocks are in the chains of
no other loop. There is one rule for each way that statements are put together; the syntax then only says which
rule applies where.
-/

namespace ScriptSsa

theorem Loop.AddsOutside.mem_joins {ids : Set BlockId} {ls ls' : List Loop} {id : BlockId}
    (h : List.Forall₂ (AddsOutside ids) ls ls') (hid : id ∈ ls'.flatMap Loop.joins) :
    id ∈ ls.flatMap Loop.joins ∨ id ∉ ids := by
  induction h with
  | nil => cases hid
  | cons hadds _ ih =>
      rw [List.flatMap_cons, List.mem_append] at hid ⊢
      rcases hid with hid | hid
      · exact (hadds id hid).imp_left .inl
      · exact (ih hid).imp_left .inr

/-- The merge blocks that a trace adds are new. -/
theorem Trace.mem_joins {k : Stage} {held held' : Set InstrId} {s t : Builder} {id : BlockId}
    (h : Trace k held s held' t) (hid : id ∈ t.joins) : id ∈ s.joins ∨ id ∉ s.supply.taken :=
  Loop.AddsOutside.mem_joins h.joins_new hid

/-- The loop was opened and closed between the two builders. -/
structure LoopSite.Settled (s t : Builder) (l : LoopSite) : Prop where
  chained : l.Chained t.blocks
  new : ∀ id ∈ l.watched, id ∉ s.supply.taken
  taken : ∀ id ∈ l.watched, id ∈ t.supply.taken
  apart : ∀ id ∈ l.watched, id ∉ t.joins

namespace LoopSite.Settled

variable {s s' t u : Builder} {l : LoopSite} {ids : Set BlockId}

theorem spared (h : l.Settled s t) (hspares : Spares ids t.blocks u.blocks) (hids : ∀ id ∈ l.watched, id ∈ ids)
    (hsupply : t.supply ≤ u.supply) (hjoins : ∀ id ∈ u.joins, id ∈ t.joins ∨ id ∉ t.supply.taken) :
    l.Settled s u where
  chained := h.chained.spared hspares hids
  new := h.new
  taken id hid := Supply.taken_mono hsupply (h.taken id hid)
  apart id hid hmem := (hjoins id hmem).elim (h.apart id hid) fun hnew => hnew (h.taken id hid)

theorem trace {k : Stage} {held held' : Set InstrId} (h : l.Settled s t) (htrace : Trace k held t held' u) :
    l.Settled s u :=
  h.spared htrace.spares h.taken htrace.supply_le fun _ => htrace.mem_joins

theorem of_le (h : l.Settled s t) (hsupply : s'.supply ≤ s.supply) : l.Settled s' t :=
  { h with new := fun id hid hmem => h.new id hid (Supply.taken_mono hsupply hmem) }

end LoopSite.Settled

/-- The sites are what lies between the two builders. -/
def Charts (s : Builder) (sites : List Site) (t : Builder) : Prop :=
  ∀ charts, Framed s charts →
    Framed t (record sites (fun _ => true) charts) ∧ ∀ l ∈ loopsOf sites, l.Settled s t

theorem Framed.trace {s t : Builder} {held held' : Set InstrId} {charts : List Chart} (h : Framed s charts)
    (htrace : Trace .code held s held' t) : Framed t charts :=
  h.spared htrace.spares h.taken (htrace.loops_eq rfl) htrace.supply_le

namespace Charts

variable {s t u : Builder} {sites sites' : List Site} {held held' : Set InstrId}

/-- Where no loop is opened, closed or left. -/
theorem quiet (hspares : Spares s.supply.taken s.blocks t.blocks) (hloops : t.loops = s.loops)
    (hsupply : s.supply ≤ t.supply) : Charts s [] t := by
  intro charts h
  rw [record_nil]
  exact ⟨h.spared hspares h.taken hloops hsupply, fun _ hl => nomatch hl⟩

theorem trans {k : Stage} (h : Charts s sites t) (h' : Charts t sites' u) (hsupply : s.supply ≤ t.supply)
    (htrace : Trace k held t held' u) : Charts s (sites ++ sites') u := by
  intro charts hs
  obtain ⟨ht, hsettled⟩ := h charts hs
  obtain ⟨hu, hsettled'⟩ := h' _ ht
  rw [record_append, loopsOf_append]
  refine ⟨hu, fun l hl => ?_⟩
  rcases List.mem_append.mp hl with hl | hl
  · exact (hsettled l hl).trace htrace
  · exact (hsettled' l hl).of_le hsupply

theorem jump {kind : Jump} {label : Option String} {inner outer : List Loop} {frame : Loop}
    (hready : Stage.code.Ready s) (hloops : s.loops = inner ++ frame :: outer)
    (hinner : ∀ l ∈ inner, l.accepts label = false) (haccepts : frame.accepts label = true) :
    Charts s [.jump kind label s.current (s.later 0)] (s.jumpTo kind inner frame outer) :=
  fun _ h => ⟨h.jumpTo hready hloops hinner haccepts, fun _ hl => nomatch hl⟩

/-- A fall through to a block that was there before, and that is no merge block of a loop. -/
theorem fallTo {target next : BlockId} (h : Charts s sites t) (hready : Stage.flow.Ready t)
    (htaken : target ∈ s.supply.taken) (hjoins : target ∉ t.joins) :
    Charts s sites ((t.fallTo target).enter next) := by
  intro charts hs
  obtain ⟨ht, hsettled⟩ := h charts hs
  have hspares : Spares {id | id ≠ target} t.blocks (t.fallTo target).blocks := .fallTo hready fun hne => hne rfl
  have hsupply : t.supply ≤ (t.fallTo target).supply := le_of_eq Builder.supply_fallTo.symm
  have hloops : (t.fallTo target).loops = t.loops := Builder.loops_fallTo
  refine ⟨ht.spared hspares ?_ hloops hsupply, fun l hl => (hsettled l hl).spared hspares ?_ hsupply ?_⟩
  · rintro id hid rfl
    exact hjoins hid
  · rintro id hid rfl
    exact (hsettled l hl).new id hid htaken
  · intro id hid
    left
    change id ∈ (t.fallTo target).loops.flatMap Loop.joins at hid
    rwa [hloops] at hid

theorem branch {condition : Operand} {s₀ s₁ s₂ : Builder} (hready : Stage.code.Ready s)
    (htest : Trace .code ∅ s held s₀) (htrace₁ : Trace .flow ∅ ((s₀.split condition).enter (s₀.later 0)) ∅ s₁)
    (h₁ : Charts ((s₀.split condition).enter (s₀.later 0)) sites s₁)
    (htrace₂ : Trace .flow ∅ ((s₁.fallTo (s₀.later 2)).enter (s₀.later 1)) ∅ s₂)
    (h₂ : Charts ((s₁.fallTo (s₀.later 2)).enter (s₀.later 1)) sites' s₂) :
    Charts s (sites ++ sites') ((s₂.fallTo (s₀.later 2)).enter (s₀.later 2)) := by
  intro charts hs
  have hready₀ := htest.ready hready
  have hready₁ := htrace₁.ready hready₀.consequent
  have hready₂ := htrace₂.ready (hready₀.alternate htrace₁)
  have hframed₀ := hs.trace htest
  have hnew : ∀ k, s₀.later k ∉ s₀.supply.taken := Builder.later_notMem_taken (le_refl _)
  have hframed : Framed ((s₀.split condition).enter (s₀.later 0)) charts :=
    hframed₀.spared (.split hready₀ fun k _ => hnew k) hframed₀.taken rfl Builder.supply_le_split
  -- The join of the branch is no merge block of a loop.
  have htaken : s₀.later 2 ∈ ((s₀.split condition).enter (s₀.later 0)).supply.taken :=
    Nat.lt_succ_self (s₀.supply.blocks + 2)
  have hjoins₁ : s₀.later 2 ∉ s₁.joins := fun hmem =>
    (htrace₁.mem_joins hmem).elim (fun hmem => hnew 2 (hframed₀.taken _ hmem)) fun hnot => hnot htaken
  have hloops : ((s₁.fallTo (s₀.later 2)).enter (s₀.later 1)).joins = s₁.joins := by
    change (s₁.fallTo (s₀.later 2)).loops.flatMap Loop.joins = _
    rw [Builder.loops_fallTo]
    rfl
  have hsupply : ((s₀.split condition).enter (s₀.later 0)).supply ≤
      ((s₁.fallTo (s₀.later 2)).enter (s₀.later 1)).supply :=
    htrace₁.supply_le.trans (le_of_eq Builder.supply_fallTo.symm)
  have hjoins₂ : s₀.later 2 ∉ s₂.joins := fun hmem =>
    (htrace₂.mem_joins hmem).elim (hloops ▸ hjoins₁) fun hnot => hnot (Supply.taken_mono hsupply htaken)
  have harms : Charts ((s₀.split condition).enter (s₀.later 0)) (sites ++ sites')
      ((s₂.fallTo (s₀.later 2)).enter (s₀.later 2)) :=
    ((h₁.fallTo hready₁ htaken hjoins₁).trans h₂ hsupply htrace₂).fallTo hready₂ htaken hjoins₂
  obtain ⟨hframed', hsettled⟩ := harms charts hframed
  exact ⟨hframed', fun l hl => (hsettled l hl).of_le (htest.supply_le.trans Builder.supply_le_split)⟩

end Charts

/-- The only predecessor of the header of a loop, before the loop is closed. -/
theorem Builder.perm_predsOf_openLoop {s : Builder} {testFirst : Bool} (h : Stage.code.Ready s) :
    (predsOf (s.openLoop testFirst).blocks (s.later 2)).Perm [s.current] := by
  obtain ⟨⟨b, hat, hb⟩, pending, hsound⟩ := h
  have hnodup := hsound.alloc.alloc.alloc.alloc.alloc.nodup
  have hat' := At_alloc (At_alloc (At_alloc (At_alloc (At_alloc hat))))
  have hnone : predsOf s.alloc.alloc.alloc.alloc.alloc.blocks (s.later 2) = [] := by
    rw [predsOf, edgesOf_alloc, edgesOf_alloc, edgesOf_alloc, edgesOf_alloc, edgesOf_alloc]
    exact predsOf_eq_nil hsound (hsound.fresh.later_notMem 2)
  have hentered := @perm_predsOf_link_self _ _ (s.later 2) _ hnodup hat' hb.succs
  rw [hnone] at hentered
  refine List.Perm.trans ?_ hentered
  refine perm_predsOf_link_of_notMem (by rwa [ids_link]) (hsound.fresh.block?_header hsound.current) rfl ?_
  rw [List.mem_singleton]
  cases testFirst <;> simp [later]

/-- The parts of a loop are lowered one after the other; the body is lowered from `start` on. -/
structure Looping (labels : List String) (s s₁ start s₂ s₃ : Builder) (frame : Loop) (outer : List Loop) : Prop where
  ready : Stage.code.Ready s
  test : ∃ testFirst held, Trace .code ∅ (s.openLoop testFirst) held s₁
  opened : ∃ condition, start = s₁.openBody condition (s.later 4) (s.later 1)
    ⟨labels, s.later 0, s.later 0, [], s.later 1, []⟩
  body : Trace .flow ∅ start ∅ s₂
  loops : s₂.loops = frame :: outer
  update : ∃ held, Trace .code ∅ (s₂.openUpdate frame outer) held s₃

namespace Looping

variable {labels : List String} {s s₁ start s₂ s₃ : Builder} {frame : Loop} {outer : List Loop} {charts : List Chart}

theorem blocks_le (h : Looping labels s s₁ start s₂ s₃ frame outer) : s.supply.blocks + 5 ≤ start.supply.blocks := by
  obtain ⟨testFirst, held, htest⟩ := h.test
  obtain ⟨condition, rfl⟩ := h.opened
  exact htest.supply_le.2

theorem later_taken (h : Looping labels s s₁ start s₂ s₃ frame outer) {k : Nat} (hk : k < 5) :
    s.later k ∈ start.supply.taken := by
  have hle := h.blocks_le
  change s.supply.blocks + k < start.supply.blocks
  omega

theorem supply_start (h : Looping labels s s₁ start s₂ s₃ frame outer) : s.supply ≤ start.supply := by
  obtain ⟨testFirst, held, htest⟩ := h.test
  obtain ⟨condition, rfl⟩ := h.opened
  exact (Builder.supply_le_openLoop.trans htest.supply_le).trans (Supply.le_dropInstr _)

theorem supply_update (h : Looping labels s s₁ start s₂ s₃ frame outer) : s₂.supply ≤ s₃.supply := by
  obtain ⟨held, hupdate⟩ := h.update
  exact (le_of_eq (Builder.supply_fallTo (s := s₂.withLoops outer)).symm).trans hupdate.supply_le

theorem frame_eq (h : Looping labels s s₁ start s₂ s₃ frame outer) :
    frame.continueEntry = s.later 0 ∧ frame.breakEntry = s.later 1 := by
  obtain ⟨condition, rfl⟩ := h.opened
  have hgrow := h.body.loops_grow
  rw [h.loops] at hgrow
  cases hgrow with
  | cons hgrow _ => exact ⟨hgrow.continueEntry, hgrow.breakEntry⟩

/-- All jumps to the loop are in its body. -/
theorem joins_new (h : Looping labels s s₁ start s₂ s₃ frame outer) {id : BlockId} (hid : id ∈ frame.joins) :
    id ∉ start.supply.taken := by
  have hnew := h.body.joins_new
  obtain ⟨condition, rfl⟩ := h.opened
  rw [h.loops] at hnew
  cases hnew with
  | cons hnew _ => exact (hnew id hid).resolve_left fun hmem => nomatch hmem

theorem flow_ready (h : Looping labels s s₁ start s₂ s₃ frame outer) : Stage.flow.Ready s₂ := by
  obtain ⟨testFirst, held, htest⟩ := h.test
  have hbody := h.body
  obtain ⟨condition, rfl⟩ := h.opened
  exact hbody.ready (h.ready.loopBody htest)

theorem loopEnd (h : Looping labels s s₁ start s₂ s₃ frame outer) :
    ∃ pending, LoopEnd frame (s.later 2) pending s₃ := by
  obtain ⟨testFirst, held, htest⟩ := h.test
  obtain ⟨held', hupdate⟩ := h.update
  have hbody := h.body
  obtain ⟨condition, rfl⟩ := h.opened
  exact h.ready.loopEnd htest hbody h.loops hupdate

theorem joins_start (h : Looping labels s s₁ start s₂ s₃ frame outer) : start.joins = s.joins := by
  obtain ⟨testFirst, held, htest⟩ := h.test
  obtain ⟨condition, rfl⟩ := h.opened
  change s₁.loops.flatMap Loop.joins = s.joins
  rw [htest.loops_eq rfl]
  rfl

/-- The body starts with a loop more that nothing has jumped to. -/
theorem framed_start (h : Looping labels s s₁ start s₂ s₃ frame outer) (hs : Framed s charts) :
    Framed start (⟨labels, [], []⟩ :: charts) := by
  have hjoins := h.joins_start
  have hsupply := h.supply_start
  obtain ⟨testFirst, held, htest⟩ := h.test
  obtain ⟨condition, rfl⟩ := h.opened
  have hnew : ∀ k, s.later k ∉ s.supply.taken := Builder.later_notMem_taken (le_refl _)
  have hopened : Framed (s.openLoop testFirst) charts :=
    hs.spared (.openLoop h.ready fun k _ => hnew k) hs.taken rfl Builder.supply_le_openLoop
  have hspares : Spares s.supply.taken s₁.blocks (s₁.openBody condition (s.later 4) (s.later 1)
      ⟨labels, s.later 0, s.later 0, [], s.later 1, []⟩).blocks :=
    .openBody (htest.ready h.ready.loopTest) (hnew 4) (hnew 1)
  refine ⟨.cons ⟨rfl, rfl, rfl, trivial, trivial⟩ ?_, hjoins ▸ hs.nodup,
    fun id hid => Supply.taken_mono hsupply (hs.taken id (hjoins ▸ hid))⟩
  have hinside : ∀ l ∈ s₁.loops, ∀ id ∈ l.joins, id ∈ s.supply.taken := fun l hl id hid =>
    hs.taken id (hjoins ▸ List.mem_flatMap.mpr ⟨l, List.mem_cons_of_mem _ hl, hid⟩)
  exact Loop.Charted.forall₂_mono (hopened.trace htest).frames fun l hl _ hc => hc.spared hspares (hinside l hl)

/-- The blocks that a loop starts with are no merge blocks of jumps. -/
theorem later_notMem_joins (h : Looping labels s s₁ start s₂ s₃ frame outer) (hs : Framed s charts) {k : Nat}
    (hk : k < 5) : s.later k ∉ s₂.joins := by
  intro hmem
  rcases h.body.mem_joins hmem with hmem | hnot
  · rw [h.joins_start] at hmem
    exact Builder.later_notMem_taken (le_refl _) k (hs.taken _ hmem)
  · exact hnot (h.later_taken hk)

/-- The update code. -/
theorem spares_update (h : Looping labels s s₁ start s₂ s₃ frame outer) :
    Spares {id | id ∈ s₂.supply.taken ∧ id ≠ s.later 0} s₂.blocks s₃.blocks := by
  obtain ⟨held, hupdate⟩ := h.update
  have hsupply : s₂.supply ≤ (s₂.openUpdate frame outer).supply :=
    le_of_eq (Builder.supply_fallTo (s := s₂.withLoops outer)).symm
  refine (Spares.openUpdate h.flow_ready ?_).trans (hupdate.spares.mono fun id hid => Supply.taken_mono hsupply hid.1)
  rw [h.frame_eq.1]
  exact fun hmem => hmem.2 rfl

/-- From the end of the body on, edges are added to blocks of the loop itself only. -/
theorem spares_close (h : Looping labels s s₁ start s₂ s₃ frame outer) :
    Spares {id | id ∈ s₂.supply.taken ∧ id ≠ s.later 0 ∧ id ≠ s.later 2 ∧ id ∉ frame.joins} s₂.blocks
      (s₃.closeLoop frame (s.later 2)).blocks := by
  obtain ⟨pending, hend⟩ := h.loopEnd
  refine (h.spares_update.mono fun id hid => ⟨hid.1, hid.2.1⟩).trans (.closeLoop hend ?_ ?_ ?_)
  · exact fun hmem => hmem.2.2.1 rfl
  · exact fun first hfirst hmem => hmem.2.2.2 (List.mem_append_right _ (List.mem_of_mem_head? hfirst))
  · exact fun hmem => Builder.later_notMem_taken h.supply_update 0 hmem.1

theorem preds_header (h : Looping labels s s₁ start s₂ s₃ frame outer) :
    (predsOf s₃.blocks (s.later 2)).Perm [s.current] := by
  have hupdated := h.spares_update.preds (s.later 2)
    ⟨Supply.taken_mono h.body.supply_le (h.later_taken (by decide)), by simp [Builder.later]⟩
  have hbodied := h.body.spares.preds (s.later 2) (h.later_taken (by decide))
  obtain ⟨testFirst, held, htest⟩ := h.test
  obtain ⟨condition, rfl⟩ := h.opened
  have hready₁ := htest.ready h.ready.loopTest
  have hopened : Spares {s.later 2} s₁.blocks (s₁.openBody condition (s.later 4) (s.later 1)
      ⟨labels, s.later 0, s.later 0, [], s.later 1, []⟩).blocks :=
    .openBody hready₁ (by simp [Builder.later]) (by simp [Builder.later])
  have htested := htest.spares.preds (s.later 2) (Nat.add_lt_add_left (by decide : 2 < 5) s.supply.blocks)
  exact hupdated.trans (hbodied.trans ((hopened.preds _ rfl).trans
    (htested.trans (Builder.perm_predsOf_openLoop h.ready))))

theorem comesTo_update (h : Looping labels s s₁ start s₂ s₃ frame outer) :
    ComesTo s₃.blocks s₃.current (s.later 0) := by
  obtain ⟨held, hupdate⟩ := h.update
  exact h.frame_eq.1 ▸ hupdate.comesTo rfl

theorem loops_close (h : Looping labels s s₁ start s₂ s₃ frame outer) :
    (s₃.closeLoop frame (s.later 2)).loops = outer := by
  obtain ⟨held, hupdate⟩ := h.update
  rw [Builder.loops_closeLoop, hupdate.loops_eq rfl, Builder.loops_openUpdate]

theorem supply_close (h : Looping labels s s₁ start s₂ s₃ frame outer) :
    s₂.supply ≤ (s₃.closeLoop frame (s.later 2)).supply :=
  h.supply_update.trans Builder.supply_le_closeLoop

/-- The merge blocks of the loop and those of the loops around it. -/
theorem joins_eq (h : Looping labels s s₁ start s₂ s₃ frame outer) :
    s₂.joins = frame.joins ++ (s₃.closeLoop frame (s.later 2)).joins := by
  rw [Builder.joins, h.loops, List.flatMap_cons, Builder.joins, h.loops_close]

theorem mem_joins_of_frame (h : Looping labels s s₁ start s₂ s₃ frame outer) {id : BlockId} (hid : id ∈ frame.joins) :
    id ∈ s₂.joins :=
  h.joins_eq ▸ List.mem_append_left _ hid

theorem mem_joins_of_close (h : Looping labels s s₁ start s₂ s₃ frame outer) {id : BlockId}
    (hid : id ∈ (s₃.closeLoop frame (s.later 2)).joins) : id ∈ s₂.joins :=
  h.joins_eq ▸ List.mem_append_right _ hid

theorem chained {c : Chart} {charts' : List Chart} {sites : List Site}
    (h : Looping labels s s₁ start s₂ s₃ frame outer) (hs : Framed s charts) (hframed : Framed s₂ charts')
    (hc : frame.Charted s₂.blocks c) (hexits : c.exits = jumpsOf .exit (fun label => selects label labels) sites)
    (hnexts : c.nexts = jumpsOf .next (fun label => selects label labels) sites) :
    LoopSite.Chained (s₃.closeLoop frame (s.later 2)).blocks
      ⟨labels, ⟨s.current, s.later 2, s.later 0, s₃.current, s.later 1, s₃.later 0⟩, sites⟩ := by
  obtain ⟨pending, hend⟩ := h.loopEnd
  have hnodup : frame.joins.Nodup := (List.nodup_append.mp (h.joins_eq ▸ hframed.nodup)).1
  have htaken : ∀ id ∈ frame.joins, id ∈ s₂.supply.taken := fun id hid => hframed.taken id (h.mem_joins_of_frame hid)
  have hheader : s.later 2 ∈ s₂.supply.taken := Supply.taken_mono h.body.supply_le (h.later_taken (by decide))
  have hc₃ : frame.Charted s₃.blocks c := by
    refine hc.spared h.spares_update fun id hid => ⟨htaken id hid, ?_⟩
    rintro rfl
    exact h.joins_new hid (h.later_taken (by decide))
  rw [← h.frame_eq.2]
  exact hend.chain_closeLoop hc₃ hnodup (fun hmem => h.later_notMem_joins hs (by decide) (h.mem_joins_of_frame hmem))
    (Supply.taken_mono h.supply_update hheader) (fun id hid => Supply.taken_mono h.supply_update (htaken id hid))
    h.preds_header h.comesTo_update hexits hnexts

theorem settled {c : Chart} {charts' : List Chart} {sites : List Site}
    (h : Looping labels s s₁ start s₂ s₃ frame outer) (hs : Framed s charts) (hframed : Framed s₂ charts')
    (hc : frame.Charted s₂.blocks c) (hexits : c.exits = jumpsOf .exit (fun label => selects label labels) sites)
    (hnexts : c.nexts = jumpsOf .next (fun label => selects label labels) sites) :
    LoopSite.Settled s (s₃.closeLoop frame (s.later 2))
      ⟨labels, ⟨s.current, s.later 2, s.later 0, s₃.current, s.later 1, s₃.later 0⟩, sites⟩ := by
  have hwatched : ∀ id ∈ LoopSite.watched ⟨labels, ⟨s.current, s.later 2, s.later 0, s₃.current, s.later 1,
      s₃.later 0⟩, sites⟩, id = s.later 2 ∨ id = s₃.later 0 ∨ id ∈ frame.joins := by
    intro id hid
    rw [LoopSite.watched, LoopSite.jumps, LoopSite.jumps, ← hexits, ← hnexts, List.mem_cons, List.mem_cons] at hid
    refine hid.imp_right (.imp_right fun hid => ?_)
    rwa [List.map_append, ← hc.breaks, ← hc.continues] at hid
  refine ⟨h.chained hs hframed hc hexits hnexts, fun id hid => ?_, fun id hid => ?_, fun id hid hmem => ?_⟩
  · rcases hwatched id hid with rfl | rfl | hid
    · exact Builder.later_notMem_taken (le_refl _) 2
    · exact Builder.later_notMem_taken (h.supply_start.trans (h.body.supply_le.trans h.supply_update)) 0
    · exact fun hmem => h.joins_new hid (Supply.taken_mono h.supply_start hmem)
  · rcases hwatched id hid with rfl | rfl | hid
    · exact Supply.taken_mono (h.body.supply_le.trans h.supply_close) (h.later_taken (by decide))
    · change s₃.supply.blocks < (s₃.closeContinues frame (s.later 2)).supply.blocks + 1
      rw [Builder.supply_closeContinues]
      exact Nat.lt_succ_self _
    · exact Supply.taken_mono h.supply_close (hframed.taken id (h.mem_joins_of_frame hid))
  · rcases hwatched id hid with rfl | rfl | hid
    · exact h.later_notMem_joins hs (by decide) (h.mem_joins_of_close hmem)
    · exact Builder.later_notMem_taken h.supply_update 0 (hframed.taken _ (h.mem_joins_of_close hmem))
    · exact (List.nodup_append.mp (h.joins_eq ▸ hframed.nodup)).2.2 id hid id hmem rfl

/-- Closing a loop changes nothing for the loops around it. -/
theorem framed_close {c : Chart} {charts' : List Chart} (h : Looping labels s s₁ start s₂ s₃ frame outer)
    (hs : Framed s charts) (hframed : Framed s₂ (c :: charts')) :
    Framed (s₃.closeLoop frame (s.later 2)) charts' := by
  obtain ⟨_, hnodup, hdisjoint⟩ := List.nodup_append.mp (h.joins_eq ▸ hframed.nodup)
  have htaken : ∀ id ∈ (s₃.closeLoop frame (s.later 2)).joins, id ∈ s₂.supply.taken :=
    fun id hid => hframed.taken id (h.mem_joins_of_close hid)
  refine ⟨?_, hnodup, fun id hid => Supply.taken_mono h.supply_close (htaken id hid)⟩
  have hframes := hframed.frames
  rw [h.loops] at hframes
  rw [h.loops_close]
  refine Loop.Charted.forall₂_mono (List.forall₂_cons.mp hframes).2 fun l hl _ hc =>
    hc.spared h.spares_close fun id hid => ?_
  have hmem : id ∈ (s₃.closeLoop frame (s.later 2)).joins := by
    rw [Builder.joins, h.loops_close]
    exact List.mem_flatMap.mpr ⟨l, hl, hid⟩
  have hlater : ∀ {k}, k < 5 → id ≠ s.later k := by
    rintro k hk rfl
    exact h.later_notMem_joins hs hk (h.mem_joins_of_close hmem)
  exact ⟨htaken id hmem, hlater (by decide), hlater (by decide), fun hin => hdisjoint id hin id hmem rfl⟩

/-- Nor does it for those inside it. -/
theorem settled_inside {l : LoopSite} (h : Looping labels s s₁ start s₂ s₃ frame outer) (hl : l.Settled start s₂) :
    l.Settled s (s₃.closeLoop frame (s.later 2)) := by
  refine LoopSite.Settled.of_le (hl.spared h.spares_close (fun id hid => ?_) h.supply_close fun id hid =>
    .inl (h.mem_joins_of_close hid)) h.supply_start
  have hlater : ∀ {k}, k < 5 → id ≠ s.later k := by
    rintro k hk rfl
    exact hl.new _ hid (h.later_taken hk)
  exact ⟨hl.taken id hid, hlater (by decide), hlater (by decide),
    fun hin => hl.apart id hid (h.mem_joins_of_frame hin)⟩

/-- A loop keeps the jumps to it from the charts of the loops around it, and is settled when it is closed. -/
theorem charted {sites : List Site} (h : Looping labels s s₁ start s₂ s₃ frame outer) (hbody : Charts start sites s₂) :
    Charts s [.loop labels ⟨s.current, s.later 2, s.later 0, s₃.current, s.later 1, s₃.later 0⟩ sites]
      (s₃.closeLoop frame (s.later 2)) := by
  intro charts hs
  obtain ⟨hframed, hsettled⟩ := hbody _ (h.framed_start hs)
  rw [record] at hframed
  refine ⟨?_, fun l hl => ?_⟩
  · rw [record_loop]
    exact h.framed_close hs hframed
  · rw [loopsOf, Site.loops, loopsOf, List.append_nil] at hl
    rcases List.mem_cons.mp hl with rfl | hl
    · have hframes := hframed.frames
      rw [h.loops] at hframes
      refine h.settled hs hframed (List.forall₂_cons.mp hframes).1 ?_ ?_ <;>
        simp only [Chart.note, List.nil_append, Bool.true_and]
    · exact h.settled_inside (hsettled l hl)

end Looping

namespace Build

variable {E : BuildError → Prop} {m m' : Build Unit} {f f' : Builder → List Site}

/-- Statements with these sites. -/
structure Lays (E : BuildError → Prop) (m : Build Unit) (sites : Builder → List Site) : Prop where
  flow : IsFlow E m
  charts : ∀ {s t}, Stage.flow.Ready s → m s = .ok () t → Charts s (sites s) t

/-- What stands in a statement, with these sites. -/
structure LaysOpen (E : BuildError → Prop) (m : Build Unit) (sites : Builder → List Site) : Prop where
  flow : IsOpenFlow E m
  charts : ∀ {s t}, Stage.code.Ready s → m s = .ok () t → Charts s (sites s) t

namespace Lays

theorem skip : Lays E (pure ()) fun _ => [] where
  flow := .skip
  charts _ h := by
    cases h
    exact .quiet (.refl _ _) rfl (le_refl _)

theorem seq (hm : Lays E m f) (hm' : Lays E m' f') : Lays E (m >>= fun _ => m') fun s => f s ++ f' (m.after s) where
  flow := hm.flow.seq hm'.flow
  charts hs h := by
    obtain ⟨_, u, hrun, hrun'⟩ := bind_eq_ok h
    have htrace := (hm.flow _ hs).ok hrun
    have hu := htrace.ready hs
    rw [after_eq hrun]
    exact (hm.charts hs hrun).trans (hm'.charts hu hrun') htrace.supply_le ((hm'.flow _ hu).ok hrun')

theorem laysOpen (h : Lays E m f) : LaysOpen E m f := ⟨h.flow.isOpenFlow, fun hs => h.charts hs.flow⟩

end Lays

namespace LaysOpen

theorem fail {e : BuildError} (h : E e) : LaysOpen E (Build.fail e) fun _ => [] := ⟨.fail h, fun _ hrun => nomatch hrun⟩

theorem ensureOpen (h : LaysOpen E m f) : Lays E (Build.ensureOpen >>= fun _ => m) fun s => f s.reopen where
  flow := h.flow.ensureOpen
  charts {s t} hs hrun := by
    obtain ⟨hfits, pending, hsound⟩ := hs
    obtain ⟨b, hat⟩ := hsound.at_current
    obtain ⟨hsound', hopen⟩ := hsound.reopen hfits
    rw [← Builder.loopsWaiting_reopen] at hsound'
    have hready : Stage.code.Ready s.reopen := ⟨hopen, pending, hsound'⟩
    rw [bind_ok (ensureOpen_eq hat)] at hrun
    have hreopen : Charts s [] s.reopen := .quiet .reopen Builder.loops_reopen Builder.supply_le_reopen
    exact hreopen.trans (h.charts hready hrun) Builder.supply_le_reopen ((h.flow _ hready).ok hrun)

theorem code (h : IsCode E ∅ m Any) : LaysOpen E m fun _ => [] where
  flow := h.isOpenFlow
  charts hs hrun := by
    obtain ⟨_, _, _, htrace⟩ := (h _ hs).ok hrun
    exact .quiet htrace.spares (htrace.loops_eq rfl) htrace.supply_le

/-- Code before a loop, as the initializer of a loop. -/
theorem after (hm : IsCode E ∅ m Any) (hm' : LaysOpen E m' f) :
    LaysOpen E (m >>= fun _ => m') fun s => f (m.after s) where
  flow := .after hm hm'.flow
  charts hs h := by
    obtain ⟨_, u, hrun, hrun'⟩ := bind_eq_ok h
    obtain ⟨_, _, _, htrace⟩ := (hm _ hs).ok hrun
    have hu := htrace.ready hs
    rw [after_eq hrun]
    have hcode := (code hm).charts hs hrun
    exact hcode.trans (hm'.charts hu hrun') htrace.supply_le ((hm'.flow _ hu).ok hrun')

theorem ret {result : Build Operand} (h : IsCode E ∅ result Value) :
    LaysOpen E (result >>= fun value => perform .ret [value]) fun _ => [] where
  flow := isOpenFlow_ret h
  charts hs hrun := by
    have htrace := (isOpenFlow_ret h _ hs).ok hrun
    obtain ⟨v, u, hresult, hperform⟩ := bind_eq_ok hrun
    obtain ⟨_, _, _, hcode⟩ := (h _ hs).ok hresult
    obtain ⟨b, hat, _⟩ := (hcode.ready hs).1
    rw [perform_eq hat] at hperform
    cases hperform
    exact .quiet htrace.spares (hcode.loops_eq rfl) htrace.supply_le

theorem jump {kind : Jump} {label : Option String} (hE : E (.unresolvedJump kind label)) :
    LaysOpen E (Build.jump kind label) fun s => [.jump kind label s.current (s.later 0)] where
  flow := isOpenFlow_jump hE
  charts hs hrun := by
    obtain ⟨inner, frame, outer, hloops, hinner, haccepts, rfl⟩ := (jump_ran hs hE).ok hrun
    exact .jump hs hloops hinner haccepts

theorem branch {test : Build Operand} (htest : IsCode E ∅ test Value) (hm : Lays E m f) (hm' : Lays E m' f') :
    LaysOpen E (Build.branch test m m') (branchSites test m f f') where
  flow := isOpenFlow_branch htest hm.flow hm'.flow
  charts hs hrun := by
    obtain ⟨held, v, s₀, s₁, s₂, hran, hrun₁, htrace₁, hrun₂, htrace₂, rfl⟩ :=
      (branch_ran hs htest hm.flow hm'.flow).ok hrun
    have hready₀ := hran.trace.ready hs
    simp only [branchSites, after_eq hran.eq, value_eq hran.eq, after_eq hrun₁]
    exact .branch hs hran.trace htrace₁ (hm.charts hready₀.consequent hrun₁) htrace₂
      (hm'.charts (hready₀.alternate htrace₁) hrun₂)

theorem loop {labels : List String} {testFirst : Bool} {test : Build Operand} {update : Build Unit}
    (htest : IsCode E ∅ test Value) (hupdate : IsCode E ∅ update Any) (hm : Lays E m f) :
    LaysOpen E (Build.loop labels testFirst test update m)
      fun s => [loopSite labels testFirst test update m f s] where
  flow := isOpenFlow_loop htest hupdate hm.flow
  charts hs hrun := by
    obtain ⟨held, v, s₁, s₂, frame, outer, held', s₃, hran, hrun₂, htrace₂, hloops, hrun₃, htrace₃, rfl⟩ :=
      (loop_ran hs htest hupdate hm.flow).ok hrun
    have hlooping : Looping labels _ s₁ _ s₂ s₃ frame outer :=
      ⟨hs, ⟨testFirst, held, hran.trace⟩, ⟨v, rfl⟩, htrace₂, hloops, ⟨held', htrace₃⟩⟩
    simp only [loopSite, after_eq hran.eq, value_eq hran.eq, after_eq hrun₂, hloops, List.headD_cons, List.tail_cons,
      after_eq hrun₃]
    exact hlooping.charted (hm.charts (hs.loopBody hran.trace) hrun₂)

end LaysOpen

end Build

open Build

variable {p : Program} {rule : List Scope → Access → String → Except Fault Resolution}

mutual

theorem lowerStmts_lays {f : Frame} {outer : List Frame} (hnest : Nest p (f :: outer)) :
    (ss : List Stmt) → itemsOf ss ⊆ itemsOf f.body → declarationsOf ss ⊆ declarationsOf f.body →
      Lays (Refusal p rule) (lowerStmts (Names.inside rule (f :: outer)) ss)
        (sitesOf (Names.inside rule (f :: outer)) ss)
  | [], _, _ => by
    rw [lowerStmts]
    exact .skip
  | stmt :: rest, hi, hd => by
    rw [itemsOf, List.append_subset] at hi
    rw [declarationsOf, List.append_subset] at hd
    rw [lowerStmts]
    exact (lowerStmt_lays hnest stmt hi.1 hd.1).seq (lowerStmts_lays hnest rest hi.2 hd.2)

theorem lowerStmt_lays {f : Frame} {outer : List Frame} (hnest : Nest p (f :: outer)) :
    (stmt : Stmt) → stmt.items ⊆ itemsOf f.body → stmt.declarations ⊆ declarationsOf f.body →
      Lays (Refusal p rule) (lowerStmt (Names.inside rule (f :: outer)) stmt)
        (stmt.sites (Names.inside rule (f :: outer)))
  | .function _, _, _ | .empty, _, _ => by
    simp only [lowerStmt]
    exact .skip
  | .var declaration, hi, hd => by
    rw [lowerStmt]
    exact (LaysOpen.code (lowerVarDecl_isCode hnest declaration hi hd ∅)).ensureOpen
  | .expr e, hi, _ => by
    rw [lowerStmt]
    refine LaysOpen.ensureOpen (.code ?_)
    exact (lowerExpr_isCode hnest e hi ∅).bind fun _ _ _ _ => .pure trivial
  | .block body, hi, hd => by
    rw [lowerStmt]
    exact (lowerStmts_lays hnest body hi hd).laysOpen.ensureOpen
  | .branch test consequent alternate, hi, hd => by
    rw [Stmt.items, List.append_subset, List.append_subset] at hi
    rw [Stmt.declarations, List.append_subset] at hd
    rw [lowerStmt]
    exact (LaysOpen.branch (lowerExpr_isCode hnest test hi.1.1 ∅) (lowerStmt_lays hnest consequent hi.1.2 hd.1)
      (lowerAlternate_lays hnest alternate hi.2 hd.2)).ensureOpen
  | .whileLoop test body, hi, hd => by
    rw [Stmt.items, List.append_subset] at hi
    rw [lowerStmt]
    exact (LaysOpen.loop (lowerExpr_isCode hnest test hi.1 ∅) (.pure trivial)
      (lowerStmt_lays hnest body hi.2 hd)).ensureOpen
  | .doWhile body test, hi, hd => by
    rw [Stmt.items, List.append_subset] at hi
    rw [lowerStmt]
    exact (LaysOpen.loop (lowerExpr_isCode hnest test hi.2 ∅) (.pure trivial)
      (lowerStmt_lays hnest body hi.1 hd)).ensureOpen
  | .forLoop init test update body, hi, hd => by
    rw [Stmt.items, List.append_subset, List.append_subset, List.append_subset] at hi
    rw [Stmt.declarations, List.append_subset] at hd
    rw [lowerStmt]
    exact (LaysOpen.after (lowerInit_isCode hnest init hi.1.1.1 hd.1 ∅)
      (.loop (lowerTest_isCode hnest test hi.1.1.2 ∅) (lowerUpdate_isCode hnest update hi.1.2 ∅)
        (lowerStmt_lays hnest body hi.2 hd.2))).ensureOpen
  | .jump kind label, _, _ => by
    rw [lowerStmt]
    exact (LaysOpen.jump (Refusal.unresolvedJump kind label)).ensureOpen
  | .ret argument, hi, _ => by
    rw [lowerStmt]
    exact (LaysOpen.ret (lowerResult_isCode hnest argument hi ∅)).ensureOpen
  | .labeled label body, hi, hd => by
    rw [lowerStmt]
    exact (lowerLabeled_lays hnest body hi hd [label]).ensureOpen
  | .unsupported kind, _, _ => by
    rw [lowerStmt]
    exact (LaysOpen.fail (Refusal.unsupported kind)).ensureOpen

theorem lowerLabeled_lays {f : Frame} {outer : List Frame} (hnest : Nest p (f :: outer)) :
    (stmt : Stmt) → stmt.items ⊆ itemsOf f.body → stmt.declarations ⊆ declarationsOf f.body →
      ∀ labels, LaysOpen (Refusal p rule) (lowerLabeled (Names.inside rule (f :: outer)) labels stmt)
        (stmt.sitesLabeled (Names.inside rule (f :: outer)) labels)
  | .labeled label body, hi, hd, labels => by
    rw [lowerLabeled]
    exact lowerLabeled_lays hnest body hi hd _
  | .whileLoop test body, hi, hd, labels => by
    rw [Stmt.items, List.append_subset] at hi
    rw [lowerLabeled]
    exact .loop (lowerExpr_isCode hnest test hi.1 ∅) (.pure trivial) (lowerStmt_lays hnest body hi.2 hd)
  | .doWhile body test, hi, hd, labels => by
    rw [Stmt.items, List.append_subset] at hi
    rw [lowerLabeled]
    exact .loop (lowerExpr_isCode hnest test hi.2 ∅) (.pure trivial) (lowerStmt_lays hnest body hi.1 hd)
  | .forLoop init test update body, hi, hd, labels => by
    rw [Stmt.items, List.append_subset, List.append_subset, List.append_subset] at hi
    rw [Stmt.declarations, List.append_subset] at hd
    rw [lowerLabeled]
    exact .after (lowerInit_isCode hnest init hi.1.1.1 hd.1 ∅)
      (.loop (lowerTest_isCode hnest test hi.1.1.2 ∅) (lowerUpdate_isCode hnest update hi.1.2 ∅)
        (lowerStmt_lays hnest body hi.2 hd.2))
  | .var _, _, _, _ | .function _, _, _, _ | .expr _, _, _, _ | .block _, _, _, _ | .empty, _, _, _
  | .branch _ _ _, _, _, _ | .jump _ _, _, _, _ | .ret _, _, _, _ | .unsupported _, _, _, _ => by
    simp only [lowerLabeled]
    exact .fail (Refusal.unsupported _)

theorem lowerAlternate_lays {f : Frame} {outer : List Frame} (hnest : Nest p (f :: outer)) :
    (stmt : Option Stmt) → itemsOfAlternate stmt ⊆ itemsOf f.body →
      declarationsOfAlternate stmt ⊆ declarationsOf f.body →
      Lays (Refusal p rule) (lowerAlternate (Names.inside rule (f :: outer)) stmt)
        (sitesOfAlternate (Names.inside rule (f :: outer)) stmt)
  | none, _, _ => by
    rw [lowerAlternate]
    exact .skip
  | some stmt, hi, hd => by
    rw [lowerAlternate]
    exact lowerStmt_lays hnest stmt hi hd

end

/-- The sites in the body of a function that is lowered from a builder on. -/
def Frame.sites (names : Names) (f : Frame) (s : Builder) : List Site :=
  sitesOf names f.body ((lowerDeclared names f.body).after ((prologue names f.scope).after s))

theorem lowerBody_lays {f : Frame} {outer : List Frame} (hnest : Nest p (f :: outer)) :
    LaysOpen (Refusal p rule) (lowerBody (Names.inside rule (f :: outer)) f)
      (f.sites (Names.inside rule (f :: outer))) := by
  have hdeclared := @lowerDeclared_isCode p rule _ _ hnest f.body (List.Subset.refl _) (List.Subset.refl _) ∅
  have hstmts := @lowerStmts_lays p rule _ _ hnest f.body (List.Subset.refl _) (List.Subset.refl _)
  refine .after (isCode_prologue fun name hname => ?_) (.after hdeclared hstmts.laysOpen)
  exact hnest.mayLookUp (.inr ⟨rfl, Frame.mem_declared_of_param hname⟩)

/-- These are the sites of the function, with their blocks in the graph that comes from it. -/
def Graph.HasSites (p : Program) (rule : List Scope → Access → String → Except Fault Resolution) (fn : Function)
    (g : Graph) (sites : List Site) : Prop :=
  ∃ params outer s t, fn.params = params.map Expr.ident ∧ Nest p (⟨fn.name, params, fn.body⟩ :: outer) ∧
    inNewGraph fn.name (lowerBody (Names.inside rule (⟨fn.name, params, fn.body⟩ :: outer))
      ⟨fn.name, params, fn.body⟩) s = .ok g t ∧
    sites = Frame.sites (Names.inside rule (⟨fn.name, params, fn.body⟩ :: outer)) ⟨fn.name, params, fn.body⟩ s.nested

namespace Graph.HasSites

variable {fn : Function} {g : Graph} {sites : List Site}

theorem of_lowers (h : g.Lowers p rule fn) : ∃ sites, g.HasSites p rule fn sites := by
  obtain ⟨params, outer, s, t, hparams, hnest, hrun⟩ := h.run
  exact ⟨_, params, outer, s, t, hparams, hnest, hrun, rfl⟩

theorem outlinesOf_eq (h : g.HasSites p rule fn sites) : outlinesOf sites = outlineOf fn.body := by
  obtain ⟨params, outer, s, t, _, _, _, rfl⟩ := h
  exact outlinesOf_sitesOf fn.body _

theorem chained (h : g.HasSites p rule fn sites) : ∀ l ∈ loopsOf sites, l.Chained g.blocks := by
  obtain ⟨params, outer, s, t, _, hnest, hrun, rfl⟩ := h
  obtain ⟨u, hbody, _, hgraph, _⟩ := inNewGraph_eq_ok hrun
  -- No loop is open where a function starts.
  have hframed : Framed s.nested [] := ⟨.nil, .nil, fun _ hid => nomatch hid⟩
  obtain ⟨_, hsettled⟩ := (lowerBody_lays hnest).charts s.ready_nested hbody [] hframed
  rw [hgraph]
  exact fun l hl => (hsettled l hl).chained

end Graph.HasSites

/-- The jumps to a loop go through chains of merge blocks: the one of its breaks leads from the block that its test
leaves for to the one behind it, and the one of its continues from the end of its update code to its header. From
the block of a jump there is no way but to the end of its chain. -/
theorem jump_chains_of_loops (p : Program) (supply : Supply) (graphs : List Graph)
    (h : (constructWith p supply).1 = .ok graphs) :
    List.Forall₂ (fun fn g => (∃ sites, g.HasSites p Scope.resolve fn sites) ∧
      ∀ sites, g.HasSites p Scope.resolve fn sites → outlinesOf sites = outlineOf fn.body ∧
        ∀ l ∈ loopsOf sites, l.Chained g.blocks ∧
          (∀ jump ∈ l.jumps .exit, Slides g.blocks jump.1 l.blocks.after) ∧
          ∀ jump ∈ l.jumps .next, Slides g.blocks jump.1 l.blocks.header)
      p.functions graphs := by
  obtain ⟨_, hlowers⟩ := (constructUsing_settles p Scope.resolve supply).2.1 graphs h
  refine hlowers.imp fun fn g hlower => ⟨Graph.HasSites.of_lowers hlower, fun sites hsites => ?_⟩
  refine ⟨hsites.outlinesOf_eq, fun l hl => ?_⟩
  have hchained := hsites.chained l hl
  exact ⟨hchained, fun _ hjump => hchained.breaks.slides_of_mem hjump,
    fun _ hjump => hchained.continues.slides_of_mem hjump⟩

/-- `a: for (; x; y && z) { do { if (u) break a; else continue a; if (v) break; continue; } while (w); break;
continue a; }` -/
def nestedScript : Program :=
  ⟨[.labeled "a" (.forLoop none (some (.ident "x")) (some (.logical .and (.ident "y") (.ident "z"))) (.block [
    .doWhile (.block [.branch (.ident "u") (.jump .exit (some "a")) (some (.jump .next (some "a"))),
      .branch (.ident "v") (.jump .exit none) none, .jump .next none]) (.ident "w"),
    .jump .exit none, .jump .next (some "a")]))]⟩

def nestedGraphs : List Graph := (constructWith nestedScript .fresh).1.toOption.getD []

def nestedSites : List Site :=
  Frame.sites (Names.inside Scope.resolve [⟨none, [], nestedScript.body⟩]) ⟨none, [], nestedScript.body⟩
    (Builder.start .fresh).nested

theorem jump_chains_of_loops_nested :
    (constructWith nestedScript .fresh).1 = .ok nestedGraphs ∧
    (loopsOf nestedSites).map (fun l => (l.labels, (l.jumps .exit).map Prod.snd, (l.jumps .next).map Prod.snd)) =
      [(["a"], [⟨14⟩, ⟨22⟩], [⟨15⟩, ⟨24⟩]), ([], [⟨19⟩], [⟨20⟩])] ∧
    List.Forall₂ (fun fn g => (∃ sites, g.HasSites nestedScript Scope.resolve fn sites) ∧
      ∀ sites, g.HasSites nestedScript Scope.resolve fn sites → outlinesOf sites = outlineOf fn.body ∧
        ∀ l ∈ loopsOf sites, l.Chained g.blocks ∧
          (∀ jump ∈ l.jumps .exit, Slides g.blocks jump.1 l.blocks.after) ∧
          ∀ jump ∈ l.jumps .next, Slides g.blocks jump.1 l.blocks.header)
      nestedScript.functions nestedGraphs :=
  ⟨by decide +kernel, by decide +kernel, jump_chains_of_loops nestedScript .fresh nestedGraphs (by decide +kernel)⟩

end ScriptSsa
