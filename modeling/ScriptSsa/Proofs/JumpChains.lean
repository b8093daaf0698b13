import ScriptSsa.Proofs.Edges
import ScriptSsa.Proofs.LoopSites

/-!
The chains of merge blocks that jumps go through.

Every jump to a loop gets a merge block, which the one before it in its chain leads to. While the loop is open
the last block of the chain of its breaks waits for a successor, and so does the one of its continues, whose first
block moreover waits for a predecessor: the update code is still to come. `Framed` says this of all loops that
are open, whatever function of the syntax they are in. Closing a loop adds the links that are missing.
-/

namespace ScriptSsa

/-- The block has this one successor. -/
def LeadsOn (blocks : List Block) (id next : BlockId) : Prop := ∃ b, blockOf? blocks id = some b ∧ b.succs = [next]

/-- The block holds no instructions. -/
def Blank (blocks : List Block) (id : BlockId) : Prop := ∃ b, blockOf? blocks id = some b ∧ b.instrs = []

/-- The block does nothing but lead on. -/
def Relays (blocks : List Block) (id next : BlockId) : Prop := blockOf? blocks id = some ⟨id, [], [next]⟩

/-- From a block on, control goes through blocks with no instructions and with one successor each. -/
inductive Slides (blocks : List Block) : BlockId → BlockId → Prop where
  | last {id target : BlockId} (h : LeadsOn blocks id target) : Slides blocks id target
  | step {id next target : BlockId} (h : LeadsOn blocks id next) (hblank : Blank blocks next)
      (hrest : Slides blocks next target) : Slides blocks id target

/-- Whichever successors are chosen, control comes to the target. -/
inductive ComesTo (blocks : List Block) (target : BlockId) : BlockId → Prop where
  | here : ComesTo blocks target target
  | step {id : BlockId} {b : Block} (hb : blockOf? blocks id = some b) (hsuccs : b.succs ≠ [])
      (hrest : ∀ next ∈ b.succs, ComesTo blocks target next) : ComesTo blocks target id

/-- From the first block on each leads to the next, over the merge blocks of these jumps and on to the target. A
merge block has two predecessors: the block of its jump and the one before it. -/
def JumpChain (blocks : List Block) : BlockId → List (BlockId × BlockId) → BlockId → Prop
  | start, [], target => LeadsOn blocks start target
  | start, (source, join) :: rest, target =>
    LeadsOn blocks start join ∧ LeadsOn blocks source join ∧ (predsOf blocks join).Perm [source, start] ∧
      Blank blocks join ∧ JumpChain blocks join rest target

/-- A chain whose last block has no successor yet. -/
def Links (blocks : List Block) : BlockId → List (BlockId × BlockId) → Prop
  | _, [] => True
  | start, (source, join) :: rest =>
    Relays blocks start join ∧ LeadsOn blocks source join ∧ (predsOf blocks join).Perm [source, start] ∧
      Links blocks join rest

/-- A chain that has moreover no link to its first merge block yet. -/
def Waits (blocks : List Block) : List (BlockId × BlockId) → Prop
  | [] => True
  | (source, join) :: rest =>
    LeadsOn blocks source join ∧ (predsOf blocks join).Perm [source] ∧ Links blocks join rest

/-- Where a chain ends. -/
def endOf (start : BlockId) (jumps : List (BlockId × BlockId)) : BlockId := (jumps.map Prod.snd).getLastD start

theorem endOf_cons (start : BlockId) (jump : BlockId × BlockId) (rest : List (BlockId × BlockId)) :
    endOf start (jump :: rest) = endOf jump.2 rest := by
  rw [endOf, endOf, List.map_cons, List.getLastD_cons]

section Changes

variable {ids : Set BlockId} {old new blocks : List Block} {id next start target source join : BlockId}
  {jumps : List (BlockId × BlockId)}

theorem LeadsOn.kept (h : LeadsOn old id next) (hkept : Kept old new) : LeadsOn new id next := by
  obtain ⟨b, hb, hsuccs⟩ := h
  exact ⟨b, hkept.linked hb (by simp [hsuccs]), hsuccs⟩

theorem Blank.kept (h : Blank old id) (hleads : LeadsOn old id next) (hkept : Kept old new) : Blank new id := by
  obtain ⟨b, hb, hinstrs⟩ := h
  obtain ⟨c, hc, hsuccs⟩ := hleads
  obtain rfl : b = c := Option.some.inj (hb.symm.trans hc)
  exact ⟨b, hkept.linked hb (by simp [hsuccs]), hinstrs⟩

theorem Relays.kept (h : Relays old id next) (hkept : Kept old new) : Relays new id next :=
  hkept.linked h (List.cons_ne_nil _ _)

theorem Relays.leadsOn (h : Relays blocks id next) : LeadsOn blocks id next := ⟨_, h, rfl⟩

theorem Relays.blank (h : Relays blocks id next) : Blank blocks id := ⟨_, h, rfl⟩

theorem LeadsOn.comesTo (h : LeadsOn blocks id target) : ComesTo blocks target id := by
  obtain ⟨b, hb, hsuccs⟩ := h
  refine .step hb (by simp [hsuccs]) fun next hnext => ?_
  rw [hsuccs, List.mem_singleton] at hnext
  exact hnext ▸ .here

theorem ComesTo.kept (h : ComesTo old target id) (hkept : Kept old new) : ComesTo new target id := by
  induction h with
  | here => exact .here
  | step hb hsuccs _ ih => exact .step (hkept.linked hb hsuccs) hsuccs ih

theorem ComesTo.trans (h : ComesTo blocks next id) (h' : ComesTo blocks target next) : ComesTo blocks target id := by
  induction h with
  | here => exact h'
  | step hb hsuccs _ ih => exact .step hb hsuccs ih

theorem Links.spared (h : Links old start jumps) (hspares : Spares ids old new) (hids : ∀ jump ∈ jumps, jump.2 ∈ ids) :
    Links new start jumps := by
  induction jumps generalizing start with
  | nil => trivial
  | cons jump rest ih =>
      obtain ⟨hrelays, hleads, hpreds, hrest⟩ := h
      obtain ⟨hid, hids⟩ := List.forall_mem_cons.mp hids
      exact ⟨hrelays.kept hspares.kept, hleads.kept hspares.kept, (hspares.preds _ hid).trans hpreds, ih hrest hids⟩

theorem Waits.spared (h : Waits old jumps) (hspares : Spares ids old new) (hids : ∀ jump ∈ jumps, jump.2 ∈ ids) :
    Waits new jumps := by
  cases jumps with
  | nil => trivial
  | cons jump rest =>
      obtain ⟨hleads, hpreds, hrest⟩ := h
      obtain ⟨hid, hids⟩ := List.forall_mem_cons.mp hids
      exact ⟨hleads.kept hspares.kept, (hspares.preds _ hid).trans hpreds, hrest.spared hspares hids⟩

theorem JumpChain.leadsOn (h : JumpChain blocks start jumps target) : ∃ next, LeadsOn blocks start next := by
  cases jumps with
  | nil => exact ⟨target, h⟩
  | cons jump rest => exact ⟨jump.2, h.1⟩

theorem JumpChain.spared (h : JumpChain old start jumps target) (hspares : Spares ids old new)
    (hids : ∀ jump ∈ jumps, jump.2 ∈ ids) : JumpChain new start jumps target := by
  induction jumps generalizing start with
  | nil => exact LeadsOn.kept h hspares.kept
  | cons jump rest ih =>
      obtain ⟨hstart, hsource, hpreds, hblank, hrest⟩ := h
      obtain ⟨hid, hids⟩ := List.forall_mem_cons.mp hids
      obtain ⟨next, hnext⟩ := hrest.leadsOn
      exact ⟨hstart.kept hspares.kept, hsource.kept hspares.kept, (hspares.preds _ hid).trans hpreds,
        hblank.kept hnext hspares.kept, ih hrest hids⟩

/-- A chain gets one more merge block. -/
theorem Links.concat (h : Links blocks start jumps) (hend : Relays blocks (endOf start jumps) join)
    (hsource : LeadsOn blocks source join) (hpreds : (predsOf blocks join).Perm [source, endOf start jumps]) :
    Links blocks start (jumps ++ [(source, join)]) := by
  induction jumps generalizing start with
  | nil => exact ⟨hend, hsource, hpreds, trivial⟩
  | cons jump rest ih =>
      rw [endOf_cons] at hend hpreds
      exact ⟨h.1, h.2.1, h.2.2.1, ih h.2.2.2 hend hpreds⟩

/-- A chain is finished by the link from its end. -/
theorem Links.close (h : Links blocks start jumps) (hend : Relays blocks (endOf start jumps) target) :
    Blank blocks start ∧ JumpChain blocks start jumps target := by
  induction jumps generalizing start with
  | nil => exact ⟨hend.blank, hend.leadsOn⟩
  | cons jump rest ih =>
      obtain ⟨hrelays, hsource, hpreds, hrest⟩ := h
      rw [endOf_cons] at hend
      obtain ⟨hblank, hchain⟩ := ih hrest hend
      exact ⟨hrelays.blank, hrelays.leadsOn, hsource, hpreds, hblank, hchain⟩

/-- The whole way from the start of a chain to its target is forced. -/
theorem JumpChain.slides (h : JumpChain blocks start jumps target) : Slides blocks start target := by
  induction jumps generalizing start with
  | nil => exact .last h
  | cons jump rest ih =>
      obtain ⟨hstart, _, _, hblank, hrest⟩ := h
      exact .step hstart hblank (ih hrest)

/-- And so is the way of every jump. -/
theorem JumpChain.slides_of_mem (h : JumpChain blocks start jumps target) {jump : BlockId × BlockId}
    (hjump : jump ∈ jumps) : Slides blocks jump.1 target := by
  induction jumps generalizing start with
  | nil => cases hjump
  | cons jump' rest ih =>
      obtain ⟨_, hsource, _, hblank, hrest⟩ := h
      rcases List.mem_cons.mp hjump with rfl | hjump
      · exact .step hsource hblank hrest.slides
      · exact ih hrest hjump

end Changes

section Links

variable {s : Builder} {id next : BlockId} {b : Block}

theorem leadsOn_link (hb : s.block? id = some b) : LeadsOn (s.link id [next]).blocks id next := by
  refine ⟨{ b with succs := [next] }, ?_, rfl⟩
  change (s.link id [next]).block? id = _
  rw [Builder.block?_link, if_pos rfl, hb]
  rfl

theorem relays_link (hb : s.block? id = some (.empty id)) : Relays (s.link id [next]).blocks id next := by
  change (s.link id [next]).block? id = _
  rw [Builder.block?_link, if_pos rfl, hb]
  rfl

theorem leadsOn_deliver {phi : InstrId} {entry : Phi.Entry} {value : Operand} (h : s.At b) :
    LeadsOn (s.deliver phi next entry value).blocks s.current next :=
  leadsOn_link (Builder.At_emit (s := s.withPhis _) h)

theorem comesTo_openMerge {blocks : List Block} {condition : Operand} {trueFirst : Bool} {target : BlockId}
    (h : s.At b) (hkept : Kept (s.openMerge condition trueFirst).blocks blocks)
    (hfirst : ComesTo blocks target (s.firstArm trueFirst)) (hother : ComesTo blocks target (s.otherArm trueFirst)) :
    ComesTo blocks target s.current := by
  have hsplit : (s.openMerge condition trueFirst).block? s.current = some
      { b with instrs := b.instrs ++ [⟨s.draw.supply.nextInstr, .branch, [condition], none⟩],
               succs := [s.later 0, s.later 1] } :=
    Builder.At_link (Builder.At_alloc (Builder.At_alloc (Builder.At_alloc (Builder.At_emit (s := s.draw) h))))
  refine .step (hkept.linked hsplit (List.cons_ne_nil _ _)) (List.cons_ne_nil _ _) ?_
  rw [List.forall_mem_cons, List.forall_mem_singleton]
  cases trueFirst with
  | true => exact ⟨hfirst, hother⟩
  | false => exact ⟨hother, hfirst⟩

end Links

/-- Whatever way control takes through code, it comes to where the code ends. -/
theorem Trace.comesTo {k : Stage} {held held' : Set InstrId} {s t : Builder} (h : Trace k held s held' t)
    (hk : k = .code) : ComesTo t.blocks t.current s.current := by
  induction h with
  | refl | draw | emit | rebind | function => exact .here
  | trans h₁ h₂ ih₁ ih₂ => exact ((ih₁ rfl).kept h₂.spares.kept).trans (ih₂ rfl)
  | @merge _ _ _ s s₁ s₂ condition v₁ v₂ trueFirst e₁ e₂ hready _ h₁ hready₁ _ _ h₂ hready₂ _ _ hjoin ih₁ ih₂ =>
      have hplace := Kept.of_extends (@Builder.extends_place _ _ s.supply.nextInstr hjoin)
      have hdeliver₂ : Kept s₂.blocks (s₂.deliver s.supply.nextInstr (s.later 2) e₂ v₂).blocks :=
        .of_extends (Builder.extends_deliver hready₂.1.unlinked)
      have hdeliver₁ : Kept s₁.blocks (s₁.deliver s.supply.nextInstr (s.later 2) e₁ v₁).blocks :=
        .of_extends (Builder.extends_deliver hready₁.1.unlinked)
      have hsecond := h₂.spares.kept.trans (hdeliver₂.trans hplace)
      obtain ⟨b, hat, _⟩ := hready.1
      obtain ⟨b₁, hat₁, _⟩ := hready₁.1
      obtain ⟨b₂, hat₂, _⟩ := hready₂.1
      -- Both arms end in the join.
      refine comesTo_openMerge hat (h₁.spares.kept.trans (hdeliver₁.trans hsecond)) ?_ ?_
      · exact ((ih₁ rfl).kept (hdeliver₁.trans hsecond)).trans ((leadsOn_deliver hat₁).comesTo.kept hsecond)
      · exact ((ih₂ rfl).kept (hdeliver₂.trans hplace)).trans ((leadsOn_deliver hat₂).comesTo.kept hplace)
  | _ => cases hk

/-- The loop and its chains are as the chart says. -/
structure Loop.Charted (blocks : List Block) (l : Loop) (c : Chart) : Prop where
  labels : l.labels = c.labels
  breaks : l.breaks = c.exits.map Prod.snd
  continues : l.continues = c.nexts.map Prod.snd
  exits : Links blocks l.breakEntry c.exits
  nexts : Waits blocks c.nexts

namespace Loop.Charted

variable {ids : Set BlockId} {old new : List Block} {c : Chart} {l : Loop}

theorem exit_mem (h : l.Charted old c) {jump : BlockId × BlockId} (hjump : jump ∈ c.exits) : jump.2 ∈ l.joins := by
  rw [Loop.joins, h.breaks]
  exact List.mem_append_left _ (List.mem_map_of_mem hjump)

theorem next_mem (h : l.Charted old c) {jump : BlockId × BlockId} (hjump : jump ∈ c.nexts) : jump.2 ∈ l.joins := by
  rw [Loop.joins, h.continues]
  exact List.mem_append_right _ (List.mem_map_of_mem hjump)

theorem spared (h : l.Charted old c) (hspares : Spares ids old new) (hids : ∀ id ∈ l.joins, id ∈ ids) :
    l.Charted new c where
  labels := h.labels
  breaks := h.breaks
  continues := h.continues
  exits := h.exits.spared hspares fun _ hjump => hids _ (h.exit_mem hjump)
  nexts := h.nexts.spared hspares fun _ hjump => hids _ (h.next_mem hjump)

theorem forall₂_mono {ls : List Loop} {charts : List Chart} (h : List.Forall₂ (Loop.Charted old) ls charts)
    (hkept : ∀ l ∈ ls, ∀ c, l.Charted old c → l.Charted new c) : List.Forall₂ (Loop.Charted new) ls charts := by
  induction h with
  | nil => exact .nil
  | cons hc _ ih =>
      obtain ⟨hl, hkept⟩ := List.forall_mem_cons.mp hkept
      exact .cons (hl _ hc) (ih hkept)

theorem breakTarget (h : l.Charted old c) : l.breakTarget = endOf l.breakEntry c.exits := by
  rw [Loop.breakTarget, h.breaks, endOf]

end Loop.Charted

/-- The links of a jump: its merge block is the successor of its own block and of the end of its chain, unless
that has to wait for the update code. -/
theorem Builder.jumpTo_links {s : Builder} {kind : Jump} {inner outer : List Loop} {frame : Loop}
    (hready : Stage.code.Ready s) (hloops : s.loops = inner ++ frame :: outer) :
    LeadsOn (s.jumpTo kind inner frame outer).blocks s.current (s.later 0) ∧
    (if frame.linksAtOnce kind then
      Relays (s.jumpTo kind inner frame outer).blocks (frame.chainEnd kind) (s.later 0) ∧
        (predsOf (s.jumpTo kind inner frame outer).blocks (s.later 0)).Perm [s.current, frame.chainEnd kind]
    else (predsOf (s.jumpTo kind inner frame outer).blocks (s.later 0)).Perm [s.current]) := by
  obtain ⟨⟨b, hat, hb⟩, pending, hsound⟩ := hready
  have hnone : predsOf s.alloc.blocks (s.later 0) = [] := by
    rw [predsOf, edgesOf_alloc]
    exact predsOf_eq_nil hsound (hsound.fresh.later_notMem 0)
  have hleads : LeadsOn (s.alloc.link s.current [s.later 0]).blocks s.current (s.later 0) :=
    leadsOn_link (At_alloc hat)
  have hpreds : (predsOf (s.alloc.link s.current [s.later 0]).blocks (s.later 0)).Perm [s.current] := by
    have hself := @perm_predsOf_link_self _ _ (s.later 0) _ hsound.alloc.nodup (At_alloc hat) hb.succs
    rwa [hnone] at hself
  simp only [Builder.jumpTo]
  split
  · next honce =>
    have hempty := hsound.chainEnd_empty hloops honce
    refine ⟨hleads.kept (.of_extends (extends_link hempty rfl)), relays_link hempty, ?_⟩
    have hnodup : (s.alloc.link s.current [s.later 0]).ids.Nodup := by
      rw [ids_link]
      exact hsound.alloc.nodup
    have hself := @perm_predsOf_link_self _ _ (s.later 0) _ hnodup hempty rfl
    exact hself.trans ((hpreds.cons _).trans (.swap _ _ _))
  · exact ⟨hleads, hpreds⟩

theorem Loop.Charted.jumpTo {s : Builder} {kind : Jump} {inner outer : List Loop} {frame : Loop} {c : Chart}
    (h : frame.Charted s.blocks c) (hready : Stage.code.Ready s) (hloops : s.loops = inner ++ frame :: outer)
    (htaken : ∀ id ∈ frame.joins, id ∈ s.supply.taken) :
    (frame.extend kind (s.later 0)).Charted (s.jumpTo kind inner frame outer).blocks
      (c.extend kind (s.current, s.later 0)) := by
  obtain ⟨hleads, hlinks⟩ := @Builder.jumpTo_links s kind inner outer frame hready hloops
  have hspared : frame.Charted (s.jumpTo kind inner frame outer).blocks c :=
    h.spared (Spares.jumpTo hready hloops (Builder.later_notMem_taken (le_refl _) 0)) htaken
  cases kind with
  | exit =>
      rw [Loop.linksAtOnce, if_pos rfl, Loop.chainEnd, h.breakTarget] at hlinks
      refine ⟨h.labels, ?_, h.continues, hspared.exits.concat hlinks.1 hleads hlinks.2, hspared.nexts⟩
      rw [Loop.extend, Chart.extend, h.breaks, List.map_append]
      rfl
  | next =>
      refine ⟨h.labels, h.breaks, ?_, hspared.exits, ?_⟩
      · rw [Loop.extend, Chart.extend, h.continues, List.map_append]
        rfl
      · have hwaits := hspared.nexts
        obtain ⟨_, _, hsound⟩ := hready
        have hframe : frame.Chained := (hsound.loops frame (by simp [hloops])).chained
        rw [Loop.linksAtOnce, Loop.chainEnd, hframe, h.continues] at hlinks
        rw [Chart.extend]
        cases hnexts : c.nexts with
        | nil =>
            rw [hnexts] at hlinks
            exact ⟨hleads, hlinks, trivial⟩
        | cons first rest =>
            rw [hnexts] at hlinks hwaits
            rw [List.map_cons, List.getLastD_cons] at hlinks
            exact ⟨hwaits.1, hwaits.2.1, hwaits.2.2.concat hlinks.1 hleads hlinks.2⟩

/-- The merge blocks of the jumps to open loops. -/
def Builder.joins (s : Builder) : List BlockId := s.loops.flatMap Loop.joins

/-- The charts say what the chains of the open loops are. -/
structure Framed (s : Builder) (charts : List Chart) : Prop where
  frames : List.Forall₂ (Loop.Charted s.blocks) s.loops charts
  nodup : s.joins.Nodup
  taken : ∀ id ∈ s.joins, id ∈ s.supply.taken

namespace Framed

variable {s t : Builder} {charts : List Chart} {ids : Set BlockId}

/-- What adds no edges to the merge blocks changes nothing. -/
theorem spared (h : Framed s charts) (hspares : Spares ids s.blocks t.blocks) (hids : ∀ id ∈ s.joins, id ∈ ids)
    (hloops : t.loops = s.loops) (hsupply : s.supply ≤ t.supply) : Framed t charts := by
  have hjoins : t.joins = s.joins := by rw [Builder.joins, hloops, Builder.joins]
  refine ⟨?_, hjoins ▸ h.nodup, fun id hid => Supply.taken_mono hsupply (h.taken id (hjoins ▸ hid))⟩
  have hinside : ∀ l ∈ s.loops, ∀ id ∈ l.joins, id ∈ ids :=
    fun l hl id hid => hids id (List.mem_flatMap.mpr ⟨l, hl, hid⟩)
  rw [hloops]
  exact Loop.Charted.forall₂_mono h.frames fun l hl _ hc => hc.spared hspares (hinside l hl)

/-- The jump is put down in the chart of the loop that it selects. -/
theorem frames_jumpTo {old new : List Block} {kind : Jump} {label : Option String} {source join : BlockId}
    {inner outer : List Loop} {frame : Loop} {passes : Option String → Bool}
    (h : List.Forall₂ (Loop.Charted old) (inner ++ frame :: outer) charts)
    (hinner : ∀ l ∈ inner, l.accepts label = false) (haccepts : frame.accepts label = true)
    (hpasses : passes label = true)
    (hkept : ∀ l ∈ inner ++ outer, ∀ c, l.Charted old c → l.Charted new c)
    (hextended : ∀ c, frame.Charted old c → (frame.extend kind join).Charted new (c.extend kind (source, join))) :
    List.Forall₂ (Loop.Charted new) (inner ++ frame.extend kind join :: outer)
      (record [.jump kind label source join] passes charts) := by
  induction inner generalizing charts passes with
  | nil =>
      obtain ⟨c, rest, hc, hrest, rfl⟩ := List.forall₂_cons_left_iff.mp h
      have hselects : selects label c.labels = true := by rw [← hc.labels, ← Loop.accepts_eq_selects, haccepts]
      rw [record, Chart.note_jump (by rw [hpasses, hselects]; rfl),
        record_jump_of_not_passes (by rw [hpasses, hselects]; rfl)]
      refine .cons (hextended c hc) ?_
      exact Loop.Charted.forall₂_mono hrest hkept
  | cons l inner ih =>
      obtain ⟨c, rest, hc, hrest, rfl⟩ := List.forall₂_cons_left_iff.mp h
      obtain ⟨hl, hinner⟩ := List.forall_mem_cons.mp hinner
      obtain ⟨hkept_l, hkept⟩ := List.forall_mem_cons.mp hkept
      have hselects : selects label c.labels = false := by rw [← hc.labels, ← Loop.accepts_eq_selects, hl]
      rw [record, Chart.note_jump_of_not_wanted (by rw [hselects, Bool.and_false])]
      exact .cons (hkept_l c hc) (ih hrest hinner (by rw [hpasses, hselects]; rfl) hkept)

theorem jumpTo {kind : Jump} {label : Option String} {inner outer : List Loop} {frame : Loop}
    (h : Framed s charts) (hready : Stage.code.Ready s) (hloops : s.loops = inner ++ frame :: outer)
    (hinner : ∀ l ∈ inner, l.accepts label = false) (haccepts : frame.accepts label = true) :
    Framed (s.jumpTo kind inner frame outer)
      (record [.jump kind label s.current (s.later 0)] (fun _ => true) charts) := by
  have hnew : s.later 0 ∉ s.supply.taken := Builder.later_notMem_taken (le_refl _) 0
  have htaken : ∀ l ∈ s.loops, ∀ id ∈ l.joins, id ∈ s.supply.taken :=
    fun l hl id hid => h.taken id (List.mem_flatMap.mpr ⟨l, hl, hid⟩)
  have hspares : Spares s.supply.taken s.blocks (s.jumpTo kind inner frame outer).blocks :=
    .jumpTo hready hloops hnew
  have hjoins : (s.jumpTo kind inner frame outer).joins.Perm (s.later 0 :: s.joins) := by
    rw [Builder.joins, Builder.joins, Builder.loops_jumpTo, hloops, List.flatMap_append, List.flatMap_append,
      List.flatMap_cons, List.flatMap_cons]
    refine (((frame.perm_joins_extend kind _).append_right _).append_left _).trans ?_
    exact List.perm_middle
  refine ⟨?_, ?_, fun id hid => ?_⟩
  · rw [Builder.loops_jumpTo]
    refine frames_jumpTo (hloops ▸ h.frames) hinner haccepts rfl (fun l hl c hc => ?_) fun c hc => ?_
    · refine hc.spared hspares (htaken l ?_)
      rw [hloops]
      exact (List.sublist_cons_self frame outer).append_left inner |>.subset hl
    · refine hc.jumpTo hready hloops (htaken frame ?_)
      rw [hloops]
      exact List.mem_append_right _ List.mem_cons_self
  · rw [hjoins.nodup_iff, List.nodup_cons]
    exact ⟨fun hmem => hnew (h.taken _ hmem), h.nodup⟩
  · rcases List.mem_cons.mp (hjoins.mem_iff.mp hid) with rfl | hid
    · rw [Builder.supply_jumpTo]
      exact Nat.lt_succ_self _
    · exact Supply.taken_mono Builder.supply_le_jumpTo (h.taken id hid)

end Framed

/-! The end of a loop. -/

/-- The chains of a loop in finished code. -/
structure LoopSite.Chained (blocks : List Block) (l : LoopSite) : Prop where
  breakEntry : Blank blocks l.blocks.breakEntry
  breaks : JumpChain blocks l.blocks.breakEntry (l.jumps .exit) l.blocks.after
  after : predsOf blocks l.blocks.after = [endOf l.blocks.breakEntry (l.jumps .exit)]
  update : ComesTo blocks l.blocks.updateEnd l.blocks.continueEntry
  continues : JumpChain blocks l.blocks.updateEnd (l.jumps .next) l.blocks.header
  header : (predsOf blocks l.blocks.header).Perm [l.blocks.preheader, endOf l.blocks.updateEnd (l.jumps .next)]

/-- The blocks whose predecessors matter to a loop. -/
def LoopSite.watched (l : LoopSite) : List BlockId :=
  l.blocks.header :: l.blocks.after :: (l.jumps .exit ++ l.jumps .next).map Prod.snd

theorem LoopSite.Chained.spared {ids : Set BlockId} {old new : List Block} {l : LoopSite} (h : l.Chained old)
    (hspares : Spares ids old new) (hids : ∀ id ∈ l.watched, id ∈ ids) : l.Chained new := by
  obtain ⟨hheader, hafter, hjoins⟩ : l.blocks.header ∈ ids ∧ l.blocks.after ∈ ids ∧
      ∀ jump ∈ l.jumps .exit ++ l.jumps .next, jump.2 ∈ ids :=
    ⟨hids _ List.mem_cons_self, hids _ (List.mem_cons_of_mem _ List.mem_cons_self),
      fun jump hjump => hids _ (List.mem_cons_of_mem _ (List.mem_cons_of_mem _ (List.mem_map_of_mem hjump)))⟩
  obtain ⟨hexits, hnexts⟩ := List.forall_mem_append.mp hjoins
  obtain ⟨next, hnext⟩ := h.breaks.leadsOn
  refine ⟨h.breakEntry.kept hnext hspares.kept, h.breaks.spared hspares hexits, ?_, h.update.kept hspares.kept,
    h.continues.spared hspares hnexts, (hspares.preds _ hheader).trans h.header⟩
  exact List.perm_singleton.mp ((hspares.preds _ hafter).trans (h.after ▸ .refl _))

namespace LoopEnd

variable {frame : Loop} {header preheader : BlockId} {pending : List BlockId} {s : Builder} {c : Chart}

/-- The link from the update code finishes the chain of the continues. -/
theorem chain_closeContinues (h : LoopEnd frame header pending s) (hc : frame.Charted s.blocks c)
    (hnodup : frame.continues.Nodup) (hheader : header ∉ frame.continues)
    (hpreds : (predsOf s.blocks header).Perm [preheader]) :
    JumpChain (s.closeContinues frame header).blocks s.current c.nexts header ∧
    (predsOf (s.closeContinues frame header).blocks header).Perm [preheader, endOf s.current c.nexts] := by
  obtain ⟨b, hat, hb⟩ := h.isOpen
  have hids := h.sound.nodup
  have hcontinues := hc.continues
  have hwaits := hc.nexts
  rw [Builder.closeContinues]
  cases hnexts : c.nexts with
  | nil =>
      rw [hnexts] at hcontinues
      rw [hcontinues]
      refine ⟨leadsOn_link hat, ?_⟩
      exact (Builder.perm_predsOf_link_self hids hat hb.succs).trans ((hpreds.cons _).trans (.swap _ _ _))
  | cons first rest =>
      obtain ⟨source, join⟩ := first
      rw [hnexts] at hcontinues hwaits
      obtain ⟨hsource, hjoin, hlinks⟩ := hwaits
      rw [hcontinues, List.map_cons, List.nodup_cons] at hnodup
      rw [hcontinues, List.map_cons, List.mem_cons, not_or] at hheader
      have hend : frame.continueTarget = endOf join rest := by
        rw [h.continues.chained, hcontinues, List.map_cons, List.getLastD_cons, endOf]
      have hempty := @continueTarget_empty _ _ _ _ h (by simp [hcontinues]) join
      rw [hend] at hempty
      -- The block of the update code is linked first.
      have hupdate : Spares {id | id ≠ join} s.blocks (s.link s.current [join]).blocks :=
        .link hids hat hb.succs fun t ht => by simp [List.mem_singleton.mp ht]
      have hjoin' : (predsOf (s.link s.current [join]).blocks join).Perm [source, s.current] :=
        (Builder.perm_predsOf_link_self hids hat hb.succs).trans ((hjoin.cons _).trans (.swap _ _ _))
      have hlinks' : Links (s.link s.current [join]).blocks join rest :=
        hlinks.spared hupdate fun jump hjump heq => hnodup.1 (List.mem_map.mpr ⟨jump, hjump, heq⟩)
      -- Then the end of the chain.
      have hids' : (s.link s.current [join]).ids.Nodup := by rwa [Builder.ids_link]
      have hback : Spares {id | id ≠ header} (s.link s.current [join]).blocks
          ((s.link s.current [join]).link (endOf join rest) [header]).blocks :=
        .link hids' hempty rfl fun t ht => by simp [List.mem_singleton.mp ht]
      have hclosed := (hlinks'.spared hback fun jump hjump heq =>
        hheader.2 (List.mem_map.mpr ⟨jump, hjump, heq⟩)).close (relays_link hempty)
      rw [hcontinues, List.map_cons]
      dsimp only
      rw [hend, endOf_cons]
      refine ⟨⟨(leadsOn_link hat).kept hback.kept, (hsource.kept hupdate.kept).kept hback.kept, ?_, hclosed⟩, ?_⟩
      · exact (hback.preds join (Ne.symm hheader.1)).trans hjoin'
      · refine (Builder.perm_predsOf_link_self hids' hempty rfl).trans ?_
        exact (((hupdate.preds header hheader.1).trans hpreds).cons _).trans (.swap _ _ _)

theorem blocks_closeLoop : (s.closeLoop frame header).blocks =
    ((s.closeContinues frame header).alloc.link frame.breakTarget [s.later 0]).blocks := by
  have hlater : (s.closeContinues frame header).later 0 = s.later 0 := by
    rw [Builder.later, Builder.supply_closeContinues, Builder.later]
  rw [← hlater]
  rfl

/-- After its continues are closed, a loop gets an edge to the block behind it and no other. -/
theorem spares_after (h : LoopEnd frame header pending s) :
    Spares {id | id ≠ s.later 0} (s.closeContinues frame header).blocks (s.closeLoop frame header).blocks := by
  rw [blocks_closeLoop]
  refine Spares.alloc.trans (.link h.closeContinues.1.alloc.nodup h.breakTarget_empty rfl fun t ht => ?_)
  simp [List.mem_singleton.mp ht]

theorem predsOf_after (h : LoopEnd frame header pending s) :
    predsOf (s.closeLoop frame header).blocks (s.later 0) = [frame.breakTarget] := by
  have hnone : predsOf (s.closeContinues frame header).alloc.blocks (s.later 0) = [] := by
    rw [predsOf, Builder.edgesOf_alloc]
    refine Builder.predsOf_eq_nil h.closeContinues.1 ?_
    have hfresh := h.closeContinues.1.fresh.later_notMem 0
    rwa [Builder.later, Builder.supply_closeContinues] at hfresh
  have hself := @Builder.perm_predsOf_link_self _ _ (s.later 0) _ h.closeContinues.1.alloc.nodup h.breakTarget_empty rfl
  rw [hnone] at hself
  rw [blocks_closeLoop]
  exact List.perm_singleton.mp hself

/-- The link from the end of the breaks finishes theirs. -/
theorem chain_breaks (h : LoopEnd frame header pending s) (hc : frame.Charted s.blocks c) (hnodup : frame.joins.Nodup)
    (hheader : header ∉ frame.joins) (hjoins : ∀ id ∈ frame.joins, id ∈ s.supply.taken) :
    Blank (s.closeLoop frame header).blocks frame.breakEntry ∧
    JumpChain (s.closeLoop frame header).blocks frame.breakEntry c.exits (s.later 0) := by
  have hdisjoint := (List.nodup_append.mp hnodup).2.2
  have hclose : Spares {id | id ≠ header ∧ id ∉ frame.continues} s.blocks (s.closeContinues frame header).blocks :=
    .closeContinues h (fun hmem => hmem.1 rfl) fun first hfirst hmem => hmem.2 (List.mem_of_mem_head? hfirst)
  have hlinks : Links (s.closeContinues frame header).blocks frame.breakEntry c.exits := by
    refine hc.exits.spared hclose fun jump hjump => ⟨fun heq => hheader (heq ▸ hc.exit_mem hjump), fun hmem => ?_⟩
    exact hdisjoint _ (hc.breaks ▸ List.mem_map_of_mem hjump) _ hmem rfl
  refine (hlinks.spared h.spares_after fun jump hjump heq => ?_).close ?_
  · exact Builder.later_notMem_taken (le_refl _) 0 (heq ▸ hjoins _ (hc.exit_mem hjump))
  · rw [blocks_closeLoop, ← hc.breakTarget]
    exact relays_link h.breakTarget_empty

theorem chain_closeLoop (h : LoopEnd frame header pending s) (hc : frame.Charted s.blocks c)
    (hnodup : frame.joins.Nodup) (hheader : header ∉ frame.joins) (htaken : header ∈ s.supply.taken)
    (hjoins : ∀ id ∈ frame.joins, id ∈ s.supply.taken) (hpreds : (predsOf s.blocks header).Perm [preheader])
    {labels : List String} {entry : BlockId} {body : List Site} (hentry : ComesTo s.blocks s.current entry)
    (hexits : c.exits = jumpsOf .exit (fun label => selects label labels) body)
    (hnexts : c.nexts = jumpsOf .next (fun label => selects label labels) body) :
    LoopSite.Chained (s.closeLoop frame header).blocks
      ⟨labels, ⟨preheader, header, entry, s.current, frame.breakEntry, s.later 0⟩, body⟩ := by
  have hnew : ∀ id ∈ s.supply.taken, id ≠ s.later 0 := by
    rintro id hid rfl
    exact Builder.later_notMem_taken (le_refl _) 0 hid
  obtain ⟨hblank, hbreaks⟩ := h.chain_breaks hc hnodup hheader hjoins
  obtain ⟨hcontinues, hpreds'⟩ := h.chain_closeContinues hc (List.nodup_append.mp hnodup).2.1
    (fun hmem => hheader (List.mem_append_right _ hmem)) hpreds
  have hkept : Kept s.blocks (s.closeLoop frame header).blocks := .of_extends (Builder.extends_closeLoop h)
  refine ⟨hblank, ?_, ?_, hentry.kept hkept, ?_, ?_⟩
  · rw [LoopSite.jumps, ← hexits]
    exact hbreaks
  · rw [LoopSite.jumps, ← hexits, ← hc.breakTarget]
    exact h.predsOf_after
  · rw [LoopSite.jumps, ← hnexts]
    exact hcontinues.spared h.spares_after fun jump hjump => hnew _ (hjoins _ (hc.next_mem hjump))
  · rw [LoopSite.jumps, ← hnexts]
    exact (h.spares_after.preds header (hnew _ htaken)).trans hpreds'

end LoopEnd

end ScriptSsa
