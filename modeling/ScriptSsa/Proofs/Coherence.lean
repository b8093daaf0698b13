import ScriptSsa.Proofs.Yields

/-!
Blocks of a function under construction refer to blocks of the same function.

`LegalSteps s t` leads from one builder to another by single changes, each with what it relies on: a block is entered
or linked only if it is there, it is linked once and to blocks that are there, and a join is empty when its phi is
placed. Such changes keep a builder coherent: its blocks lead to blocks of its own, the loops around the current
place have their blocks there, and each keeps the end of its chain of continues. `Within` says that a run is made of
such changes, whether it succeeds or fails.
-/

namespace ScriptSsa

/-- The blocks that the jumps of a loop are led to. -/
def Loop.blocks (loop : Loop) : List BlockId :=
  loop.continueEntry :: loop.breakEntry :: (loop.continues ++ loop.breaks)

/-- The jumps of a loop are led to the given blocks, and the loop keeps the end of its chain of continues. -/
structure Loop.Coherent (ids : List BlockId) (loop : Loop) : Prop where
  blocks : loop.blocks ⊆ ids
  chained : loop.Chained

theorem Loop.Coherent.mono {ids ids' : List BlockId} {loop : Loop} (h : loop.Coherent ids) (hids : ids ⊆ ids') :
    loop.Coherent ids' :=
  ⟨List.Subset.trans h.blocks hids, h.chained⟩

/-- A jump leads to one more block, which is there when the chain takes it up. -/
theorem Loop.Coherent.extend {ids : List BlockId} {loop : Loop} (h : loop.Coherent ids) (kind : Jump) {join : BlockId}
    (hjoin : join ∈ ids) : (loop.extend kind join).Coherent ids := by
  refine ⟨?_, h.chained.extend kind join⟩
  have hblocks := h.blocks
  simp only [Loop.blocks, List.cons_subset, List.append_subset] at hblocks
  cases kind <;> simp [Loop.blocks, Loop.extend, hblocks, hjoin]

namespace Builder

/-- No block of the builder is missing from it. -/
structure Coherent (s : Builder) : Prop where
  nodup : s.ids.Nodup
  fresh : s.Fresh
  current : s.current ∈ s.ids
  succs : ∀ b ∈ s.blocks, b.succs ⊆ s.ids
  loops : ∀ loop ∈ s.loops, loop.Coherent s.ids

variable {s t : Builder} {id : BlockId}

theorem Fresh.of_ids_eq (h : s.Fresh) (hids : t.ids = s.ids) (hsupply : s.supply ≤ t.supply) : t.Fresh :=
  fun id hid => Nat.lt_of_lt_of_le (h id (hids ▸ hid)) hsupply.2

/-- A function starts with one block, without edges and outside all loops. -/
theorem coherent_nested (s : Builder) : s.nested.Coherent where
  nodup := List.nodup_singleton _
  fresh := by
    intro id hid
    rw [List.mem_singleton.mp hid]
    exact Nat.lt_succ_self _
  current := List.mem_singleton.mpr rfl
  succs := by
    intro b hb
    rw [List.mem_singleton.mp hb]
    exact List.nil_subset _
  loops := nofun

namespace Coherent

theorem at_current (h : s.Coherent) : ∃ b, s.At b := exists_block? h.current

/-- A change that leaves the blocks alone. -/
theorem aside (h : s.Coherent) (hblocks : t.blocks = s.blocks) (hcurrent : t.current ∈ s.ids)
    (hsupply : s.supply ≤ t.supply) (hloops : ∀ loop ∈ t.loops, loop.Coherent s.ids) : t.Coherent := by
  have hids : t.ids = s.ids := congrArg (List.map Block.id) hblocks
  refine ⟨hids ▸ h.nodup, h.fresh.of_ids_eq hids hsupply, hids ▸ hcurrent, ?_, hids ▸ hloops⟩
  rw [hblocks, hids]
  exact h.succs

theorem alloc (h : s.Coherent) : s.alloc.Coherent := by
  have hsubset : s.ids ⊆ s.alloc.ids := by
    rw [ids_alloc]
    exact List.subset_append_left _ _
  refine ⟨?_, h.fresh.alloc, hsubset h.current, fun b hb => ?_, fun loop hloop => ?_⟩
  · rw [ids_alloc]
    exact h.nodup.append (List.nodup_singleton _) (List.disjoint_singleton.mpr (h.fresh.later_notMem 0))
  · rcases List.mem_append.mp hb with hb | hb
    · exact List.Subset.trans (h.succs b hb) hsubset
    · rw [List.mem_singleton.mp hb]
      exact List.nil_subset _
  · exact (h.loops loop hloop).mono hsubset

/-- A changed block keeps its id and may lead to blocks that are there. -/
theorem modifyBlock {f : Block → Block} (h : s.Coherent) (hid : ∀ b, b.id = id → (f b).id = id)
    (hsuccs : ∀ b ∈ s.blocks, b.id = id → (f b).succs ⊆ s.ids) : (s.modifyBlock id f).Coherent := by
  have hids : (s.modifyBlock id f).ids = s.ids := ids_modifyBlock hid
  refine ⟨hids ▸ h.nodup, h.fresh.of_ids_eq hids (le_refl _), hids ▸ h.current, fun b hb => ?_, hids ▸ h.loops⟩
  rw [hids]
  obtain ⟨c, hc, rfl⟩ := List.mem_map.mp hb
  split
  · next hcid => exact hsuccs c hc hcid
  · exact h.succs c hc

theorem emit {binding : Option String} {opcode : Opcode} {operands : List Operand} (h : s.Coherent) :
    (s.emit binding opcode operands).Coherent := by
  have hdraw : s.draw.Coherent := h.aside rfl h.current (Supply.le_dropInstr _) h.loops
  exact hdraw.modifyBlock (fun _ hid => hid) fun b hb _ => h.succs b hb

end Coherent

end Builder

/-- The builder stays coherent, and blocks are only added to it. -/
structure StaysCoherent (s t : Builder) : Prop where
  coherent : t.Coherent
  ids : s.ids ⊆ t.ids
  supply : s.supply ≤ t.supply

namespace StaysCoherent

variable {s t u : Builder}

/-- Blocks and ids that were there first are still there in the end. -/
theorem trans (h : StaysCoherent s t) (h' : StaysCoherent t u) : StaysCoherent s u :=
  ⟨h'.coherent, List.Subset.trans h.ids h'.ids, le_trans h.supply h'.supply⟩

/-- A change that adds no block. -/
theorem of_ids_eq (h : t.Coherent) (hids : t.ids = s.ids) (hsupply : s.supply ≤ t.supply) : StaysCoherent s t :=
  ⟨h, hids ▸ List.Subset.refl _, hsupply⟩

theorem emit {binding : Option String} {opcode : Opcode} {operands : List Operand} (h : s.Coherent) :
    StaysCoherent s (s.emit binding opcode operands) :=
  of_ids_eq h.emit Builder.ids_emit (Supply.le_dropInstr _)

theorem bindLocal {name : String} {value : Operand} (h : s.Coherent) : StaysCoherent s (s.bindLocal name value) := by
  rw [Builder.bindLocal]
  cases hbound : (s.block? s.current).bind fun b => b.bindLast? name value with
  | none => exact emit h
  | some bound =>
      obtain ⟨b, hat, hlast⟩ := Option.bind_eq_some_iff.mp hbound
      refine of_ids_eq (h.modifyBlock (fun _ _ => ?_) fun _ _ _ => ?_) (Builder.ids_replace_bound hat hlast) (le_refl _)
      · exact (Block.bindLast?_id hlast).trans (Builder.block?_id hat)
      · rw [Block.bindLast?_succs hlast]
        exact h.succs b (Builder.mem_of_block? hat)

end StaysCoherent

/-- Changes of a builder, each with what it relies on. -/
inductive LegalSteps : Builder → Builder → Prop where
  | refl {s : Builder} : LegalSteps s s
  | trans {s t u : Builder} (h : LegalSteps s t) (h' : LegalSteps t u) : LegalSteps s u
  | draw {s : Builder} : LegalSteps s s.draw
  | alloc {s : Builder} : LegalSteps s s.alloc
  | enter {s : Builder} {id : BlockId} (hid : id ∈ s.ids) : LegalSteps s (s.enter id)
  | link {s : Builder} {b : Block} {id : BlockId} {succs : List BlockId} (hid : s.block? id = some b)
      (honce : b.succs = []) (hsuccs : succs ⊆ s.ids) : LegalSteps s (s.link id succs)
  | emit {s : Builder} {b : Block} {opcode : Opcode} {binding : Option String} {operands : List Operand}
      (hat : s.At b) : LegalSteps s (s.emit binding opcode operands)
  | bind {s : Builder} {b : Block} {name : String} {value : Operand} (hat : s.At b) :
      LegalSteps s (s.bindLocal name value)
  | place {s : Builder} {b : Block} {phi : InstrId} {join : BlockId} (hjoin : s.block? join = some b)
      (hempty : b.instrs = []) : LegalSteps s (s.place phi join)
  | withPhis {s : Builder} {phis : Phi.Recorder} : LegalSteps s (s.withPhis phis)
  | withLoops {s : Builder} {loops : List Loop} (hloops : ∀ loop ∈ loops, loop.Coherent s.ids) :
      LegalSteps s (s.withLoops loops)
  | queue {s : Builder} {finished : GraphQueue} : LegalSteps s { s with finished }
  /-- A nested function has a builder of its own. -/
  | function {s t : Builder} (h : LegalSteps s.nested t) :
      LegalSteps s { s with supply := t.supply, finished := t.finished }

/-- The invariant over a whole run, from the single changes. -/
theorem LegalSteps.stays {s t : Builder} (h : LegalSteps s t) (hs : s.Coherent) : StaysCoherent s t := by
  induction h with
  | refl => exact .of_ids_eq hs rfl (le_refl _)
  | trans _ _ ih ih' =>
      have hstays := ih hs
      exact hstays.trans (ih' hstays.coherent)
  | @draw s =>
      have hsupply := s.supply.le_dropInstr
      exact .of_ids_eq (hs.aside rfl hs.current hsupply hs.loops) rfl hsupply
  | alloc =>
      refine ⟨hs.alloc, ?_, Supply.le_dropBlock _⟩
      rw [Builder.ids_alloc]
      exact List.subset_append_left _ _
  | enter hid => exact .of_ids_eq (hs.aside rfl hid (le_refl _) hs.loops) rfl (le_refl _)
  | link _ _ hsuccs =>
      exact .of_ids_eq (hs.modifyBlock (fun _ hid => hid) fun _ _ _ => hsuccs) Builder.ids_link (le_refl _)
  | emit => exact .emit hs
  | bind => exact .bindLocal hs
  | @place s b phi join hjoin _ =>
      have henter : (s.enter join).Coherent := hs.aside rfl (Builder.mem_ids_of_block? hjoin) (le_refl _) hs.loops
      refine .of_ids_eq ?_ Builder.ids_place (le_refl _)
      exact henter.modifyBlock (fun _ hid => hid) fun b hb _ => hs.succs b hb
  | withPhis | queue => exact .of_ids_eq (hs.aside rfl hs.current (le_refl _) hs.loops) rfl (le_refl _)
  | withLoops hloops => exact .of_ids_eq (hs.aside rfl hs.current (le_refl _) hloops) rfl (le_refl _)
  | @function s t _ ih =>
      have hsupply : s.supply ≤ t.supply := le_trans (Supply.le_dropBlock _) (ih s.coherent_nested).supply
      exact .of_ids_eq (hs.aside rfl hs.current hsupply hs.loops) rfl hsupply

namespace Build

variable {α β : Type}

/-- What the step ends in, with `Q` for success and `E` for failure. -/
def Ends (m : Build α) (s : Builder) (Q : α → Builder → Prop) (E : Builder → Prop) : Prop :=
  match m s with
  | .ok a t => Q a t
  | .error _ t => E t

namespace Ends

variable {m : Build α} {f : α → Build β} {s t : Builder} {P : α → Builder → Prop} {Q : β → Builder → Prop}
  {E : Builder → Prop}

theorem of_ok {a : α} (h : m s = .ok a t) (hP : P a t) : m.Ends s P E := by
  rw [Ends, h]
  exact hP

theorem of_error {e : BuildError} (h : m s = .error e t) (hE : E t) : m.Ends s P E := by
  rw [Ends, h]
  exact hE

theorem ok {a : α} (h : m.Ends s P E) (hok : m s = .ok a t) : P a t := by
  rw [Ends, hok] at h
  exact h

theorem error {e : BuildError} (h : m.Ends s P E) (herror : m s = .error e t) : E t := by
  rw [Ends, herror] at h
  exact h

/-- What holds at the end may be weakened, for failure as for success. -/
theorem mono {P' : α → Builder → Prop} {E' : Builder → Prop} (h : m.Ends s P E) (hP : ∀ a t, P a t → P' a t)
    (hE : ∀ t, E t → E' t) : m.Ends s P' E' := by
  cases hm : m s with
  | ok a t => exact of_ok hm (hP a t (h.ok hm))
  | error e t => exact of_error hm (hE t (h.error hm))

/-- If the first part fails, the run ends where it failed. -/
theorem bind (hm : m.Ends s P E) (hf : ∀ a t, P a t → (f a).Ends t Q E) : (m >>= f).Ends s Q E := by
  cases h : m s with
  | ok a t =>
      rw [Ends, bind_ok h]
      exact hf a t (hm.ok h)
  | error e t => exact of_error (bind_error h) (hm.error h)

end Ends

/-- The step takes legal changes if the known blocks are there. `names` are the blocks that its result names. -/
def Within (known : List BlockId) (m : Build α) (names : α → List BlockId) : Prop :=
  ∀ s, s.Coherent → known ⊆ s.ids → m.Ends s (fun a t => LegalSteps s t ∧ names a ⊆ t.ids) (LegalSteps s)

/-- No blocks are known beforehand, and the result names none. -/
def Coheres (m : Build α) : Prop := Within [] m fun _ => []

variable {known : List BlockId}

namespace Within

variable {m : Build α} {f : α → Build β} {names : α → List BlockId} {names' : β → List BlockId}

theorem pure {a : α} (h : names a ⊆ known) : Within known (Pure.pure a : Build α) names :=
  fun s _ hknown => .of_ok (t := s) rfl ⟨.refl, List.Subset.trans h hknown⟩

theorem fail {e : BuildError} : Within known (Build.fail e : Build α) names :=
  fun s _ _ => .of_error (t := s) rfl .refl

/-- The second part may use the blocks that the first one names. -/
theorem bind (hm : Within known m names) (hf : ∀ a, Within (names a ++ known) (f a) names') :
    Within known (m >>= f) names' := by
  intro s hs hknown
  refine (hm s hs hknown).bind fun a t ⟨hlegal, hnames⟩ => ?_
  have hstays := hlegal.stays hs
  have hrest := hf a t hstays.coherent (List.append_subset.mpr ⟨hnames, List.Subset.trans hknown hstays.ids⟩)
  exact hrest.mono (fun b u h => ⟨hlegal.trans h.1, h.2⟩) fun u h => hlegal.trans h

/-- A step that succeeds, or else leaves the builder as it is. -/
theorem of_cases (h : ∀ s, s.Coherent → known ⊆ s.ids →
    (∃ a t, m s = .ok a t ∧ LegalSteps s t ∧ names a ⊆ t.ids) ∨ ∃ e, m s = .error e s) : Within known m names := by
  intro s hs hknown
  rcases h s hs hknown with ⟨a, t, hok, hlegal⟩ | ⟨e, herror⟩
  · exact .of_ok hok hlegal
  · exact .of_error herror .refl

/-- A step that succeeds, with a result that names no blocks. -/
theorem of_ok {m : Build α} (h : ∀ s, s.Coherent → known ⊆ s.ids → ∃ a t, m s = .ok a t ∧ LegalSteps s t) :
    Within known m fun _ => [] := by
  intro s hs hknown
  obtain ⟨a, t, hok, hlegal⟩ := h s hs hknown
  exact .of_ok hok ⟨hlegal, List.nil_subset _⟩

end Within

namespace Coheres

variable {m : Build α} {f : α → Build β}

/-- Code that needs no blocks runs also where some are known. -/
theorem within (h : Coheres m) : Within known m fun _ => [] := fun s hs _ => h s hs (List.nil_subset _)

theorem pure {a : α} : Coheres (Pure.pure a : Build α) := Within.pure (List.nil_subset _)

theorem fail {e : BuildError} : Coheres (Build.fail e : Build α) := Within.fail

theorem bind (hm : Coheres m) (hf : ∀ a, Coheres (f a)) : Coheres (m >>= f) := Within.bind hm hf

end Coheres

/-! The steps. -/

theorem within_newBlock : Within known newBlock fun id => [id] := by
  refine .of_cases fun s _ _ => .inl ⟨s.later 0, s.alloc, newBlock_eq, .alloc, ?_⟩
  rw [Builder.ids_alloc]
  exact List.subset_append_right _ _

theorem coheres_freshInstr : Coheres freshInstr := .of_ok fun s _ _ => ⟨_, s.draw, freshInstr_eq, .draw⟩

theorem coheres_emitBound {binding : Option String} {opcode : Opcode} {operands : List Operand} :
    Coheres (emitBound binding opcode operands) := by
  refine .of_ok fun s hs _ => ?_
  obtain ⟨b, hat⟩ := hs.at_current
  exact ⟨_, _, emitBound_eq hat, .emit hat⟩

theorem coheres_perform {opcode : Opcode} {operands : List Operand} : Coheres (perform opcode operands) :=
  coheres_emitBound.bind fun _ => .pure

/-- A block that is not there is a fault, and nothing has changed by then. -/
theorem coheres_switchTo (id : BlockId) : Coheres (switchTo id) := by
  refine .of_cases fun s _ _ => ?_
  cases hb : s.block? id with
  | some b =>
      have hid := Builder.mem_ids_of_block? hb
      exact .inl ⟨(), s.enter id, switchTo_eq hid, .enter hid, List.nil_subset _⟩
  | none =>
      refine .inr ⟨.fault (.foreignBlock id), ?_⟩
      rw [switchTo, hb]

/-- That the block itself is there, and unlinked, is checked when it is linked. -/
theorem within_link {id : BlockId} {succs : List BlockId} (h : succs ⊆ known) :
    Within known (link id succs) fun _ => [] := by
  refine .of_cases fun s _ hknown => ?_
  cases hb : s.block? id with
  | some b =>
      cases hsuccs : b.succs.isEmpty with
      | true =>
          have honce : b.succs = [] := List.isEmpty_iff.mp hsuccs
          have htargets : succs ⊆ s.ids := List.Subset.trans h hknown
          exact .inl ⟨(), _, link_eq hb honce htargets, .link hb honce htargets, List.nil_subset _⟩
      | false =>
          refine .inr ⟨.fault (.linkedTwice id), ?_⟩
          rw [link, hb]
          simp [hsuccs]
  | none =>
      refine .inr ⟨.fault (.foreignBlock id), ?_⟩
      rw [link, hb]

theorem within_linkCurrent {succs : List BlockId} (h : succs ⊆ known) :
    Within known (linkCurrent succs) fun _ => [] := by
  have hlink : ∀ id, Within known (link id succs) fun _ => [] := fun id => within_link h
  exact fun s hs hknown => hlink s.current s hs hknown

theorem coheres_isTerminated : Coheres isTerminated := by
  refine .of_ok fun s hs _ => ?_
  obtain ⟨b, hat⟩ := hs.at_current
  exact ⟨_, s, isTerminated_eq hat, .refl⟩

theorem within_fallThrough {target : BlockId} (h : target ∈ known) : Within known (fallThrough target) fun _ => [] := by
  refine coheres_isTerminated.within.bind fun terminated => ?_
  cases terminated with
  | true => exact .pure (List.nil_subset _)
  | false => exact within_linkCurrent (by simpa using h)

theorem coheres_ensureOpen : Coheres ensureOpen := by
  refine coheres_isTerminated.bind fun terminated => ?_
  cases terminated with
  | true => exact within_newBlock.bind fun id => (coheres_switchTo id).within
  | false => exact .pure

theorem coheres_bindLocal (name : String) (value : Operand) : Coheres (bindLocal name value) := by
  refine .of_ok fun s hs _ => ?_
  obtain ⟨b, hat⟩ := hs.at_current
  exact ⟨_, _, bindLocal_eq hat, .bind hat⟩

theorem coheres_lift (result : Except BuildError α) : Coheres (lift result) := by
  cases result with
  | ok a => exact Coheres.pure
  | error e => exact Coheres.fail

theorem coheres_openPhi (phi : InstrId) (join : BlockId) : Coheres (openPhi phi join) :=
  .of_ok fun _ _ _ => ⟨(), _, rfl, .withPhis⟩

theorem coheres_contribute (phi : InstrId) (value : Operand) : Coheres (contribute phi value) := by
  intro s hs hknown
  have hrecord : ∀ recorder, Coheres (modify fun s : Builder => { s with phis := recorder }) := fun recorder =>
    .of_ok fun s _ _ => ⟨(), s.withPhis recorder, rfl, .withPhis⟩
  have hsteps : Coheres (Build.lift (s.phis.contribute phi s.current value) >>= fun recorder => do
      modify fun s => { s with phis := recorder }
      perform .toPhi [.instr phi, value]) :=
    (coheres_lift _).bind fun recorder => (hrecord recorder).bind fun _ => coheres_perform
  exact hsteps s hs hknown

/-- The check comes after the join is entered, so the failed run has moved there. -/
theorem enterJoin_occupied {join : BlockId} {phi : InstrId} {s : Builder} {b : Block} (hb : s.block? join = some b)
    (hfilled : b.isEmpty = false) : enterJoin join phi s = .error (.fault (.occupiedJoin join)) (s.enter join) := by
  have hget : getBlock join (s.enter join) = .ok b (s.enter join) := by rw [getBlock, Builder.block?_enter, hb]
  rw [enterJoin, bind_ok (switchTo_eq (Builder.mem_ids_of_block? hb)), bind_ok hget, hfilled]
  rfl

theorem coheres_enterJoin (join : BlockId) (phi : InstrId) : Coheres (enterJoin join phi) := by
  intro s _ _
  cases hb : s.block? join with
  | none =>
      have hswitch : switchTo join s = .error (.fault (.foreignBlock join)) s := by rw [switchTo, hb]
      exact .of_error (bind_error hswitch) .refl
  | some b =>
      cases hempty : b.isEmpty with
      | true =>
          have hinstrs : b.instrs = [] := List.isEmpty_iff.mp hempty
          exact .of_ok (enterJoin_eq hb hinstrs) ⟨.place hb hinstrs, List.nil_subset _⟩
      | false => exact .of_error (enterJoin_occupied hb hempty) (.enter (Builder.mem_ids_of_block? hb))

theorem within_pushLoop {loop : Loop} (h : loop.Coherent known) : Within known (pushLoop loop) fun _ => [] := by
  refine .of_ok fun s hs hknown => ⟨(), s.withLoops (loop :: s.loops), rfl, .withLoops ?_⟩
  exact List.forall_mem_cons.mpr ⟨h.mono hknown, hs.loops⟩

/-- The blocks of the loop come out with it, as those of a loop around the current place. -/
theorem within_popLoop : Within known popLoop Loop.blocks := by
  refine .of_cases fun s hs _ => ?_
  rw [popLoop]
  cases hloops : s.loops with
  | nil => exact .inr ⟨_, rfl⟩
  | cons loop outer =>
      have hinside := hs.loops
      rw [hloops, List.forall_mem_cons] at hinside
      exact .inl ⟨loop, s.withLoops outer, rfl, .withLoops hinside.2, hinside.1.blocks⟩

/-- The loops around a jump are put back, one of them with a longer chain. -/
theorem within_setLoops {loops : List Loop} (h : ∀ loop ∈ loops, loop.Coherent known) :
    Within known (setLoops loops) fun _ => [] := by
  refine .of_ok fun s _ hknown => ⟨(), s.withLoops loops, rfl, .withLoops fun loop hloop => ?_⟩
  exact (h loop hloop).mono hknown

/-- A step that looks at the loops around the current place. -/
theorem coheres_get_bind {f : Builder → Build α}
    (h : ∀ s known, (∀ loop ∈ s.loops, loop.Coherent known) → Within known (f s) fun _ => []) :
    Coheres ((get : Build Builder) >>= f) :=
  fun s hs _ => h s s.ids hs.loops s hs (List.Subset.refl _)

/-! The block patterns. -/

theorem coheres_branch {test : Build Operand} {consequent alternate : Build Unit} (htest : Coheres test)
    (hconsequent : Coheres consequent) (halternate : Coheres alternate) :
    Coheres (branch test consequent alternate) := by
  refine htest.bind fun v => coheres_perform.bind fun _ => ?_
  refine within_newBlock.bind fun onTrue => within_newBlock.bind fun onFalse => within_newBlock.bind fun join => ?_
  refine (within_linkCurrent (by simp)).bind fun _ => (coheres_switchTo onTrue).within.bind fun _ => ?_
  refine hconsequent.within.bind fun _ => (within_fallThrough (by simp)).bind fun _ => ?_
  refine (coheres_switchTo onFalse).within.bind fun _ => halternate.within.bind fun _ => ?_
  exact (within_fallThrough (by simp)).bind fun _ => (coheres_switchTo join).within

/-- The join of an arm is known from the start; only its value may create blocks. -/
theorem within_arm {phi : InstrId} {join block : BlockId} {value : Build Operand} (hvalue : Coheres value)
    (hjoin : join ∈ known) : Within known (arm phi join block value) fun _ => [] := by
  refine (coheres_switchTo block).within.bind fun _ => hvalue.within.bind fun v => ?_
  exact (coheres_contribute phi v).within.bind fun _ => within_linkCurrent (by simpa using hjoin)

theorem coheres_merge {condition : Operand} {trueFirst : Bool} {first second : Build Operand} (hfirst : Coheres first)
    (hsecond : Coheres second) : Coheres (merge condition trueFirst first second) := by
  refine coheres_freshInstr.bind fun phi => coheres_perform.bind fun _ => ?_
  refine within_newBlock.bind fun onTrue => within_newBlock.bind fun onFalse => within_newBlock.bind fun join => ?_
  refine (coheres_openPhi phi join).within.bind fun _ => (within_linkCurrent (by simp)).bind fun _ => ?_
  refine (within_arm hfirst (by simp)).bind fun _ => (within_arm hsecond (by simp)).bind fun _ => ?_
  exact (coheres_enterJoin join phi).within.bind fun _ => Coheres.pure.within

theorem within_closeContinues {loop : Loop} {header : BlockId} (hloop : loop.blocks ⊆ known)
    (hheader : header ∈ known) : Within known (closeContinues loop header) fun _ => [] := by
  unfold closeContinues
  cases hcontinues : loop.continues with
  | nil => exact within_linkCurrent (by simpa using hheader)
  | cons first rest =>
      have hfirst : first ∈ known := hloop (by simp [Loop.blocks, hcontinues])
      exact (within_linkCurrent (by simpa using hfirst)).bind fun _ => within_link (by simpa using hheader)

/-- The blocks that a loop starts with are created before any of them is linked. -/
theorem coheres_loop {labels : List String} {testFirst : Bool} {test : Build Operand} {update body : Build Unit}
    (htest : Coheres test) (hupdate : Coheres update) (hbody : Coheres body) :
    Coheres (loop labels testFirst test update body) := by
  refine within_newBlock.bind fun continueEntry => within_newBlock.bind fun breakEntry => ?_
  refine within_newBlock.bind fun header => within_newBlock.bind fun testBlock => ?_
  refine within_newBlock.bind fun bodyBlock => (within_linkCurrent (by simp)).bind fun _ => ?_
  refine (within_link (by cases testFirst <;> simp)).bind fun _ => (coheres_switchTo testBlock).within.bind fun _ => ?_
  refine htest.within.bind fun v => coheres_perform.within.bind fun _ => (within_linkCurrent (by simp)).bind fun _ => ?_
  refine (within_pushLoop ⟨by simp [Loop.blocks], by rfl⟩).bind fun _ => ?_
  refine (coheres_switchTo bodyBlock).within.bind fun _ => ?_
  refine hbody.within.bind fun _ => within_popLoop.bind fun loop => ?_
  refine (within_fallThrough (by simp [Loop.blocks])).bind fun _ => (coheres_switchTo _).within.bind fun _ => ?_
  refine hupdate.within.bind fun _ => (within_closeContinues (by simp) (by simp)).bind fun _ => ?_
  refine within_newBlock.bind fun after => (within_link (by simp)).bind fun _ => (coheres_switchTo after).within

/-- What follows the extension of a chain is about the loop with the merge block in it. -/
theorem within_extendChain_bind {kind : Jump} {loop : Loop} {join : BlockId} {f : Loop → Build α}
    {names : α → List BlockId} (hjoin : join ∈ known) (hf : Within known (f (loop.extend kind join)) names) :
    Within known (extendChain kind loop join >>= f) names := by
  rw [extendChain_eq_ite]
  split
  · rw [bind_assoc]
    refine (within_link (by simpa using hjoin)).bind fun _ => ?_
    rwa [pure_bind]
  · split
    · rwa [pure_bind]
    · exact fun s _ _ => .of_error (t := s) rfl .refl

theorem coheres_jump (kind : Jump) (label : Option String) : Coheres (jump kind label) := by
  refine coheres_get_bind fun s known hloops => ?_
  have hsplit := List.takeWhile_append_dropWhile (p := fun loop : Loop => !loop.accepts label) (l := s.loops)
  dsimp only
  split
  · exact .fail
  · next loop outer hdrop =>
    rw [hdrop] at hsplit
    generalize s.loops.takeWhile (fun loop => !loop.accepts label) = inner at hsplit ⊢
    rw [← hsplit] at hloops
    refine within_newBlock.bind fun join => (within_linkCurrent (by simp)).bind fun _ => ?_
    have hold : ∀ l ∈ inner ++ loop :: outer, l.Coherent (join :: known) :=
      fun l hl => (hloops l hl).mono (List.subset_cons_self _ _)
    refine within_extendChain_bind (by simp) (within_setLoops fun l hl => ?_)
    rcases List.mem_append.mp hl with hl | hl
    · exact hold l (List.mem_append_left _ hl)
    · rcases List.mem_cons.mp hl with rfl | hl
      · exact (hold loop (by simp)).extend kind (by simp)
      · exact hold l (by simp [hl])

/-- A nested function is built aside, and the blocks around it are put back as they were. -/
theorem coheres_inNewGraph {name : Option String} {body : Build Unit} (h : Coheres body) :
    Coheres (inNewGraph name body) := by
  intro s _ _
  have hbody := h s.nested s.coherent_nested (List.nil_subset _)
  cases hrun : body s.nested with
  | error e t => exact .of_error (inNewGraph_error hrun) (.function (hbody.error hrun))
  | ok a t =>
      have hlegal : LegalSteps s { s with supply := t.supply, finished := t.finished } := .function (hbody.ok hrun).1
      rw [Ends, inNewGraph_of_ok hrun]
      cases t.phis.finish with
      | error e => exact hlegal
      | ok table => exact ⟨hlegal, List.nil_subset _⟩

end Build

end ScriptSsa
