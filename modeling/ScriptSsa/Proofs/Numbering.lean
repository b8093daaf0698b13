import ScriptSsa.Proofs.Trace

/-!
The instructions that a trace adds.

A binding may be put on an instruction after it was added, so instructions are compared without their
bindings. Apart from that none is ever changed or lost. Those that a trace adds carry ids that are drawn while
it runs, and the phi of every `toPhi` among them is among them too: it gets its id before the arms of the
merge are lowered and its place after them.
-/

namespace ScriptSsa

/-- The instruction without its binding. -/
def Instr.bare (i : Instr) : Instr := { i with binding := none }

namespace Builder

variable {s t : Builder} {id : BlockId} {b : Block}

/-- All instructions without their bindings, block by block. -/
def bare (s : Builder) : List Instr := s.blocks.flatMap fun b => b.instrs.map Instr.bare

theorem bare_modifyBlock {f : Block → Block} (h : ∀ b, (f b).instrs = b.instrs) :
    (s.modifyBlock id f).bare = s.bare :=
  flatMap_modifyBlock fun b _ _ => by rw [h]

/-- Ids are distinct, so a change of one block adds its instructions once. -/
theorem perm_bare_modifyBlock {f : Block → Block} (new : List Instr) (hnodup : s.ids.Nodup)
    (hb : s.block? id = some b)
    (hf : ((f b).instrs.map Instr.bare).Perm (new ++ b.instrs.map Instr.bare)) :
    (s.modifyBlock id f).bare.Perm (new ++ s.bare) :=
  perm_flatMap_modifyBlock new hnodup hb hf

@[simp] theorem bare_draw : s.draw.bare = s.bare := rfl

@[simp] theorem bare_enter : (s.enter id).bare = s.bare := rfl

@[simp] theorem bare_withPhis {phis : Phi.Recorder} : (s.withPhis phis).bare = s.bare := rfl

@[simp] theorem bare_withLoops {loops : List Loop} : (s.withLoops loops).bare = s.bare := rfl

@[simp] theorem bare_alloc : s.alloc.bare = s.bare := by
  simp [bare, alloc, Block.empty]

/-- Edges have no instructions. -/
@[simp] theorem bare_link {succs : List BlockId} : (s.link id succs).bare = s.bare :=
  bare_modifyBlock fun _ => rfl

@[simp] theorem bare_fallTo : (s.fallTo id).bare = s.bare := by
  unfold fallTo
  split
  · rfl
  · exact bare_link

@[simp] theorem bare_reopen : s.reopen.bare = s.bare := by
  unfold reopen
  split
  · exact bare_alloc
  · rfl

@[simp] theorem bare_closeLoop {loop : Loop} : (s.closeLoop loop id).bare = s.bare := by
  simp only [closeLoop, bare_enter, bare_link, bare_alloc, closeContinues]
  split <;> simp only [bare_link]

@[simp] theorem bare_jumpTo {kind : Jump} {inner outer : List Loop} {loop : Loop} :
    (s.jumpTo kind inner loop outer).bare = s.bare := by
  simp only [jumpTo, bare_withLoops]
  split <;> simp only [bare_link, bare_alloc]

/-- An instruction is added under the next id. -/
theorem perm_bare_emit {binding : Option String} {opcode : Opcode} {operands : List Operand}
    (hnodup : s.ids.Nodup) (hat : s.At b) :
    (s.emit binding opcode operands).bare.Perm (⟨s.supply.nextInstr, opcode, operands, none⟩ :: s.bare) := by
  refine perm_bare_modifyBlock (s := s.draw) [⟨s.supply.nextInstr, opcode, operands, none⟩] hnodup hat ?_
  rw [List.map_append]
  exact List.perm_append_comm

/-- A phi is added under the id that was drawn for it before. -/
theorem perm_bare_place {phi : InstrId} (hnodup : s.ids.Nodup) (hjoin : s.block? id = some (.empty id)) :
    (s.place phi id).bare.Perm (⟨phi, .phi, [], none⟩ :: s.bare) :=
  perm_bare_modifyBlock (s := s.enter id) [⟨phi, .phi, [], none⟩] hnodup hjoin (.refl _)

/-- A binding is not counted here, so to bind adds nothing. -/
theorem perm_bare_replace {bound : Block} {name : String} {value : Operand} (hnodup : s.ids.Nodup)
    (hat : s.At b) (hbound : b.bindLast? name value = some bound) : (s.replace bound).bare.Perm s.bare := by
  refine perm_bare_modifyBlock [] hnodup hat ?_
  obtain ⟨init, last, hinstrs, _, _, _, _, rfl⟩ := Block.bindLast?_eq_some hbound
  rw [hinstrs]
  simp [Instr.bare]

end Builder

theorem Stage.Ready.nodup {k : Stage} {s : Builder} (h : k.Ready s) : s.ids.Nodup :=
  let ⟨_, _, hsound⟩ := h
  hsound.nodup

namespace Supply

variable {a b c : Supply} {new new' : List Instr}

/-- Ids of a later interval are different ones. -/
theorem nodup_append (h : (new.map Instr.id).Nodup) (h' : (new'.map Instr.id).Nodup)
    (hbefore : ∀ i ∈ new, i.id.index < b.instrs) (hafter : ∀ i ∈ new', b.instrs ≤ i.id.index) :
    ((new' ++ new).map Instr.id).Nodup := by
  rw [List.map_append, List.nodup_append]
  refine ⟨h', h, ?_⟩
  rintro _ hid _ hid' heq
  obtain ⟨i, hi, rfl⟩ := List.mem_map.mp hid
  obtain ⟨j, hj, rfl⟩ := List.mem_map.mp hid'
  have hle := hafter i hi
  have hlt := hbefore j hj
  rw [heq] at hle
  omega

/-- Ids drawn one after another are drawn from the whole range. -/
theorem drawn_append (hab : a ≤ b) (hbc : b ≤ c)
    (h : ∀ i ∈ new, a.instrs ≤ i.id.index ∧ i.id.index < b.instrs)
    (h' : ∀ i ∈ new', b.instrs ≤ i.id.index ∧ i.id.index < c.instrs) :
    ∀ i ∈ new' ++ new, a.instrs ≤ i.id.index ∧ i.id.index < c.instrs := by
  intro i hi
  have hab' := hab.1
  have hbc' := hbc.1
  rcases List.mem_append.mp hi with hi | hi
  · have hdrawn := h' i hi
    omega
  · have hdrawn := h i hi
    omega

end Supply

/-- From `s` to `t` these instructions are added, under ids that are drawn meanwhile. -/
structure Adds (s t : Builder) (new : List Instr) : Prop where
  bare : t.bare.Perm (new ++ s.bare)
  nodup : (new.map Instr.id).Nodup
  drawn : ∀ i ∈ new, s.supply.instrs ≤ i.id.index ∧ i.id.index < t.supply.instrs
  supply : s.supply ≤ t.supply

namespace Adds

variable {s t u : Builder} {new new' : List Instr} {b : Block}

/-- To draw ids, to link blocks and to enter them adds no instruction. -/
theorem of_eq (hbare : t.bare = s.bare) (hsupply : s.supply ≤ t.supply) : Adds s t [] :=
  ⟨by rw [hbare]; exact .refl _, List.nodup_nil, (fun _ h => nomatch h), hsupply⟩

theorem of_perm (h : Adds s t new) (hperm : u.bare.Perm t.bare) (hsupply : t.supply ≤ u.supply) :
    Adds s u new :=
  ⟨hperm.trans h.bare, h.nodup, fun i hi => ⟨(h.drawn i hi).1, (h.drawn i hi).2.trans_le hsupply.1⟩,
    h.supply.trans hsupply⟩

/-- The ranges that ids are drawn from follow each other, so no id comes twice. -/
theorem trans (h : Adds s t new) (h' : Adds t u new') : Adds s u (new' ++ new) where
  bare := by
    rw [List.append_assoc]
    exact h'.bare.trans (h.bare.append_left new')
  nodup := Supply.nodup_append h.nodup h'.nodup (fun i hi => (h.drawn i hi).2) fun i hi => (h'.drawn i hi).1
  drawn := Supply.drawn_append h.supply h'.supply h.drawn h'.drawn
  supply := h.supply.trans h'.supply

theorem emit {binding : Option String} {opcode : Opcode} {operands : List Operand} (hnodup : s.ids.Nodup)
    (hat : s.At b) :
    Adds s (s.emit binding opcode operands) [⟨s.supply.nextInstr, opcode, operands, none⟩] := by
  refine ⟨Builder.perm_bare_emit hnodup hat, List.nodup_singleton _, fun i hi => ?_, s.supply.le_dropInstr⟩
  rw [List.mem_singleton.mp hi]
  exact ⟨le_refl _, Nat.lt_succ_self _⟩

/-- The phi of a merge has the id that was drawn first. -/
theorem place {join : BlockId} (h : Adds s.draw t new) (hnodup : t.ids.Nodup)
    (hjoin : t.block? join = some (.empty join)) :
    Adds s (t.place s.supply.nextInstr join) (⟨s.supply.nextInstr, .phi, [], none⟩ :: new) where
  bare := (Builder.perm_bare_place hnodup hjoin).trans (h.bare.cons _)
  nodup := by
    rw [List.map_cons, List.nodup_cons]
    refine ⟨fun hmem => ?_, h.nodup⟩
    obtain ⟨i, hi, heq⟩ := List.mem_map.mp hmem
    have hdrawn := (h.drawn i hi).1
    rw [heq] at hdrawn
    exact absurd hdrawn (Nat.not_succ_le_self _)
  drawn := by
    have hsupply : s.supply.instrs + 1 ≤ t.supply.instrs := h.supply.1
    intro i hi
    rcases List.mem_cons.mp hi with rfl | hi
    · exact ⟨le_refl _, hsupply⟩
    · have hdrawn := h.drawn i hi
      exact ⟨(Nat.le_succ _).trans hdrawn.1, hdrawn.2⟩
  supply := s.supply.le_dropInstr.trans h.supply

end Adds

/-- The phi of every `toPhi` is there, or is one of those still to be placed. -/
def PhisPlaced (pending : Set InstrId) (instrs : List Instr) : Prop :=
  ∀ i ∈ instrs, i.opcode = .toPhi → ∃ phi value, i.operands = [.instr phi, value] ∧
    (phi ∈ pending ∨ ∃ j ∈ instrs, j.opcode = .phi ∧ j.id = phi)

namespace PhisPlaced

variable {pending : Set InstrId} {is js : List Instr}

theorem append (his : PhisPlaced pending is) (hjs : PhisPlaced pending js) : PhisPlaced pending (is ++ js) := by
  intro i hi hop
  rcases List.mem_append.mp hi with hi | hi
  · obtain ⟨phi, value, hoperands, hphi⟩ := his i hi hop
    refine ⟨phi, value, hoperands, hphi.imp_right ?_⟩
    exact fun ⟨j, hj, h⟩ => ⟨j, List.mem_append_left _ hj, h⟩
  · obtain ⟨phi, value, hoperands, hphi⟩ := hjs i hi hop
    refine ⟨phi, value, hoperands, hphi.imp_right ?_⟩
    exact fun ⟨j, hj, h⟩ => ⟨j, List.mem_append_right _ hj, h⟩

/-- Where all phis are placed, it does not matter which are pending. -/
theorem of_empty (h : PhisPlaced ∅ is) : PhisPlaced pending is := by
  intro i hi hop
  obtain ⟨phi, value, hoperands, hphi⟩ := h i hi hop
  exact ⟨phi, value, hoperands, .inr (hphi.resolve_left (Set.notMem_empty phi))⟩

theorem other {i : Instr} (h : i.opcode ≠ .toPhi) : PhisPlaced pending [i] := by
  intro j hj hop
  rw [List.mem_singleton.mp hj] at hop
  exact absurd hop h

/-- Until the join is entered, the phi that a value flows into is pending. -/
theorem toPhi {id phi : InstrId} {value : Operand} {binding : Option String} :
    PhisPlaced {phi} [⟨id, .toPhi, [.instr phi, value], binding⟩] := by
  intro j hj _
  rw [List.mem_singleton.mp hj]
  exact ⟨phi, value, rfl, .inl rfl⟩

/-- Once the phi is placed, nothing is pending. -/
theorem place {phi : InstrId} (h : PhisPlaced {phi} is) : PhisPlaced ∅ (⟨phi, .phi, [], none⟩ :: is) := by
  intro i hi hop
  rcases List.mem_cons.mp hi with rfl | hi
  · cases hop
  · obtain ⟨phi', value, hoperands, hphi⟩ := h i hi hop
    refine ⟨phi', value, hoperands, .inr ?_⟩
    rcases hphi with rfl | ⟨j, hj, hphi⟩
    · exact ⟨_, List.mem_cons_self, rfl, rfl⟩
    · exact ⟨j, List.mem_cons_of_mem _ hj, hphi⟩

end PhisPlaced

/-- What a trace adds. -/
def Grows (s t : Builder) : Prop := ∃ new, Adds s t new ∧ PhisPlaced ∅ new

namespace Grows

variable {s t u : Builder} {b : Block}

theorem of_eq (hbare : t.bare = s.bare) (hsupply : s.supply ≤ t.supply) : Grows s t :=
  ⟨[], .of_eq hbare hsupply, fun _ h => nomatch h⟩

theorem trans (h : Grows s t) (h' : Grows t u) : Grows s u := by
  obtain ⟨new, hadds, hplaced⟩ := h
  obtain ⟨new', hadds', hplaced'⟩ := h'
  exact ⟨new' ++ new, hadds.trans hadds', hplaced'.append hplaced⟩

theorem of_bare (h : Grows s t) (hbare : u.bare = t.bare) (hsupply : t.supply ≤ u.supply) : Grows s u :=
  h.trans (of_eq hbare hsupply)

theorem fallTo {target id : BlockId} (h : Grows s t) : Grows s ((t.fallTo target).enter id) :=
  h.of_bare Builder.bare_fallTo (le_of_eq Builder.supply_fallTo.symm)

theorem emit {binding : Option String} {opcode : Opcode} {operands : List Operand}
    (hready : Stage.code.Ready s) (hop : opcode ≠ .toPhi) : Grows s (s.emit binding opcode operands) := by
  obtain ⟨b, hat, _⟩ := hready.1
  exact ⟨_, .emit hready.nodup hat, .other hop⟩

theorem split {condition : Operand} {id : BlockId} (hready : Stage.code.Ready s) :
    Grows s ((s.split condition).enter id) := by
  refine (@emit s none .branch [condition] hready (by decide)).of_bare ?_ ?_
  · simp [Builder.split]
  · exact ⟨Nat.le_refl _, Nat.le_add_right s.supply.blocks 3⟩

theorem openLoop {testFirst : Bool} : Grows s (s.openLoop testFirst) :=
  of_eq (by simp [Builder.openLoop]) Builder.supply_le_openLoop

theorem openBody {condition : Operand} {body breakEntry : BlockId} {loop : Loop}
    (hready : Stage.code.Ready s) : Grows s (s.openBody condition body breakEntry loop) :=
  (@emit s none .branch [condition] hready (by decide)).of_bare (by simp [Builder.openBody]) (le_refl _)

theorem openUpdate {loop : Loop} {outer : List Loop} (h : Grows s t) : Grows s (t.openUpdate loop outer) :=
  h.of_bare (Builder.bare_fallTo (s := t.withLoops outer))
    (le_of_eq (Builder.supply_fallTo (s := t.withLoops outer)).symm)

end Grows

namespace Adds

variable {s s₁ s₂ : Builder} {new₁ new₂ : List Instr}

/-- The id of the phi is drawn before the branch, so it is not among those of the arms. -/
theorem openMerge {condition : Operand} {trueFirst : Bool} (hready : Stage.code.Ready s) :
    Adds s.draw (s.openMerge condition trueFirst) [⟨s.draw.supply.nextInstr, .branch, [condition], none⟩] := by
  obtain ⟨b, hat, _⟩ := hready.1
  refine (@Adds.emit s.draw b none .branch [condition] hready.nodup hat).of_perm ?_ ?_
  · simp [Builder.openMerge, Builder.split]
  · exact ⟨Nat.le_refl _, Nat.le_add_right s.supply.blocks 3⟩

/-- An arm ends with the instruction that hands its value over. -/
theorem deliver {phi : InstrId} {join : BlockId} {entry : Phi.Entry} {value : Operand}
    (hready : Stage.code.Ready s) :
    Adds s (s.deliver phi join entry value) [⟨s.supply.nextInstr, .toPhi, [.instr phi, value], none⟩] := by
  obtain ⟨b, hat, _⟩ := hready.1
  let recorded :=
    s.withPhis ⟨s.phis.entries.insert phi ⟨entry.block, entry.inputs ++ [⟨s.current, value⟩]⟩⟩
  have hadds : Adds recorded (recorded.emit none .toPhi [.instr phi, value]) _ := .emit hready.nodup hat
  refine ⟨?_, hadds.nodup, hadds.drawn, hadds.supply⟩
  rw [Builder.deliver, Builder.bare_link]
  exact hadds.bare

end Adds

/-- A trace adds instructions under new ids, with their phis. -/
theorem Trace.grows {k : Stage} {held held' : Set InstrId} {s t : Builder} (h : Trace k held s held' t) :
    Grows s t := by
  induction h with
  | refl | skip => exact .of_eq rfl (le_refl _)
  | draw => exact .of_eq rfl (Supply.le_dropInstr _)
  | emit hready hplain _ =>
      refine .emit hready ?_
      rintro rfl
      cases hplain
  | rebind hready hat hbound =>
      refine ⟨[], ⟨Builder.perm_bare_replace hready.nodup hat hbound, List.nodup_nil, ?_, le_refl _⟩, ?_⟩
      · exact fun _ h => nomatch h
      · exact fun _ h => nomatch h
  | trans _ _ ih₁ ih₂ => exact ih₁.trans ih₂
  | seq _ _ ih₁ ih₂ => exact ih₁.trans ih₂
  | @merge _ _ _ s s₁ s₂ _ v₁ v₂ trueFirst e₁ e₂ hready _ _ hready₁ _ _ _ hready₂ _ _ hjoin ih₁ ih₂ =>
      obtain ⟨new₁, hnew₁, hplaced₁⟩ := ih₁
      obtain ⟨new₂, hnew₂, hplaced₂⟩ := ih₂
      have hfirst := ((Adds.openMerge hready).trans hnew₁).trans
        (@Adds.deliver s₁ s.supply.nextInstr (s.later 2) e₁ v₁ hready₁)
      have hentered : Adds s.draw
          ((s₁.deliver s.supply.nextInstr (s.later 2) e₁ v₁).enter (s.otherArm trueFirst)) _ :=
        hfirst.of_perm (.refl _) (le_refl _)
      refine ⟨_, ((hentered.trans hnew₂).trans (.deliver hready₂)).place ?_ hjoin, ?_⟩
      · rw [Builder.ids_deliver]
        exact hready₂.nodup
      · refine .place (.append .toPhi (.append hplaced₂.of_empty (.append .toPhi ?_)))
        exact hplaced₁.of_empty.append (.other nofun)
  | function hbody _ _ => exact .of_eq rfl ((Supply.le_dropBlock _).trans hbody.supply_le)
  | reopen => exact .of_eq Builder.bare_reopen Builder.supply_le_reopen
  | code _ _ ih => exact ih
  | ret _ _ hready' _ ih => exact ih.trans (.emit hready' (by decide))
  | branch _ _ hready₀ _ _ _ ih₀ ih₁ ih₂ =>
      exact ih₀.trans ((Grows.split hready₀).trans (ih₁.fallTo.trans ih₂).fallTo)
  | loop _ _ hready₁ _ _ _ _ ih₁ ih₂ ih₃ =>
      have hbody := ih₁.trans ((Grows.openBody hready₁).trans ih₂)
      exact Grows.openLoop.trans ((hbody.openUpdate.trans ih₃).of_bare Builder.bare_closeLoop
        Builder.supply_le_closeLoop)
  | jump => exact .of_eq Builder.bare_jumpTo Builder.supply_le_jumpTo

end ScriptSsa
