import Mathlib.Data.List.TakeWhile
import ScriptSsa.Lowering.Basic
import ScriptSsa.Proofs.BuilderStep

/-!
What a step of a construction comes to, whether it succeeds or fails.

`Yields m s E Q` says that `m` run from `s` ends with a result and a builder as `Q` asks, or fails with an
error as `E` allows. The rules follow the way steps are put together, down to the block patterns of merges,
branches, loops and jumps: each rule asks for what the pattern relies on, and for what its parts yield from
the builders that the pattern runs them in.
-/

namespace ScriptSsa.Build

variable {α β : Type} {s t : Builder} {b : Block} {E : BuildError → Prop}

theorem bind_ok {m : Build α} {f : α → Build β} {a : α} (h : m s = .ok a t) : (m >>= f) s = f a t := by
  change EStateM.bind m f s = f a t
  rw [EStateM.bind, h]

theorem bind_error {m : Build α} {f : α → Build β} {e : BuildError} (h : m s = .error e t) :
    (m >>= f) s = .error e t := by
  change EStateM.bind m f s = .error e t
  rw [EStateM.bind, h]

/-- What succeeds does so step by step. -/
theorem bind_eq_ok {m : Build α} {f : α → Build β} {r : β} (h : (m >>= f) s = .ok r t) :
    ∃ a u, m s = .ok a u ∧ f a u = .ok r t := by
  cases hm : m s with
  | ok a u =>
      rw [bind_ok hm] at h
      exact ⟨a, u, rfl, h⟩
  | error e u =>
      rw [bind_error hm] at h
      cases h

def Yields (m : Build α) (s : Builder) (E : BuildError → Prop) (Q : α → Builder → Prop) : Prop :=
  match m s with
  | .ok a t => Q a t
  | .error e _ => E e

namespace Yields

variable {m : Build α} {f : α → Build β} {P : α → Builder → Prop} {Q : β → Builder → Prop}

theorem of_ok {a : α} (h : m s = .ok a t) (hP : P a t) : m.Yields s E P := by
  rw [Yields, h]
  exact hP

theorem of_error {e : BuildError} (h : m s = .error e t) (hE : E e) : m.Yields s E P := by
  rw [Yields, h]
  exact hE

theorem ok {a : α} (h : m.Yields s E P) (hok : m s = .ok a t) : P a t := by
  rw [Yields, hok] at h
  exact h

theorem error {e : BuildError} (h : m.Yields s E P) (herror : m s = .error e t) : E e := by
  rw [Yields, herror] at h
  exact h

theorem pure {a : α} (h : P a s) : (Pure.pure a : Build α).Yields s E P := h

theorem bind (hm : m.Yields s E P) (hf : ∀ a t, P a t → (f a).Yields t E Q) :
    (m >>= f).Yields s E Q := by
  cases h : m s with
  | ok a t =>
      rw [Yields, bind_ok h]
      exact hf a t (hm.ok h)
  | error e t => exact of_error (bind_error h) (hm.error h)

/-- A first step whose outcome is known. -/
theorem step {a : α} (h : m s = .ok a t) (hf : (f a).Yields t E Q) : (m >>= f).Yields s E Q := by
  rw [Yields, bind_ok h]
  exact hf

/-- A first step that yields a place from which the rest is known. -/
theorem chain (h : m.Yields s E fun a t => (f a).Yields t E Q) : (m >>= f).Yields s E Q :=
  h.bind fun _ _ h => h

theorem mono {P' : α → Builder → Prop} (h : m.Yields s E P) (himp : ∀ a t, P a t → P' a t) :
    m.Yields s E P' := by
  cases hm : m s with
  | ok a t => exact of_ok hm (himp a t (h.ok hm))
  | error e t => exact of_error hm (h.error hm)

/-- The run itself, beside what it yields. -/
theorem eq_ok (h : m.Yields s E P) : m.Yields s E fun a t => m s = .ok a t ∧ P a t := by
  cases hm : m s with
  | ok a t => exact of_ok hm ⟨rfl, h.ok hm⟩
  | error e t => exact of_error hm (h.error hm)

end Yields

/-! The steps, each where it succeeds. -/

theorem freshInstr_eq : freshInstr s = .ok s.supply.nextInstr s.draw := rfl

theorem newBlock_eq : newBlock s = .ok (s.later 0) s.alloc := rfl

theorem switchTo_eq {id : BlockId} (h : id ∈ s.ids) : switchTo id s = .ok () (s.enter id) := by
  obtain ⟨b, hb⟩ := Builder.exists_block? h
  rw [switchTo, hb]
  rfl

theorem find?_isNone_eq_none {succs : List BlockId} :
    (succs.find? fun target => (s.block? target).isNone) = none ↔ succs ⊆ s.ids := by
  rw [List.find?_eq_none]
  refine forall₂_congr fun target _ => ?_
  rw [Option.isNone_iff_eq_none, ← ne_eq, Option.ne_none_iff_exists']
  exact ⟨fun ⟨_, hb⟩ => Builder.mem_ids_of_block? hb, Builder.exists_block?⟩

theorem link_eq {id : BlockId} {succs : List BlockId} (h : s.block? id = some b) (hsuccs : b.succs = [])
    (hmem : succs ⊆ s.ids) : Build.link id succs s = .ok () (s.link id succs) := by
  rw [Build.link, h]
  simp only [hsuccs, List.isEmpty_nil, if_true, find?_isNone_eq_none.mpr hmem]
  rfl

theorem linkCurrent_eq {succs : List BlockId} (h : s.At b) (hsuccs : b.succs = []) (hmem : succs ⊆ s.ids) :
    linkCurrent succs s = .ok () (s.link s.current succs) :=
  link_eq h hsuccs hmem

theorem isTerminated_eq (h : s.At b) : isTerminated s = .ok b.isTerminated s := by
  have hget : getBlock s.current s = .ok b s := by
    rw [getBlock, h]
  change (getBlock s.current >>= fun b => pure b.isTerminated) s = _
  rw [bind_ok hget]
  rfl

theorem terminated_eq (h : s.At b) : s.terminated = b.isTerminated := by
  rw [Builder.terminated, h]
  rfl

theorem succs_eq_nil (h : b.isTerminated = false) : b.succs = [] := by
  simp only [Block.isTerminated, Bool.or_eq_false_iff, Bool.not_eq_false', List.isEmpty_iff] at h
  exact h.1

theorem fallThrough_eq {target : BlockId} (h : s.At b) (hmem : target ∈ s.ids) :
    fallThrough target s = .ok () (s.fallTo target) := by
  rw [fallThrough, bind_ok (isTerminated_eq h), Builder.fallTo, terminated_eq h]
  cases hb : b.isTerminated with
  | true => rfl
  | false =>
      simp only [Bool.false_eq_true, if_false]
      exact linkCurrent_eq h (succs_eq_nil hb) (by simpa using hmem)

theorem ensureOpen_eq (h : s.At b) : ensureOpen s = .ok () s.reopen := by
  rw [ensureOpen, bind_ok (isTerminated_eq h), Builder.reopen, terminated_eq h]
  cases b.isTerminated with
  | true =>
      have hmem : s.later 0 ∈ s.alloc.ids := by simp
      simp only [if_true]
      rw [bind_ok newBlock_eq, switchTo_eq hmem]
  | false => rfl

theorem emitBound_eq {binding : Option String} {opcode : Opcode} {operands : List Operand} (h : s.At b) :
    emitBound binding opcode operands s = .ok s.supply.nextInstr (s.emit binding opcode operands) := by
  have hmodify : modifyBlock s.current (fun b =>
      { b with instrs := b.instrs ++ [⟨s.supply.nextInstr, opcode, operands, binding⟩] }) s.draw =
        .ok () (s.emit binding opcode operands) := by
    rw [modifyBlock, Builder.block?_draw, h]
    rfl
  change (modifyBlock s.current (fun b =>
      { b with instrs := b.instrs ++ [⟨s.supply.nextInstr, opcode, operands, binding⟩] }) >>=
        fun _ => pure s.supply.nextInstr) s.draw = _
  rw [bind_ok hmodify]
  rfl

theorem perform_eq {opcode : Opcode} {operands : List Operand} (h : s.At b) :
    perform opcode operands s = .ok () (s.emit none opcode operands) := by
  rw [perform, bind_ok (emitBound_eq h)]
  rfl

theorem emit_eq {opcode : Opcode} {operands : List Operand} (h : s.At b) :
    emit opcode operands s = .ok (.instr s.supply.nextInstr) (s.emit none opcode operands) := by
  rw [emit, bind_ok (emitBound_eq h)]
  rfl

theorem bindLocal_eq {name : String} {value : Operand} (h : s.At b) :
    bindLocal name value s = .ok () (s.bindLocal name value) := by
  have hget : getBlock s.current s = .ok b s := by
    rw [getBlock, h]
  have hid : b.id = s.current := Builder.block?_id h
  change (getBlock s.current >>= fun b => _) s = _
  rw [bind_ok hget, Builder.bindLocal, h, Option.bind_some]
  cases b.bindLast? name value with
  | none =>
      change (emitBound (some name) .nop [value] >>= fun _ => pure ()) s = _
      rw [bind_ok (emitBound_eq h)]
      rfl
  | some bound =>
      change modifyBlock b.id (fun _ => bound) s = _
      rw [modifyBlock, hid, h]
      rfl

theorem contribute_eq {phi : InstrId} {value : Operand} {entry : Phi.Entry} (h : s.At b)
    (hphi : s.phis.entries.find? phi = some entry) :
    contribute phi value s =
      .ok () ((s.withPhis ⟨s.phis.entries.insert phi
        ⟨entry.block, entry.inputs ++ [⟨s.current, value⟩]⟩⟩).emit none .toPhi [.instr phi, value]) := by
  have hrecord : Build.lift (s.phis.contribute phi s.current value) s =
      .ok ⟨s.phis.entries.insert phi ⟨entry.block, entry.inputs ++ [⟨s.current, value⟩]⟩⟩ s := by
    rw [Phi.Recorder.contribute, hphi]
    rfl
  change (Build.lift (s.phis.contribute phi s.current value) >>= fun recorder => do
      modify fun s => { s with phis := recorder }
      perform .toPhi [.instr phi, value]) s = _
  rw [bind_ok hrecord]
  exact perform_eq (s := s.withPhis _) h

theorem enterJoin_eq {join : BlockId} {phi : InstrId} (h : s.block? join = some b) (hb : b.instrs = []) :
    enterJoin join phi s = .ok () (s.place phi join) := by
  have hget : getBlock join (s.enter join) = .ok b (s.enter join) := by
    rw [getBlock, Builder.block?_enter, h]
  rw [enterJoin, bind_ok (switchTo_eq (Builder.mem_ids_of_block? h)), bind_ok hget]
  simp only [Block.isEmpty, hb, List.isEmpty_nil, if_true]
  rw [modifyBlock, Builder.block?_enter, h]
  rfl

/-! The steps, each where it has succeeded. -/

theorem switchTo_eq_ok {id : BlockId} {a : Unit} (h : switchTo id s = .ok a t) : id ∈ s.ids ∧ t = s.enter id := by
  unfold switchTo at h
  split at h
  · next b hb =>
    cases h
    exact ⟨Builder.mem_ids_of_block? hb, rfl⟩
  · cases h

theorem link_eq_ok {id : BlockId} {succs : List BlockId} {a : Unit} (h : Build.link id succs s = .ok a t) :
    (∃ b, s.block? id = some b ∧ b.succs = []) ∧ succs ⊆ s.ids ∧ t = s.link id succs := by
  unfold Build.link at h
  split at h
  · next b hb =>
    split at h
    · next hempty =>
      split at h
      · cases h
      · next hfind =>
        cases h
        exact ⟨⟨b, hb, List.isEmpty_iff.mp hempty⟩, find?_isNone_eq_none.mp hfind, rfl⟩
    · cases h
  · cases h

theorem linkCurrent_eq_ok {succs : List BlockId} {a : Unit} (h : linkCurrent succs s = .ok a t) :
    s.Unlinked ∧ succs ⊆ s.ids ∧ t = s.link s.current succs := by
  have hlink : Build.link s.current succs s = .ok a t := h
  exact link_eq_ok hlink

theorem emitBound_eq_ok {binding : Option String} {opcode : Opcode} {operands : List Operand} {id : InstrId}
    (h : emitBound binding opcode operands s = .ok id t) :
    (∃ b, s.At b) ∧ id = s.supply.nextInstr ∧ t = s.emit binding opcode operands := by
  cases hat : s.block? s.current with
  | some b =>
      rw [emitBound_eq hat] at h
      cases h
      exact ⟨⟨b, hat⟩, rfl, rfl⟩
  | none =>
      obtain ⟨_, t₁, hfresh, h⟩ := bind_eq_ok h
      obtain ⟨_, t₂, hcurrent, h⟩ := bind_eq_ok h
      obtain ⟨_, t₃, hmodify, _⟩ := bind_eq_ok h
      cases hfresh
      cases hcurrent
      have hnone : modifyBlock s.current _ s.draw = .ok _ t₃ := hmodify
      rw [modifyBlock, Builder.block?_draw, hat] at hnone
      cases hnone

theorem bindLocal_eq_ok {name : String} {value : Operand} {a : Unit} (h : bindLocal name value s = .ok a t) :
    (∃ b, s.At b) ∧ t = s.bindLocal name value := by
  cases hat : s.block? s.current with
  | some b =>
      rw [bindLocal_eq hat] at h
      cases h
      exact ⟨⟨b, hat⟩, rfl⟩
  | none =>
      obtain ⟨_, t₁, hcurrent, h⟩ := bind_eq_ok h
      obtain ⟨b, t₂, hget, _⟩ := bind_eq_ok h
      cases hcurrent
      rw [getBlock, hat] at hget
      cases hget

theorem contribute_eq_ok {phi : InstrId} {value : Operand} {a : Unit} (h : contribute phi value s = .ok a t) :
    ∃ recorder, t = (s.withPhis recorder).emit none .toPhi [.instr phi, value] := by
  have hsteps : (Build.lift (s.phis.contribute phi s.current value) >>= fun recorder => do
      modify fun s => { s with phis := recorder }
      perform .toPhi [.instr phi, value]) s = .ok a t := h
  obtain ⟨recorder, t₁, hlift, hrest⟩ := bind_eq_ok hsteps
  obtain rfl : t₁ = s := by
    unfold lift at hlift
    split at hlift
    · cases hlift
      rfl
    · cases hlift
  have hperform : perform .toPhi [.instr phi, value] (t₁.withPhis recorder) = .ok a t := hrest
  obtain ⟨id, u, hemit, hpure⟩ := bind_eq_ok hperform
  obtain ⟨_, _, rfl⟩ := emitBound_eq_ok hemit
  cases hpure
  exact ⟨recorder, rfl⟩

theorem enterJoin_eq_ok {join : BlockId} {phi : InstrId} {a : Unit} (h : enterJoin join phi s = .ok a t) :
    ∃ b, s.block? join = some b ∧ b.instrs = [] ∧ t = s.place phi join := by
  obtain ⟨_, u, hswitch, hrest⟩ := bind_eq_ok h
  obtain ⟨hjoin, rfl⟩ := switchTo_eq_ok hswitch
  obtain ⟨b, hb⟩ := Builder.exists_block? hjoin
  have hget : getBlock join (s.enter join) = .ok b (s.enter join) := by
    rw [getBlock, Builder.block?_enter, hb]
  rw [bind_ok hget] at hrest
  cases hempty : b.isEmpty with
  | true =>
      have hinstrs : b.instrs = [] := List.isEmpty_iff.mp hempty
      rw [enterJoin_eq hb hinstrs] at h
      cases h
      exact ⟨b, hb, hinstrs, rfl⟩
  | false =>
      simp only [hempty, Bool.false_eq_true, if_false] at hrest
      cases hrest

/-! The block patterns. -/

/-- Ends an arm whose value is at hand. -/
theorem deliver_eq {phi : InstrId} {join : BlockId} {value : Operand} {entry : Phi.Entry} (h : s.At b)
    (hsuccs : b.succs = []) (hphi : s.phis.entries.find? phi = some entry) (hjoin : join ∈ s.ids) :
    (contribute phi value >>= fun _ => linkCurrent [join]) s =
      .ok () (s.deliver phi join entry value) := by
  rw [bind_ok (contribute_eq h hphi)]
  exact linkCurrent_eq (Builder.At_emit (s := s.withPhis _) h) hsuccs (by simpa using hjoin)

variable {Q : Operand → Builder → Prop} {R : Unit → Builder → Prop}

theorem arm_yields {phi : InstrId} {join block : BlockId} {value : Build Operand} (hmem : block ∈ s.ids)
    (h : value.Yields (s.enter block) E fun v t => ∃ entry, t.Unlinked ∧
      t.phis.entries.find? phi = some entry ∧ join ∈ t.ids ∧ R () (t.deliver phi join entry v)) :
    (arm phi join block value).Yields s E R := by
  refine .step (switchTo_eq hmem) (h.bind ?_)
  rintro v t ⟨entry, ⟨b, hb, hsuccs⟩, hphi, hjoin, hR⟩
  exact .of_ok (deliver_eq hb hsuccs hphi hjoin) hR

/-- A merge runs its arms one after the other, the second from where the first has delivered its value. -/
theorem merge_yields {condition : Operand} {trueFirst : Bool} {first second : Build Operand}
    (hs : s.Unlinked)
    (h : first.Yields (s.openMerge condition trueFirst) E fun v₁ s₁ => ∃ e₁, s₁.Unlinked ∧
      s₁.phis.entries.find? s.supply.nextInstr = some e₁ ∧ s.otherArm trueFirst ∈ s₁.ids ∧ s.later 2 ∈ s₁.ids ∧
      second.Yields ((s₁.deliver s.supply.nextInstr (s.later 2) e₁ v₁).enter (s.otherArm trueFirst)) E
        fun v₂ s₂ => ∃ e₂ join, s₂.Unlinked ∧ s₂.phis.entries.find? s.supply.nextInstr = some e₂ ∧
          (s₂.deliver s.supply.nextInstr (s.later 2) e₂ v₂).block? (s.later 2) = some join ∧
          join.instrs = [] ∧
          Q (.instr s.supply.nextInstr)
            ((s₂.deliver s.supply.nextInstr (s.later 2) e₂ v₂).place s.supply.nextInstr (s.later 2))) :
    (merge condition trueFirst first second).Yields s E Q := by
  obtain ⟨b, hb, hsuccs⟩ := hs
  rw [merge]
  refine .step freshInstr_eq (.step (perform_eq (s := s.draw) hb) ?_)
  refine .step newBlock_eq (.step newBlock_eq (.step newBlock_eq (.step rfl ?_)))
  let branched := s.draw.emit none .branch [condition]
  have hmem : [branched.later 0, branched.alloc.later 0] ⊆ branched.alloc.alloc.alloc.ids := by simp
  refine .step (linkCurrent_eq
    (Builder.At_alloc (Builder.At_alloc (Builder.At_alloc (Builder.At_emit (s := s.draw) hb)))) hsuccs hmem) ?_
  change Yields (do
    arm s.supply.nextInstr (s.later 2) (s.firstArm trueFirst) first
    arm s.supply.nextInstr (s.later 2) (s.otherArm trueFirst) second
    enterJoin (s.later 2) s.supply.nextInstr
    return .instr s.supply.nextInstr)
    ((s.draw.split condition).withPhis (s.phis.openPhi s.supply.nextInstr (s.later 2))) E Q
  refine .chain (arm_yields ?_ (h.mono ?_))
  · change s.firstArm trueFirst ∈ (s.openMerge condition trueFirst).ids
    rw [Builder.ids_openMerge, Builder.firstArm]
    split <;> simp
  rintro v₁ s₁ ⟨e₁, hs₁, hphi₁, hmem, hlast, hsecond⟩
  refine ⟨e₁, hs₁, hphi₁, hlast, .chain (arm_yields ?_ (hsecond.mono ?_))⟩
  · rwa [Builder.ids_deliver]
  rintro v₂ s₂ ⟨e₂, join, hs₂, hphi₂, hjoin, hempty, hQ⟩
  have hmem₂ : s.later 2 ∈ s₂.ids := by
    rw [← Builder.ids_deliver]
    exact Builder.mem_ids_of_block? hjoin
  exact ⟨e₂, hs₂, hphi₂, hmem₂, .step (enterJoin_eq hjoin hempty) hQ⟩

theorem branch_yields {test : Build Operand} {consequent alternate : Build Unit}
    (h : test.Yields s E fun v s₀ => s₀.Unlinked ∧
      consequent.Yields ((s₀.split v).enter (s₀.later 0)) E fun _ s₁ =>
        (∃ b, s₁.At b) ∧ s₀.later 1 ∈ s₁.ids ∧ s₀.later 2 ∈ s₁.ids ∧
        alternate.Yields ((s₁.fallTo (s₀.later 2)).enter (s₀.later 1)) E fun _ s₂ =>
          (∃ b, s₂.At b) ∧ s₀.later 2 ∈ s₂.ids ∧
          R () ((s₂.fallTo (s₀.later 2)).enter (s₀.later 2))) :
    (branch test consequent alternate).Yields s E R := by
  rw [branch]
  refine .chain (h.mono ?_)
  rintro v s₀ ⟨⟨b, hb, hsuccs⟩, hconsequent⟩
  refine .step (perform_eq hb) (.step newBlock_eq (.step newBlock_eq (.step newBlock_eq ?_)))
  refine .step (linkCurrent_eq (Builder.At_alloc (Builder.At_alloc (Builder.At_alloc (Builder.At_emit hb)))) hsuccs
    (by simp)) ?_
  have hfirst : s₀.later 0 ∈ (s₀.split v).ids := by simp
  refine .step (switchTo_eq hfirst) (.chain (hconsequent.mono ?_))
  rintro _ s₁ ⟨⟨b₁, hb₁⟩, hmem₁, hlast₁, halternate⟩
  refine .step (fallThrough_eq hb₁ hlast₁) ?_
  refine .step (switchTo_eq (by rwa [Builder.ids_fallTo])) (.chain (halternate.mono ?_))
  rintro _ s₂ ⟨⟨b₂, hb₂⟩, hmem₂, hR⟩
  refine .step (fallThrough_eq hb₂ hmem₂) ?_
  exact .of_ok (switchTo_eq (by rwa [Builder.ids_fallTo])) hR

theorem closeContinues_eq {loop : Loop} {header : BlockId} (hs : s.Unlinked) (hheader : header ∈ s.ids)
    (hlast : ∀ first ∈ loop.continues.head?, first ∈ s.ids ∧ ∃ b,
      (s.link s.current [first]).block? loop.continueTarget = some b ∧ b.succs = []) :
    Build.closeContinues loop header s = .ok () (s.closeContinues loop header) := by
  obtain ⟨b, hb, hsuccs⟩ := hs
  rw [Build.closeContinues, Builder.closeContinues]
  cases hcontinues : loop.continues with
  | nil => exact linkCurrent_eq hb hsuccs (by simpa using hheader)
  | cons first rest =>
      obtain ⟨hfirst, c, hc, hcsuccs⟩ := hlast first (by rw [hcontinues]; rfl)
      have hlink : linkCurrent [first] s = .ok () (s.link s.current [first]) :=
        linkCurrent_eq hb hsuccs (by simpa using hfirst)
      exact (bind_ok hlink).trans (link_eq hc hcsuccs (by simpa using hheader))

/-- A loop runs its test, its body and its update code in this order. The body has the loop on the stack of
loops, and hands it on with the jumps that it has collected. -/
theorem loop_yields {labels : List String} {testFirst : Bool} {test : Build Operand}
    {update body : Build Unit} (hs : s.Unlinked) (hfresh : s.Fresh)
    (h : test.Yields (s.openLoop testFirst) E fun v s₁ => s₁.Unlinked ∧ s.later 4 ∈ s₁.ids ∧ s.later 1 ∈ s₁.ids ∧
      body.Yields (s₁.openBody v (s.later 4) (s.later 1) ⟨labels, s.later 0, s.later 0, [], s.later 1, []⟩) E
        fun _ s₂ => ∃ frame outer, s₂.loops = frame :: outer ∧ (∃ b, s₂.At b) ∧
          frame.continueEntry ∈ s₂.ids ∧
          update.Yields (s₂.openUpdate frame outer) E fun _ s₃ => s₃.Unlinked ∧ s.later 2 ∈ s₃.ids ∧
            (∀ first ∈ frame.continues.head?, first ∈ s₃.ids ∧ ∃ b,
              (s₃.link s₃.current [first]).block? frame.continueTarget = some b ∧ b.succs = []) ∧
            (∃ b, (s₃.closeContinues frame (s.later 2)).alloc.block? frame.breakTarget = some b ∧
              b.succs = []) ∧
            R () (s₃.closeLoop frame (s.later 2))) :
    (loop labels testFirst test update body).Yields s E R := by
  obtain ⟨b, hb, hsuccs⟩ := hs
  rw [loop]
  refine .step newBlock_eq (.step newBlock_eq (.step newBlock_eq (.step newBlock_eq (.step newBlock_eq ?_))))
  have hat := Builder.At_alloc (Builder.At_alloc (Builder.At_alloc (Builder.At_alloc (Builder.At_alloc hb))))
  refine .step (linkCurrent_eq hat hsuccs (by simp)) ?_
  have hheader := hfresh.block?_header (Builder.mem_ids_of_block? hb)
  refine .step (link_eq hheader rfl ?_) ?_
  · split <;> simp
  refine .step (switchTo_eq ?_) ?_
  · change s.later 3 ∈ (s.openLoop testFirst).ids
    simp
  refine .chain (h.mono ?_)
  rintro v s₁ ⟨⟨b₁, hb₁, hsuccs₁⟩, hmem₁, hbreak₁, hbody⟩
  refine .step (perform_eq hb₁) (.step (linkCurrent_eq (Builder.At_emit hb₁) hsuccs₁ ?_) (.step rfl ?_))
  · simpa using ⟨hmem₁, hbreak₁⟩
  refine .step (switchTo_eq ?_) (.chain (hbody.mono ?_))
  · change s.later 4 ∈ ((s₁.emit none .branch [v]).link s₁.current [s.later 4, s.later 1]).ids
    rwa [Builder.ids_link, Builder.ids_emit]
  rintro _ s₂ ⟨frame, outer, hloops, ⟨b₂, hb₂⟩, hmem₂, hupdate⟩
  have hpop : popLoop s₂ = .ok frame (s₂.withLoops outer) := by
    rw [popLoop, hloops]
    rfl
  refine .step hpop (.step (fallThrough_eq hb₂ hmem₂) ?_)
  refine .step (switchTo_eq (by rwa [Builder.ids_fallTo])) (.chain (hupdate.mono ?_))
  rintro _ s₃ ⟨hs₃, hheader₃, hlast, ⟨b₃, hb₃, hsuccs₃⟩, hR⟩
  refine .step (closeContinues_eq hs₃ hheader₃ hlast) (.step newBlock_eq ?_)
  refine .step (link_eq hb₃ hsuccs₃ (by simp)) ?_
  exact .of_ok (switchTo_eq (by simp)) hR

/-- A chain gets its merge block from the link of its end, or, where the end is not linked yet, from the check that it
is the entry. -/
theorem extendChain_eq_ite (kind : Jump) (loop : Loop) (join : BlockId) :
    extendChain kind loop join =
      if loop.linksAtOnce kind then link (loop.chainEnd kind) [join] >>= fun _ => pure (loop.extend kind join)
      else if loop.chainEnd kind = loop.continueEntry then pure (loop.extend kind join)
      else fail (.fault (.displacedContinue (loop.chainEnd kind))) := by
  cases kind with
  | exit => rfl
  | next =>
      cases hcontinues : loop.continues <;>
        simp [extendChain, Loop.linksAtOnce, Loop.extend, Loop.chainEnd, hcontinues]

theorem extendChain_eq_ok {kind : Jump} {loop extended : Loop} {join : BlockId}
    (h : extendChain kind loop join s = .ok extended t) : extended = loop.extend kind join := by
  rw [extendChain_eq_ite] at h
  split at h
  · obtain ⟨_, _, _, hpure⟩ := bind_eq_ok h
    cases hpure
    rfl
  · split at h
    · cases h
      rfl
    · cases h

theorem extendChain_eq {kind : Jump} {loop : Loop} {join : BlockId} (hloop : loop.Chained) (hjoin : join ∈ s.ids)
    (hend : loop.linksAtOnce kind = true →
      ∃ b, s.block? (loop.chainEnd kind) = some b ∧ b.succs = []) :
    extendChain kind loop join s =
      .ok (loop.extend kind join)
        (if loop.linksAtOnce kind then s.link (loop.chainEnd kind) [join] else s) := by
  rw [extendChain_eq_ite]
  by_cases honce : loop.linksAtOnce kind = true
  · obtain ⟨b, hb, hsuccs⟩ := hend honce
    rw [if_pos honce, if_pos honce]
    exact bind_ok (link_eq hb hsuccs (by simpa using hjoin))
  · rw [if_neg honce, if_pos (hloop.chainEnd_eq_entry honce), if_neg honce]
    rfl

/-- A jump goes to the innermost loop that accepts its label, if there is one. -/
theorem jump_yields {kind : Jump} {label : Option String} (hs : s.Unlinked)
    (hnone : (∀ l ∈ s.loops, l.accepts label = false) → E (.unresolvedJump kind label))
    (hsome : ∀ inner frame outer, s.loops = inner ++ frame :: outer →
      (∀ l ∈ inner, l.accepts label = false) → frame.accepts label = true → frame.Chained ∧
      (frame.linksAtOnce kind = true →
        ∃ b, (s.alloc.link s.current [s.later 0]).block? (frame.chainEnd kind) = some b ∧ b.succs = []) ∧
      R () (s.jumpTo kind inner frame outer)) :
    (jump kind label).Yields s E R := by
  obtain ⟨b, hb, hsuccs⟩ := hs
  rw [jump]
  refine .step (a := s) rfl ?_
  dsimp only
  have hsplit := List.takeWhile_append_dropWhile (p := fun loop : Loop => !loop.accepts label) (l := s.loops)
  have hinner : ∀ l ∈ s.loops.takeWhile fun loop => !loop.accepts label, l.accepts label = false := by
    intro l hl
    simpa using List.mem_takeWhile_imp hl
  cases hdrop : s.loops.dropWhile fun loop => !loop.accepts label with
  | nil =>
      refine .of_error (e := .unresolvedJump kind label) (t := s) rfl (hnone ?_)
      rw [hdrop, List.append_nil] at hsplit
      rwa [hsplit] at hinner
  | cons frame outer =>
      have haccepts : frame.accepts label = true := by
        have hhead := List.head?_dropWhile_not (fun loop : Loop => !loop.accepts label) s.loops
        rw [hdrop] at hhead
        simpa using hhead
      rw [hdrop] at hsplit
      obtain ⟨hframe, hend, hR⟩ := hsome _ frame outer hsplit.symm hinner haccepts
      refine .step newBlock_eq (.step (linkCurrent_eq (Builder.At_alloc hb) hsuccs (by simp)) ?_)
      refine .step (extendChain_eq hframe (by simp) hend) ?_
      exact hR

theorem inNewGraph_error {name : Option String} {body : Build Unit} {e : BuildError} (h : body s.nested = .error e t) :
    inNewGraph name body s = .error e { s with supply := t.supply, finished := t.finished } := by
  rw [Builder.nested] at h
  simp only [inNewGraph, h]

theorem inNewGraph_of_ok {name : Option String} {body : Build Unit} (h : body s.nested = .ok () t) :
    inNewGraph name body s = (match t.phis.finish with
      | .error e => .error e { s with supply := t.supply, finished := t.finished }
      | .ok table => .ok ⟨s.supply.nextBlock, name, t.blocks, table⟩
          { s with supply := t.supply, finished := t.finished }) := by
  rw [Builder.nested] at h
  cases hfinish : t.phis.finish <;> simp only [inNewGraph, h, hfinish]

/-- A graph comes from a run of its body that leaves the phis complete. -/
theorem inNewGraph_eq_ok {name : Option String} {body : Build Unit} {g : Graph} {u : Builder}
    (h : inNewGraph name body s = .ok g u) :
    ∃ t, body s.nested = .ok () t ∧ t.phis.finish = .ok g.phis ∧ g = ⟨s.supply.nextBlock, name, t.blocks, g.phis⟩ ∧
      u = { s with supply := t.supply, finished := t.finished } := by
  cases hbody : body s.nested with
  | error e t =>
      rw [inNewGraph_error hbody] at h
      cases h
  | ok _ t =>
      rw [inNewGraph_of_ok hbody] at h
      cases hfinish : t.phis.finish with
      | error e =>
          rw [hfinish] at h
          cases h
      | ok table =>
          rw [hfinish] at h
          cases h
          exact ⟨t, rfl, hfinish, rfl, rfl⟩

theorem inNewGraph_yields {name : Option String} {body : Build Unit} {R : Graph → Builder → Prop}
    (h : body.Yields s.nested E fun _ t => ∃ table, t.phis.finish = .ok table ∧
      R ⟨s.supply.nextBlock, name, t.blocks, table⟩ { s with supply := t.supply, finished := t.finished }) :
    (inNewGraph name body).Yields s E R := by
  cases hbody : body s.nested with
  | error e t => exact .of_error (inNewGraph_error hbody) (h.error hbody)
  | ok u t =>
      obtain ⟨table, hfinish, hR⟩ := h.ok hbody
      refine .of_ok ?_ hR
      rw [inNewGraph_of_ok hbody, hfinish]

theorem functionValue_yields {graph : Graph} {R : Operand → Builder → Prop} {t : Builder} (h : s.At b)
    (hR : R (.instr (s.resume t graph).draw.supply.nextInstr)
      ((s.resume t graph).draw.emit none .function [.block graph.entry])) :
    (functionValue graph).Yields { s with supply := t.supply, finished := t.finished } E R := by
  rw [functionValue]
  refine .step rfl (.step rfl (.of_ok (emit_eq (b := b) ?_) hR))
  exact h

end ScriptSsa.Build
