import ScriptSsa.Proofs.Acceptance
import ScriptSsa.Proofs.LoweringClosure
import ScriptSsa.Proofs.OpenEnds

/-!
The promises that the construction relies on are kept.

Expressions are lowered by code as `Evaluates` describes it, and statements change the builder by legal steps. A step
that relies on a promise checks it and ends in a fault exactly if it is broken, and no construction ends in a fault.
-/

namespace ScriptSsa

open Build

/-- Expressions are evaluated, statements change the builder by legal steps. -/
abbrev evaluation : Judgement where
  code _ _ _ _ m _ _ _ := Evaluates m
  inner _ _ m _ := Coheres m
  flow _ _ m _ := Coheres m

theorem evaluation_isClosed : evaluation.IsClosed where
  pure _ := .pure
  refuse _ := .fail
  bind hm hk := hm.bind hk
  weaken hm _ := hm
  perm hm _ := hm
  constant hk := evaluates_freshInstr.bind fun _ => hk
  count hk := evaluates_freshInstr.bind fun _ => hk
  emit _ hplain _ _ _ _ := evaluates_emit hplain
  perform _ hplain _ _ _ _ := evaluates_perform hplain
  read _ := evaluates_readName _
  write _ hm := hm.bind fun v => evaluates_writeName _ v
  writeResult _ _ hplain _ _ _ _ := (evaluates_emit hplain).bind fun v => evaluates_writeName _ v
  merge _ hfirst hsecond := evaluates_merge hfirst hsecond
  plainCall _ hfunction hvalues :=
    hfunction.bind fun _ => hvalues.bind fun _ => evaluates_call (evaluates_emit rfl)
  methodCall hkey hobject hvalues := by
    rw [lowerExpr]
    refine hkey.bind fun _ => hobject.bind fun _ => (evaluates_emit rfl).bind fun _ => hvalues.bind fun _ => ?_
    exact evaluates_call .pure
  construct hfunction hvalues := by
    rw [lowerExpr]
    exact hfunction.bind fun _ => hvalues.bind fun _ => evaluates_new _ _
  function _ hgenerator hasync hparams hdeclared hstmts := by
    rw [lowerFunction_eq_nested _ hgenerator hasync hparams]
    refine (evaluates_inNewGraph ?_).bind fun graph => evaluates_functionValue graph
    exact (evaluates_prologue _).coheres.bind fun _ => hdeclared.coheres.bind fun _ => hstmts
  skip := .pure
  seq hm hm' := hm.bind fun _ => hm'
  ensureOpen hm := coheres_ensureOpen.bind fun _ => hm
  ofCode hm := hm.coheres
  ofFlow hm := hm
  after hm hm' := hm.coheres.bind fun _ => hm'
  branch htest hconsequent halternate := coheres_branch htest.coheres hconsequent halternate
  loop htest hupdate hbody := coheres_loop htest.coheres hupdate.coheres hbody
  jump kind label := coheres_jump kind label
  ret hresult := hresult.coheres.bind fun _ => coheres_perform

theorem lowerExpr_evaluates (names : Names) (e : Expr) : Evaluates (lowerExpr names e) :=
  lowerExpr_judged (f := ⟨none, [], [.expr e]⟩) evaluation_isClosed e (by simp [itemsOf, Stmt.items])

theorem lowerFunction_evaluates (names : Names) (fn : Function) : Evaluates (lowerFunction names fn) := by
  have hfunction := lowerExpr_evaluates names (.function fn)
  rwa [lowerExpr] at hfunction

theorem lowerBody_coheres (names : Names) (f : Frame) : Coheres (lowerBody names f) := by
  obtain ⟨_, hdeclared⟩ := @lowerDeclared_judged _ evaluation_isClosed f names f.body (List.Subset.refl _)
    (List.Subset.refl _)
  have hstmts := @lowerStmts_judged _ evaluation_isClosed f names f.body (List.Subset.refl _) (List.Subset.refl _)
  exact (evaluates_prologue f.scope).coheres.bind fun _ => hdeclared.coheres.bind fun _ => hstmts

/-! The checks. -/

namespace Build

variable {α : Type} {id : BlockId}

/-- The step succeeds if the promise is kept, and ends in a fault if it is broken. -/
def Relies (m : Build α) (promise : Builder → Prop) : Prop :=
  ∀ s, (promise s → ∃ a t, m s = .ok a t) ∧ (¬ promise s → ∃ fault t, m s = .error (.fault fault) t)

/-- A step that needs nothing but a block of the builder. -/
theorem relies_of_block? {m : Build α} (hsome : ∀ s b, s.block? id = some b → ∃ a t, m s = .ok a t)
    (hnone : ∀ s, s.block? id = none → ∃ fault t, m s = .error (.fault fault) t) :
    m.Relies fun s => id ∈ s.ids := by
  refine fun s => ⟨fun hmem => ?_, fun hnot => hnone s ?_⟩
  · obtain ⟨b, hb⟩ := Builder.exists_block? hmem
    exact hsome s b hb
  · cases hb : s.block? id with
    | none => rfl
    | some b => exact absurd (Builder.mem_ids_of_block? hb) hnot

theorem relies_getBlock (id : BlockId) : (getBlock id).Relies fun s => id ∈ s.ids := by
  refine relies_of_block? (fun s b hb => ⟨b, s, ?_⟩) fun s hb => ⟨.foreignBlock id, s, ?_⟩
  · rw [getBlock, hb]
  · rw [getBlock, hb]

theorem relies_modifyBlock (id : BlockId) (f : Block → Block) : (modifyBlock id f).Relies fun s => id ∈ s.ids := by
  refine relies_of_block? (fun s b hb => ⟨(), s.modifyBlock id f, ?_⟩) fun s hb => ⟨.foreignBlock id, s, ?_⟩
  · rw [modifyBlock, hb]
  · rw [modifyBlock, hb]

theorem relies_switchTo (id : BlockId) : (switchTo id).Relies fun s => id ∈ s.ids := by
  refine relies_of_block? (fun s b hb => ⟨(), s.enter id, ?_⟩) fun s hb => ⟨.foreignBlock id, s, ?_⟩
  · exact switchTo_eq (Builder.mem_ids_of_block? hb)
  · rw [switchTo, hb]

theorem relies_link (id : BlockId) (succs : List BlockId) :
    (link id succs).Relies fun s => (∃ b, s.block? id = some b ∧ b.succs = []) ∧ succs ⊆ s.ids := by
  refine fun s => ⟨fun ⟨⟨b, hb, hsuccs⟩, hmem⟩ => ⟨(), _, link_eq hb hsuccs hmem⟩, fun hnot => ?_⟩
  rw [link]
  cases hb : s.block? id with
  | none => exact ⟨_, _, rfl⟩
  | some b =>
      dsimp only
      split
      · next hempty =>
        -- The block is free, so that a target is missing.
        split
        · exact ⟨_, _, rfl⟩
        · next hfind =>
          exact absurd ⟨⟨b, hb, List.isEmpty_iff.mp hempty⟩, find?_isNone_eq_none.mp hfind⟩ hnot
      · exact ⟨_, _, rfl⟩

theorem relies_enterJoin (join : BlockId) (phi : InstrId) :
    (enterJoin join phi).Relies fun s => ∃ b, s.block? join = some b ∧ b.instrs = [] := by
  refine fun s => ⟨fun ⟨b, hb, hempty⟩ => ⟨(), _, enterJoin_eq hb hempty⟩, fun hnot => ?_⟩
  cases hb : s.block? join with
  | none =>
      refine ⟨.foreignBlock join, s, bind_error ?_⟩
      rw [switchTo, hb]
  | some b =>
      have hfilled : b.isEmpty = false := by
        rw [Block.isEmpty, List.isEmpty_eq_false_iff]
        exact fun hempty => hnot ⟨b, hb, hempty⟩
      exact ⟨_, _, enterJoin_occupied hb hfilled⟩

/-- A `nop` that is emitted for a value is the last instruction of its block, and takes the binding. -/
theorem bindLocal_after_nop {s : Builder} {b : Block} {name : String} {value : Operand} (hnodup : s.ids.Nodup)
    (hat : s.At b) (hnone : b.bindLast? name value = none) :
    ∃ t, emit .nop [value] s = .ok (.instr s.supply.nextInstr) t ∧
      t.At { b with instrs := b.instrs ++ [⟨s.supply.nextInstr, .nop, [value], none⟩] } ∧
      bindLocal name (.instr s.supply.nextInstr) t = bindLocal name value s := by
  refine ⟨_, emit_eq hat, Builder.At_emit hat, ?_⟩
  have hphi : Opcode.nop ≠ .phi := nofun
  rw [bindLocal_eq (Builder.At_emit hat), bindLocal_eq hat, Builder.bindLocal_emit hnodup hat rfl hphi,
    Builder.bindLocal_nop hat hnone]

/-- The first `continue` of a loop needs the end of the chain to be its entry still, and links nothing. -/
theorem relies_extendChain_first {loop : Loop} (h : loop.continues = []) (join : BlockId) :
    (extendChain .next loop join).Relies fun _ => loop.continueTarget = loop.continueEntry := by
  have honce : loop.linksAtOnce .next = false := by simp [Loop.linksAtOnce, h]
  have hend : loop.chainEnd .next = loop.continueTarget := rfl
  intro s
  rw [extendChain_eq_ite, honce, hend]
  refine ⟨fun hentry => ⟨loop.extend .next join, s, ?_⟩, fun hmoved => ⟨.displacedContinue loop.continueTarget, s, ?_⟩⟩
  · rw [if_neg Bool.false_ne_true, if_pos hentry]
    rfl
  · rw [if_neg Bool.false_ne_true, if_neg hmoved]
    rfl

theorem extendChain_first_eq {loop extended : Loop} {join : BlockId} {s t : Builder} (hnil : loop.continues = [])
    (h : extendChain .next loop join s = .ok extended t) :
    extended = { loop with continueTarget := join, continues := [join] } ∧ t = s := by
  have honce : loop.linksAtOnce .next = false := by simp [Loop.linksAtOnce, hnil]
  rw [extendChain_eq_ite, honce, if_neg Bool.false_ne_true] at h
  split at h
  · cases h
    exact ⟨by rw [Loop.extend, hnil, List.nil_append], rfl⟩
  · cases h

end Build

/-- Only a `continue` moves the end of the chain of continues. -/
theorem Loop.continueTarget_extend (kind : Jump) (loop : Loop) (join : BlockId) :
    (loop.extend kind join).continueTarget = if kind = .next then join else loop.continueTarget := by
  cases kind <;> rfl

/-- The promises of the construction are kept in every run.

No check fails, and the checks are exactly those of the blocks that are looked up, entered, linked, linked to or given
a phi, and of the end of the chain of continues at the first `continue`. Whether the body of a function is lowered or
refused, its builder has been changed by legal steps, so that it is coherent, links lead to blocks of its own, and a
loop without a `continue` so far has the end of the chain at its entry. A `nop` is the last instruction when it is
bound, and control can go on behind an expression if it could before it. -/
theorem construction_keeps_promises (p : Program) (supply : Supply) :
    (∀ fault, (constructWith p supply).1 ≠ .error (.fault fault)) ∧
    (∀ id : BlockId, (getBlock id).Relies fun s => id ∈ s.ids) ∧
    (∀ (id : BlockId) (f : Block → Block), (modifyBlock id f).Relies fun s => id ∈ s.ids) ∧
    (∀ id : BlockId, (switchTo id).Relies fun s => id ∈ s.ids) ∧
    (∀ (id : BlockId) (succs : List BlockId),
      (link id succs).Relies fun s => (∃ b, s.block? id = some b ∧ b.succs = []) ∧ succs ⊆ s.ids) ∧
    (∀ (join : BlockId) (phi : InstrId),
      (enterJoin join phi).Relies fun s => ∃ b, s.block? join = some b ∧ b.instrs = []) ∧
    (∀ (names : Names) (f : Frame) (s : Builder),
      (lowerBody names f).Ends s.nested (fun _ t => LegalSteps s.nested t) (LegalSteps s.nested)) ∧
    (∀ s t : Builder, LegalSteps s.nested t → t.Coherent ∧
      ∀ loop ∈ t.loops, loop.continues = [] → loop.continueTarget = loop.continueEntry) ∧
    (∀ (s : Builder) (b : Block) (name : String) (value : Operand),
      s.ids.Nodup → s.At b → b.bindLast? name value = none → ∃ t,
        emit .nop [value] s = .ok (.instr s.supply.nextInstr) t ∧
        t.At { b with instrs := b.instrs ++ [⟨s.supply.nextInstr, .nop, [value], none⟩] } ∧
        bindLocal name (.instr s.supply.nextInstr) t = bindLocal name value s) ∧
    (∀ (loop : Loop) (join : BlockId), loop.continues = [] →
      ((extendChain .next loop join).Relies fun _ => loop.continueTarget = loop.continueEntry) ∧
      ∀ (s t : Builder) (extended : Loop), extendChain .next loop join s = .ok extended t →
        extended = { loop with continueTarget := join, continues := [join] } ∧ t = s) ∧
    (∀ (kind : Jump) (loop extended : Loop) (join : BlockId) (s t : Builder),
      extendChain kind loop join s = .ok extended t → extended.continueEntry = loop.continueEntry ∧
        extended.continueTarget = if kind = .next then join else loop.continueTarget) ∧
    (∀ (names : Names) (e : Expr) (s t : Builder) (v : Operand),
      s.Fresh → s.GoesOn → lowerExpr names e s = .ok v t → t.Fresh ∧ t.GoesOn) := by
  refine ⟨fun fault h => ?_, relies_getBlock, relies_modifyBlock, relies_switchTo, relies_link, relies_enterJoin,
    fun names f s => ?_, fun s t h => ?_, fun s b name value => bindLocal_after_nop,
    fun loop join h => ⟨relies_extendChain_first h join, fun s t extended => extendChain_first_eq h⟩,
    fun kind loop extended join s t h => ?_, fun names e s t v hfresh hgoes h => ?_⟩
  · cases isRefusal_of_constructWith h
  · have hcoheres := lowerBody_coheres names f s.nested s.coherent_nested (List.nil_subset _)
    exact hcoheres.mono (fun _ _ h => h.1) fun _ h => h
  · have hcoherent := (h.stays s.coherent_nested).coherent
    exact ⟨hcoherent, fun loop hloop hnil => (hcoherent.loops loop hloop).chained.continueTarget_eq_entry hnil⟩
  · rw [extendChain_eq_ok h]
    refine ⟨?_, Loop.continueTarget_extend kind loop join⟩
    cases kind <;> rfl
  · have hcontinues := (lowerExpr_evaluates names e).continues s v t hfresh h
    exact ⟨hcontinues.fresh, hcontinues.goesOn hgoes⟩

/-- `a ? b : c || d` -/
def pickExpr : Expr := .conditional (.ident "a") (.ident "b") (.logical .or (.ident "c") (.ident "d"))

/-- `while (a ? b : c || d) { continue; continue; }` -/
def pickScript : Program := ⟨[.whileLoop pickExpr (.block [.jump .next none, .jump .next none])]⟩

/-- The expression ends in another block than the one it starts in, and a frame whose chain does not start at its entry
is not passed over. -/
theorem construction_keeps_promises_pick :
    (∀ fault, (constructWith pickScript .fresh).1 ≠ .error (.fault fault)) ∧
    (∃ v t, lowerExpr .outermost pickExpr (Builder.start .fresh).nested = .ok v t ∧ t.current = ⟨3⟩ ∧ t.GoesOn) ∧
    (∃ t, emit .nop [.localVar "x"] (Builder.start .fresh).nested = .ok (.instr ⟨0⟩) t ∧
      bindLocal "y" (.instr ⟨0⟩) t = bindLocal "y" (.localVar "x") (Builder.start .fresh).nested) ∧
    (∃ fault t, extendChain .next (Loop.mk [] ⟨1⟩ ⟨6⟩ [] ⟨2⟩ []) ⟨7⟩ (Builder.start .fresh) =
      .error (.fault fault) t) := by
  obtain ⟨hfault, _, _, _, _, _, _, _, hnop, hfirst, _, hexpr⟩ := construction_keeps_promises pickScript .fresh
  have hcoherent := (Builder.start .fresh).coherent_nested
  have hat : (Builder.start .fresh).nested.At (.empty ⟨0⟩) := rfl
  refine ⟨hfault, ?_, ?_, ((hfirst _ ⟨7⟩ rfl).1 (Builder.start .fresh)).2 (by decide)⟩
  · have hrun : (match lowerExpr .outermost pickExpr (Builder.start .fresh).nested with
        | .ok _ t => decide (t.current = ⟨3⟩)
        | .error _ _ => false) = true := by decide +kernel
    cases h : lowerExpr .outermost pickExpr (Builder.start .fresh).nested with
    | ok v t =>
        rw [h] at hrun
        exact ⟨v, t, rfl, of_decide_eq_true hrun, (hexpr _ _ _ _ _ hcoherent.fresh ⟨_, hat, rfl, nofun⟩ h).2⟩
    | error e t =>
        rw [h] at hrun
        cases hrun
  · obtain ⟨t, hemit, _, hbind⟩ := hnop _ _ "y" (.localVar "x") hcoherent.nodup hat rfl
    exact ⟨t, hemit, hbind⟩

end ScriptSsa
