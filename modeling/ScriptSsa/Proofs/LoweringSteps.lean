import ScriptSsa.Proofs.LoweringClosure
import ScriptSsa.Proofs.Steps

/-!
Lowering takes steps.

Every part of a body is lowered by steps. The functions of these steps are those directly in it, and functions
further inside are left to the steps of the functions around them. So a graph comes from a builder with nothing but an
entry block by steps whose functions are those directly below the graph's own.
-/

namespace ScriptSsa

open Build

variable {names : Names} {isLocal : String → Prop}

/-- Back from a nested function, the builder is the one it was left in. -/
theorem lowerGraph_eq_ok {fn : Function} {s u : Builder} {g : Graph} (h : lowerGraph names fn s = .ok g u) :
    ∃ params t, fn.params = params.map Expr.ident ∧
      lowerBody (names.enter (Frame.mk fn.name params fn.body).scope) ⟨fn.name, params, fn.body⟩ s.nested = .ok () t ∧
      t.phis.finish = .ok g.phis ∧ g = ⟨s.supply.nextBlock, fn.name, t.blocks, g.phis⟩ ∧
      u = { s with supply := t.supply, finished := t.finished } := by
  obtain ⟨_, s₁, hordinary, h⟩ := bind_eq_ok h
  have hs₁ : s₁ = s := by
    unfold checkOrdinary at hordinary
    split at hordinary
    · cases hordinary
    · split at hordinary <;> cases hordinary
      rfl
  rw [hs₁] at h
  rcases Scope.ofFunction_cases fn.name fn.params fn.body with ⟨params, hparams, hscope⟩ | ⟨_, what, hscope⟩
  · rw [hscope] at h
    obtain ⟨t, hbody, hphis, hg, hu⟩ := inNewGraph_eq_ok h
    exact ⟨params, t, hparams, hbody, hphis, hg, hu⟩
  · rw [hscope] at h
    cases h

/-- Back from a nested function, the instruction that yields it is emitted. -/
theorem lowerFunction_eq_ok {fn : Function} {s u : Builder} {v : Operand} (h : lowerFunction names fn s = .ok v u) :
    ∃ b g t, s.At b ∧ lowerGraph names fn s = .ok g t ∧ v = .instr t.draw.supply.nextInstr ∧ u = t.closure g := by
  rw [lowerFunction_eq] at h
  obtain ⟨g, t, hrun, hvalue⟩ := bind_eq_ok h
  obtain ⟨_, t₁, hqueue, hvalue⟩ := bind_eq_ok hvalue
  obtain ⟨entry, t₂, href, hemit⟩ := bind_eq_ok hvalue
  obtain ⟨id, t₃, hbound, hpure⟩ := bind_eq_ok hemit
  cases hqueue
  cases href
  obtain ⟨⟨b, hat⟩, hid, hclosure⟩ := emitBound_eq_ok hbound
  obtain ⟨_, body, _, _, _, _, ht⟩ := lowerGraph_eq_ok hrun
  have hat' : s.At b := by
    rw [ht] at hat
    exact hat
  cases hpure
  exact ⟨b, g, t, hat', hrun, congrArg Operand.instr hid, hclosure⟩

theorem takes_lowerFunction (fn : Function) :
    Takes names isLocal (lowerFunction names fn) [fn.tree] (Operand.IsValue isLocal) := by
  intro s v u h
  obtain ⟨b, g, t, hat, hrun, rfl, rfl⟩ := lowerFunction_eq_ok h
  exact ⟨.function hat hrun, trivial⟩

/-! Operands that are values. -/

theorem areValues_alone : (fun v : Operand => AreValues isLocal v.alone) = Operand.IsValue isLocal :=
  funext fun _ => propext List.forall_mem_singleton

theorem areValues_nothing {α : Type} : (fun a : α => AreValues isLocal (nothing a)) = Anything :=
  funext fun _ => propext (iff_true_intro .nil)

/-- Code takes steps if it knows of nothing but values, and then it gives values. -/
abbrev stepping (isLocal : String → Prop) : Judgement where
  code _ names owed known m gives _ σ := names.LocalsAre isLocal → AreValues isLocal (owed ++ known) →
    Takes names isLocal m σ.trees fun a => AreValues isLocal (gives a)
  inner _ names m σ := names.LocalsAre isLocal → Takes names isLocal m σ.trees Anything
  flow _ names m σ := names.LocalsAre isLocal → Takes names isLocal m σ.trees Anything

namespace Build

variable {f : Frame} {owed known : List Operand} {writes : List String} {σ : Summary}

theorem Takes.of_code {m : Build Operand} (hm : (stepping isLocal).code f names owed known m Operand.alone writes σ)
    (hnames : names.LocalsAre isLocal) (h : AreValues isLocal (owed ++ known)) :
    Takes names isLocal m σ.trees (Operand.IsValue isLocal) :=
  areValues_alone ▸ hm hnames h

theorem Takes.of_unit {m : Build Unit} (hm : (stepping isLocal).code f names [] [] m nothing writes σ)
    (hnames : names.LocalsAre isLocal) : Takes names isLocal m σ.trees Anything :=
  areValues_nothing ▸ hm hnames .nil

end Build

theorem stepping_isClosed : (stepping isLocal).IsClosed where
  pure hgives _ h := .pure fun o ho => h o (hgives ho)
  refuse _ _ _ := .fail
  bind hm hk hnames h :=
    (hm hnames (forall_mem_front h)).bind fun a ha => hk a hnames (forall_mem_behind h ha)
  weaken hm hsub hnames h := hm hnames (forall_mem_used h hsub)
  perm hm _ := hm
  constant hk hnames h := takes_freshInstr.before fun _ _ => hk hnames (forall_mem_drawn h trivial)
  count hk hnames h := takes_freshInstr.before fun _ _ => hk hnames (forall_mem_drawn h trivial)
  emit _ _ _ _ _ hvalues _ h := by
    rw [areValues_alone]
    exact takes_emit (forall_mem_used h hvalues)
  perform _ _ _ _ _ hvalues _ h := by
    rw [areValues_nothing]
    exact takes_perform (forall_mem_used h hvalues)
  read _ hnames _ := by
    rw [areValues_alone]
    exact takes_readName hnames _
  write _ hm hnames _ := by
    rw [areValues_alone]
    exact (Takes.of_code hm hnames .nil).behind fun _ hv => takes_writeName hnames _ hv
  writeResult _ _ _ _ _ _ hvalues hnames h := by
    rw [areValues_alone]
    exact (takes_emit (forall_mem_used h hvalues)).before fun _ hv => takes_writeName hnames _ hv
  merge hcondition hfirst hsecond hnames h := by
    rw [areValues_alone]
    exact (takes_merge _ (h _ hcondition) (.of_code hfirst hnames h) (.of_code hsecond hnames h)).of_eq rfl
  plainCall _ hfunction hvalues hnames h := by
    rw [areValues_alone]
    refine (Takes.of_code hfunction hnames h).bind fun _ hf => (hvalues hnames h).behind fun _ hargs => ?_
    exact takes_call hf (takes_emit .nil) hargs
  methodCall hkey hobject hvalues hnames h := by
    rw [areValues_alone, lowerExpr]
    refine Takes.of_eq ?_ (List.append_assoc _ _ _).symm
    refine (Takes.of_code hkey hnames h).bind fun _ hk => (Takes.of_code hobject hnames h).bind fun _ ho => ?_
    refine (takes_emit (.cons ho (.cons hk .nil))).before fun _ hf => (hvalues hnames h).behind fun _ hargs => ?_
    exact takes_call hf (.pure ho) hargs
  construct hfunction hvalues hnames h := by
    rw [areValues_alone, lowerExpr]
    refine (Takes.of_code hfunction hnames h).bind fun _ hf => (hvalues hnames h).behind fun _ hargs => ?_
    exact takes_new hf hargs
  function _ _ _ _ _ _ _ _ := by
    rw [areValues_alone]
    exact takes_lowerFunction _
  skip _ := .pure trivial
  seq hm hm' hnames := (hm hnames).bind fun _ _ => hm' hnames
  ensureOpen hm hnames := takes_ensureOpen.before fun _ _ => hm hnames
  ofCode hm hnames := .of_unit hm hnames
  ofFlow hm := hm
  after hm hm' hnames := (Takes.of_unit hm hnames).bind fun _ _ => hm' hnames
  branch htest hconsequent halternate hnames :=
    takes_branch (.of_code htest hnames .nil) (hconsequent hnames) (halternate hnames)
  loop htest hupdate hbody hnames := takes_loop (.of_code htest hnames .nil) (hbody hnames) (.of_unit hupdate hnames)
  jump kind label _ := takes_jump kind label
  ret hresult hnames := (Takes.of_code hresult hnames .nil).behind fun _ hv => takes_perform (.cons hv .nil)

theorem lowerStmts_steps (hnames : names.LocalsAre isLocal) (f : Frame) :
    Takes names isLocal (lowerStmts names f.body) (treesOf f.body) Anything :=
  @lowerStmts_judged _ stepping_isClosed f names f.body (List.Subset.refl _) (List.Subset.refl _) hnames

theorem lowerBody_steps (hnames : names.LocalsAre isLocal) {f : Frame} (hvars : ∀ name ∈ f.scope.vars, isLocal name) :
    Takes names isLocal (lowerBody names f) (declaredTreesOf f.body ++ treesOf f.body) Anything := by
  obtain ⟨_, hdeclared⟩ := @lowerDeclared_judged _ stepping_isClosed f names f.body (List.Subset.refl _)
    (List.Subset.refl _)
  exact (takes_prologue hnames hvars).before fun _ _ => (Takes.of_unit hdeclared hnames).bind fun _ _ =>
    lowerStmts_steps hnames f

end ScriptSsa
