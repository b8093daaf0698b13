import ScriptSsa.Proofs.Course

/-!
The course of lowering.

Every part of a script is lowered along a course that makes the reads and calls that stand in it. Hoisted functions
are lowered ahead of the statements they stand among, so the reads of a statement are shared out between the two passes
over it; calls are all made in the second.
-/

namespace ScriptSsa

open Build

variable {names : Names}

theorem noHandles_alone : (fun v : Operand => NoHandles v.alone) = NoHandle :=
  funext fun _ => propext List.forall_mem_singleton

theorem noHandles_nothing {α : Type} : (fun a : α => NoHandles (nothing a)) = Anything :=
  funext fun _ => propext (iff_true_intro .nil)

/-! Calls. -/

section

variable {callee inner property : Expr} {computed : Bool} {arguments : List Expr}
  (harguments : Steers names [] (lowerExprs names arguments) (localReadsOfExprs names arguments)
    (callsOfExprs arguments) NoHandles)

include harguments

/-- A call whose callee and arguments are lowered one after the other. -/
theorem steers_plainCall (hmember : ∀ object property computed, callee ≠ .member object property computed)
    (hcallee : Steers names [] (lowerExpr names callee) (callee.localReads names) callee.calls NoHandle) :
    Steers names [] (do
        let function ← lowerExpr names callee
        call function (emit .global []) (← lowerExprs names arguments))
      ((Expr.call callee arguments).localReads names) (Expr.call callee arguments).calls NoHandle := by
  intro s v w h
  obtain ⟨function, t, hfunction, h⟩ := bind_eq_ok h
  obtain ⟨values, u, hvalues, h⟩ := bind_eq_ok h
  obtain ⟨⟨b, hat⟩, hv, rfl⟩ := call_global_eq_ok h
  obtain ⟨⟨draws, hreads, hcourse⟩, hf⟩ := hcallee s function t hfunction
  obtain ⟨⟨draws', hreads', hcourse'⟩, hvs⟩ := harguments t values u hvalues
  have hcall := Course.call hat (.plain hmember hfunction hvalues) (.cons hf hvs)
  refine ⟨⟨_, ?_, hcourse.trans (hcourse'.trans hcall)⟩, hv⟩
  simp [Expr.localReads, hreads, hreads', Draws.handle]

theorem steers_methodCall
    (hkey : Steers names [] (memberKey property computed (lowerExpr names property))
      (if computed then property.localReads names else 0) (if computed then property.calls else []) NoHandle)
    (hinner : Steers names [] (lowerExpr names inner) (inner.localReads names) inner.calls NoHandle) :
    Steers names [] (lowerExpr names (.call (.member inner property computed) arguments))
      ((Expr.call (.member inner property computed) arguments).localReads names)
      (Expr.call (.member inner property computed) arguments).calls NoHandle := by
  intro s v x h
  rw [lowerExpr] at h
  obtain ⟨key, t, hkey', h⟩ := bind_eq_ok h
  obtain ⟨object, u, hobject, h⟩ := bind_eq_ok h
  obtain ⟨function, w, hfunction, h⟩ := bind_eq_ok h
  obtain ⟨values, w', hvalues, h⟩ := bind_eq_ok h
  obtain ⟨⟨b, hat⟩, hv, rfl⟩ := call_method_eq_ok h
  obtain ⟨⟨draws, hreads, hcourse⟩, hk⟩ := hkey s key t hkey'
  obtain ⟨⟨draws₁, hreads₁, hcourse₁⟩, ho⟩ := hinner t object u hobject
  have hload : Steers names [] (loadProperty ⟨object, key⟩) 0 [] NoHandle :=
    steers_emit rfl rfl (.cons ho (.cons hk .nil))
  obtain ⟨⟨draws₂, hreads₂, hcourse₂⟩, hf⟩ := hload u function w hfunction
  obtain ⟨⟨draws₃, hreads₃, hcourse₃⟩, hvs⟩ := harguments w values w' hvalues
  have hcall := Course.call hat (.method hkey' hobject hfunction hvalues) (.cons hf (.cons ho hvs))
  have hcourse₄ := hcourse.trans (hcourse₁.trans (hcourse₂.trans (hcourse₃.trans hcall)))
  rw [Expr.calls, Expr.calls, List.append_assoc]
  refine ⟨⟨_, ?_, hcourse₄⟩, hv⟩
  simp only [Draws.reads_append, Draws.handle, List.append_nil, List.length_append, hreads, hreads₁, hreads₂, hreads₃,
    Expr.localReads]
  omega

theorem steers_construct
    (hcallee : Steers names [] (lowerExpr names callee) (callee.localReads names) callee.calls NoHandle) :
    Steers names [] (lowerExpr names (.new callee arguments)) ((Expr.new callee arguments).localReads names)
      (Expr.new callee arguments).calls NoHandle := by
  intro s v w h
  rw [lowerExpr] at h
  obtain ⟨function, t, hfunction, h⟩ := bind_eq_ok h
  obtain ⟨values, u, hvalues, h⟩ := bind_eq_ok h
  obtain ⟨⟨b, hat⟩, hv, rfl⟩ := new_eq_ok h
  obtain ⟨⟨draws, hreads, hcourse⟩, hf⟩ := hcallee s function t hfunction
  obtain ⟨⟨draws', hreads', hcourse'⟩, hvs⟩ := harguments t values u hvalues
  have hcall := Course.call hat (.construct hfunction hvalues) (.cons hf hvs)
  refine ⟨⟨_, ?_, hcourse.trans (hcourse'.trans hcall)⟩, hv⟩
  simp [Expr.localReads, hreads, hreads', Draws.handle]

end

/-! Functions. -/

/-- The reads of a body are those of its hoisted functions and those of its statements. -/
theorem steers_body {f : Frame}
    (hdeclared : Steers names [] (lowerDeclared names f.body) (hoistedReads names (declaredTreesOf f.body)) [] Anything)
    (hstmts : Steers names [] (lowerStmts names f.body) (ownReadsOf names f.body) (callsOf f.body) Anything) :
    Steers names [] (lowerBody names f) (localReadsOf names f.body) (callsOf f.body) Anything := by
  rw [localReadsOf_split]
  exact (steers_prologue _).before fun _ _ => hdeclared.bind fun _ _ => hstmts

theorem Function.localReads_eq {fn : Function} {params : List String} (hparams : fn.params = params.map Expr.ident) :
    fn.localReads names = localReadsOf (names.enter (Frame.mk fn.name params fn.body).scope) fn.body := by
  obtain ⟨name, _, body, isGenerator, isAsync⟩ := fn
  obtain rfl : _ = params.map Expr.ident := hparams
  have hidents : (params.map Expr.ident).filterMap Expr.ident? = params := by
    rw [List.filterMap_map]
    exact List.filterMap_some
  rw [Function.localReads, hidents]
  rfl

/-- A function is lowered along the course of its body, which counts its reads but not its calls. -/
theorem steers_function {fn : Function} {params : List String} (hparams : fn.params = params.map Expr.ident)
    (hbody : Steers (names.enter (Frame.mk fn.name params fn.body).scope) []
      (lowerBody (names.enter (Frame.mk fn.name params fn.body).scope) ⟨fn.name, params, fn.body⟩)
      (localReadsOf (names.enter (Frame.mk fn.name params fn.body).scope) fn.body) (callsOf fn.body) Anything) :
    Steers names [] (lowerFunction names fn) (fn.localReads names) [] NoHandle := by
  intro s v u h
  obtain ⟨b, g, t, hat, hrun, rfl, rfl⟩ := lowerFunction_eq_ok h
  obtain ⟨params', t', hparams', hrun', _, hg, rfl⟩ := lowerGraph_eq_ok hrun
  obtain rfl : params' = params :=
    (List.map_inj_right fun _ _ => Expr.ident.inj).mp (hparams'.symm.trans hparams)
  obtain ⟨⟨draws, hreads, hcourse⟩, _⟩ := hbody _ _ _ hrun'
  have hqueued : Course names [] draws [] s (s.resume t' g) := hcourse.function (by rw [hg])
  have hat' : (s.resume t' g).draw.At b := hat
  have hyield : Course names ([] ++ [.block g.entry]) .none [] (s.resume t' g).draw
      ((s.resume t' g).draw.emit none .function [.block g.entry]) :=
    @Course.emit names b .function [.block g.entry] _ hat' rfl
  refine ⟨⟨_, ?_, hqueued.trans hyield.handle⟩, rfl⟩
  rw [Function.localReads_eq hparams, ← hreads]
  exact congrArg List.length (List.append_nil _)

/-- Code takes a course if it knows of no handles but those that it owes, and then it gives none. -/
abbrev steering : Judgement where
  code _ names owed known m gives _ σ :=
    NoHandles known → Steers names owed m σ.reads σ.calls fun a => NoHandles (gives a)
  inner _ names m σ := Steers names [] m σ.reads σ.calls Anything
  flow _ names m σ := Steers names [] m σ.reads σ.calls Anything

namespace Build.Steers

variable {f : Frame} {owed known : List Operand} {writes : List String} {σ : Summary}

theorem of_code {m : Build Operand} (hm : steering.code f names owed known m Operand.alone writes σ)
    (hknown : NoHandles known) : Steers names owed m σ.reads σ.calls NoHandle :=
  noHandles_alone ▸ hm hknown

theorem of_unit {m : Build Unit} (hm : steering.code f names [] [] m nothing writes σ) :
    Steers names [] m σ.reads σ.calls Anything :=
  noHandles_nothing ▸ hm .nil

end Build.Steers

theorem steering_isClosed : steering.IsClosed where
  pure hgives hknown := .pure fun o ho => hknown o (hgives ho)
  refuse _ _ := .fail
  bind hm hk hknown := (hm hknown).bind fun a ha => hk a (List.forall_mem_append.mpr ⟨ha, hknown⟩)
  weaken hm hsub hknown := hm fun o ho => hknown o (hsub ho)
  perm hm _ := hm
  constant hk hknown := .constant (hk hknown)
  count hk hknown := .count (hk hknown)
  emit _ _ _ hargs howed hvalues hknown := by
    rw [noHandles_alone]
    exact steers_emit hargs howed fun o ho => hknown o (hvalues ho)
  perform _ _ _ hargs howed hvalues hknown := by
    rw [noHandles_nothing]
    exact steers_perform hargs howed fun o ho => hknown o (hvalues ho)
  read _ _ := by
    rw [noHandles_alone]
    exact steers_readName _
  write _ hm _ := by
    rw [noHandles_alone]
    exact (Steers.of_code hm .nil).behind fun _ hv => steers_writeName _ hv
  writeResult _ _ _ _ hargs howed hvalues hknown := by
    rw [noHandles_alone]
    exact (steers_emit hargs howed fun o ho => hknown o (hvalues ho)).first fun _ hv => steers_writeName _ hv
  merge hcondition hfirst hsecond hknown := by
    rw [noHandles_alone]
    exact (steers_merge _ (hknown _ hcondition) (.of_code hfirst hknown) (.of_code hsecond hknown)).of_eq
      (Nat.zero_add _).symm rfl
  plainCall hmember hfunction hvalues _ := by
    rw [noHandles_alone]
    exact steers_plainCall (hvalues .nil) hmember (.of_code hfunction .nil)
  methodCall hkey hobject hvalues _ := by
    rw [noHandles_alone]
    exact steers_methodCall (hvalues .nil) (.of_code hkey .nil) (.of_code hobject .nil)
  construct hfunction hvalues _ := by
    rw [noHandles_alone]
    exact steers_construct (hvalues .nil) (.of_code hfunction .nil)
  function _ _ _ hparams hdeclared hstmts _ := by
    rw [noHandles_alone]
    exact steers_function hparams (steers_body (.of_unit hdeclared) hstmts)
  skip := .pure trivial
  seq hm hm' := hm.bind fun _ _ => hm'
  ensureOpen hm := steers_ensureOpen.before fun _ _ => hm
  ofCode hm := .of_unit hm
  ofFlow hm := hm
  after hm hm' := (Steers.of_unit hm).bind fun _ _ => hm'
  branch htest hconsequent halternate := steers_branch (.of_code htest .nil) hconsequent halternate
  loop htest hupdate hbody := steers_loop (.of_code htest .nil) hbody (.of_unit hupdate)
  jump kind label := steers_jump kind label
  ret hresult := (Steers.of_code hresult .nil).behind fun _ hv => steers_perform rfl rfl (.cons hv .nil)

theorem lowerBody_course (names : Names) (f : Frame) :
    Steers names [] (lowerBody names f) (localReadsOf names f.body) (callsOf f.body) Anything := by
  obtain ⟨_, hdeclared⟩ := @lowerDeclared_judged _ steering_isClosed f names f.body (List.Subset.refl _)
    (List.Subset.refl _)
  exact steers_body (.of_unit hdeclared)
    (@lowerStmts_judged _ steering_isClosed f names f.body (List.Subset.refl _) (List.Subset.refl _))

end ScriptSsa
