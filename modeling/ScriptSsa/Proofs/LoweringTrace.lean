import ScriptSsa.Construction
import ScriptSsa.Proofs.CodeRules
import ScriptSsa.Proofs.LoweringClosure

/-!
Lowering leaves a trace.

Every part of a function's body is lowered to code or to flow. Along the way names are looked up by some rule, and only
inside the functions that enclose the place, for names that the innermost of them uses or declares. So a construction
either succeeds with graphs that traces have built, or it meets a construct or a jump that it refuses, or the rule
fails at such a lookup.
-/

namespace ScriptSsa

open Build

/-- The names inside the given functions, the innermost first, looked up by the given rule. -/
def Names.inside (rule : List Scope → Access → String → Except Fault Resolution) (fs : List Frame) : Names :=
  ⟨fs.map Frame.scope, rule⟩

/-- The errors that a construction can end with: it refuses the script, or the rule fails at a name that the
innermost of the enclosing functions looks up. -/
inductive Refusal (p : Program) (rule : List Scope → Access → String → Except Fault Resolution) :
    BuildError → Prop where
  | unsupported (what : String) : Refusal p rule (.unsupported what)
  | unresolvedJump (kind : Jump) (label : Option String) : Refusal p rule (.unresolvedJump kind label)
  | lookup {f : Frame} {outer : List Frame} {access : Access} {name : String} {fault : Fault}
      (hnest : Nest p (f :: outer)) (hlooks : f.Looks access name)
      (hrule : rule ((f :: outer).map Frame.scope) access name = .error fault) : Refusal p rule (.fault fault)

variable {p : Program} {rule : List Scope → Access → String → Except Fault Resolution} {E : BuildError → Prop}
  {held : Set InstrId}

/-- A nested function leaves the graph around it as it was, but for the instruction that yields it. -/
theorem isCode_nested {name : Option String} {body : Build Unit} (hbody : IsOpenFlow E body) :
    IsCode E held (inNewGraph name body >>= functionValue) Value := by
  intro s hs
  obtain ⟨b, hat, _⟩ := hs.1
  refine .chain (inNewGraph_yields ((hbody s.nested s.ready_nested).mono fun _ t htrace => ?_))
  obtain ⟨table, hphis⟩ := htrace.finish_phis
  refine ⟨table, hphis, functionValue_yields hat ?_⟩
  have hresume := (@Trace.function held s t name table htrace hphis).trans .draw
  refine ⟨_, Set.subset_insert _ _, Set.mem_insert _ _, hresume.trans ?_⟩
  refine @Trace.emit held _ none .function _ (hresume.ready hs) rfl fun o ho => .inr ?_
  exact ⟨_, List.mem_append_right _ (List.mem_singleton.mpr rfl), List.mem_singleton.mp ho⟩

theorem Nest.mayLookUp {f : Frame} {outer : List Frame} (hnest : Nest p (f :: outer)) {access : Access}
    {name : String} (h : f.Looks access name) :
    MayLookUp (Refusal p rule) (Names.inside rule (f :: outer)) access name :=
  fun _ hfault => .lookup hnest h hfault

/-- The names are those inside the function and the functions around it. -/
def Frame.Encloses (p : Program) (rule : List Scope → Access → String → Except Fault Resolution) (f : Frame)
    (names : Names) : Prop :=
  ∃ outer, Nest p (f :: outer) ∧ names = Names.inside rule (f :: outer)

namespace Frame.Encloses

variable {f : Frame} {names : Names}

/-- Names that the frame looks up are found, or fail as the rule does. -/
theorem mayLookUp (h : f.Encloses p rule names) {access : Access} {name : String} (hlooks : f.Looks access name) :
    MayLookUp (Refusal p rule) names access name := by
  obtain ⟨outer, hnest, rfl⟩ := h
  exact hnest.mayLookUp hlooks

/-- A function inside is enclosed by the frames around it and its own. -/
theorem nested (h : f.Encloses p rule names) {fn : Function} {params : List String}
    (hitem : Item.function fn ∈ itemsOf f.body) (hparams : fn.params = params.map Expr.ident) :
    Frame.Encloses p rule ⟨fn.name, params, fn.body⟩ (names.enter (Frame.mk fn.name params fn.body).scope) := by
  obtain ⟨outer, hnest, rfl⟩ := h
  exact ⟨f :: outer, .inside hnest hitem hparams, rfl⟩

/-- The body of a function: first values, hoisted functions, statements. -/
theorem isOpenFlow_body (h : f.Encloses p rule names)
    (hdeclared : IsCode (Refusal p rule) ∅ (lowerDeclared names f.body) Any)
    (hstmts : IsFlow (Refusal p rule) (lowerStmts names f.body)) :
    IsOpenFlow (Refusal p rule) (lowerBody names f) := by
  refine .after (isCode_prologue fun name hname => ?_) (.after hdeclared hstmts.isOpenFlow)
  exact h.mayLookUp (.inr ⟨rfl, Frame.mem_declared_of_param hname⟩)

end Frame.Encloses

/-! Operands in reach. -/

theorem values_alone : (fun v : Operand => Values v.alone) = Value := by
  funext v held
  exact propext List.forall_mem_singleton

theorem values_nothing {α : Type} : (fun a : α => Values (nothing a)) = Any := by
  funext a held
  exact propext (iff_true_intro .nil)

/-- Code leaves a code trace if what it knows is in reach, and then so is what it gives. -/
abbrev tracing (p : Program) (rule : List Scope → Access → String → Except Fault Resolution) : Judgement where
  code f names owed known m gives _ _ := f.Encloses p rule names → ∀ held, Values (owed ++ known) held →
    IsCode (Refusal p rule) held m fun a => Values (gives a)
  inner f names m _ := f.Encloses p rule names → IsOpenFlow (Refusal p rule) m
  flow f names m _ := f.Encloses p rule names → IsFlow (Refusal p rule) m

namespace Build

variable {f : Frame} {names : Names} {owed known : List Operand} {writes : List String} {σ : Summary}

/-- What a rule asks of operands, in terms of the values that are held. -/
theorem IsCode.of_code {m : Build Operand} (hm : (tracing p rule).code f names owed known m Operand.alone writes σ)
    (hnames : f.Encloses p rule names) (h : Values (owed ++ known) held) : IsCode (Refusal p rule) held m Value :=
  values_alone ▸ hm hnames held h

theorem IsCode.of_unit {m : Build Unit} (hm : (tracing p rule).code f names [] [] m nothing writes σ)
    (hnames : f.Encloses p rule names) : IsCode (Refusal p rule) held m Any :=
  values_nothing ▸ hm hnames held .nil

end Build

/-- Every construct is lowered along a trace, if its parts are. -/
theorem tracing_isClosed : (tracing p rule).IsClosed where
  pure hgives _ _ h := .pure fun o ho => h o (hgives ho)
  refuse _ _ _ _ := .fail (Refusal.unsupported _)
  bind hm hk hnames held h :=
    (hm hnames held (forall_mem_front h)).bind fun a held' hsub ha =>
      hk a hnames held' (forall_mem_behind (Values.mono hsub h) ha)
  weaken hm hsub hnames held h := hm hnames held (forall_mem_used h hsub)
  perm hm _ := hm
  constant hk hnames held h :=
    isCode_handle (fun _ => rfl) fun held' hsub => hk hnames held' (forall_mem_drawn (Values.mono hsub h) trivial)
  count hk hnames held h :=
    isCode_handle (fun _ => rfl) fun held' hsub => hk hnames held' (forall_mem_drawn (Values.mono hsub h) trivial)
  emit _ hplain hyields _ _ hvalues _ _ h := by
    rw [values_alone]
    exact isCode_emit hplain hyields (forall_mem_used h hvalues)
  perform _ hplain hyields _ _ hvalues _ _ h := by
    rw [values_nothing]
    exact isCode_perform hplain hyields (forall_mem_used h hvalues)
  read hlooks hnames _ _ := by
    rw [values_alone]
    exact isCode_readName (hnames.mayLookUp hlooks)
  write hlooks hm hnames held _ := by
    rw [values_alone]
    exact (IsCode.of_code hm hnames .nil).bind fun _ _ _ hv => isCode_writeName (hnames.mayLookUp hlooks) hv
  writeResult _ hlooks hplain hyields _ _ hvalues hnames _ h := by
    rw [values_alone]
    refine (isCode_emit hplain hyields (forall_mem_used h hvalues)).bind fun _ _ _ hv => ?_
    exact isCode_writeName (hnames.mayLookUp hlooks) hv
  merge hcondition hfirst hsecond hnames _ h := by
    rw [values_alone]
    exact isCode_merge (h _ hcondition) (.of_code hfirst hnames h) (.of_code hsecond hnames h)
  plainCall _ hfunction hvalues hnames _ h := by
    rw [values_alone]
    refine (IsCode.of_code hfunction hnames h).bind fun _ _ _ hf => ?_
    refine (hvalues hnames _ .nil).bind fun _ _ hsub hargs => ?_
    exact isCode_call (hf.mono hsub) (fun _ _ => isCode_emit rfl rfl .nil) hargs
  methodCall hkey hobject hvalues hnames _ h := by
    rw [values_alone, lowerExpr]
    refine (IsCode.of_code hkey hnames h).bind fun _ _ _ hk => ?_
    refine (IsCode.of_code hobject hnames .nil).bind fun _ _ hsub ho => ?_
    refine (isCode_emit rfl rfl (.cons ho (.cons (hk.mono hsub) .nil))).bind fun _ _ hsub₁ hf => ?_
    refine (hvalues hnames _ .nil).bind fun _ _ hsub₂ hargs => ?_
    exact isCode_call (hf.mono hsub₂) (fun _ hsub₃ => .pure (ho.mono (hsub₁.trans (hsub₂.trans hsub₃)))) hargs
  construct hfunction hvalues hnames _ h := by
    rw [values_alone, lowerExpr]
    refine (IsCode.of_code hfunction hnames h).bind fun _ _ _ hf => ?_
    refine (hvalues hnames _ .nil).bind fun _ _ hsub hargs => ?_
    exact isCode_new (hf.mono hsub) hargs
  function hitem hgenerator hasync hparams hdeclared hstmts hnames _ _ := by
    have hinner := hnames.nested hitem hparams
    rw [values_alone, lowerFunction_eq_nested _ hgenerator hasync hparams]
    exact isCode_nested (hinner.isOpenFlow_body (.of_unit hdeclared hinner) (hstmts hinner))
  skip _ := .skip
  seq hm hm' hnames := (hm hnames).seq (hm' hnames)
  ensureOpen hm hnames := (hm hnames).ensureOpen
  ofCode hm hnames := (IsCode.of_unit hm hnames).isOpenFlow
  ofFlow hm hnames := (hm hnames).isOpenFlow
  after hm hm' hnames := .after (.of_unit hm hnames) (hm' hnames)
  branch htest hconsequent halternate hnames :=
    isOpenFlow_branch (.of_code htest hnames .nil) (hconsequent hnames) (halternate hnames)
  loop htest hupdate hbody hnames :=
    isOpenFlow_loop (.of_code htest hnames .nil) (.of_unit hupdate hnames) (hbody hnames)
  jump kind label _ := isOpenFlow_jump (Refusal.unresolvedJump kind label)
  ret hresult hnames := isOpenFlow_ret (.of_code hresult hnames .nil)

/-! The parts of a function's body. -/

section

variable {f : Frame} {outer : List Frame} (hnest : Nest p (f :: outer))

include hnest

theorem lowerExpr_isCode (e : Expr) (hi : e.items ⊆ itemsOf f.body) (held : Set InstrId) :
    IsCode (Refusal p rule) held (lowerExpr (Names.inside rule (f :: outer)) e) Value :=
  .of_code (lowerExpr_judged tracing_isClosed e hi) ⟨outer, hnest, rfl⟩ .nil

theorem lowerTest_isCode (e : Option Expr) (hi : itemsOfOptional e ⊆ itemsOf f.body) (held : Set InstrId) :
    IsCode (Refusal p rule) held (lowerTest (Names.inside rule (f :: outer)) e) Value :=
  .of_code (lowerTest_judged tracing_isClosed e hi) ⟨outer, hnest, rfl⟩ .nil

theorem lowerUpdate_isCode (e : Option Expr) (hi : itemsOfOptional e ⊆ itemsOf f.body) (held : Set InstrId) :
    IsCode (Refusal p rule) held (lowerUpdate (Names.inside rule (f :: outer)) e) Any :=
  .of_unit (lowerUpdate_judged tracing_isClosed e hi) ⟨outer, hnest, rfl⟩

theorem lowerResult_isCode (e : Option Expr) (hi : itemsOfOptional e ⊆ itemsOf f.body) (held : Set InstrId) :
    IsCode (Refusal p rule) held (lowerResult (Names.inside rule (f :: outer)) e) Value :=
  .of_code (lowerResult_judged tracing_isClosed e hi) ⟨outer, hnest, rfl⟩ .nil

theorem lowerVarDecl_isCode (d : VarDecl) (hi : d.items ⊆ itemsOf f.body)
    (hd : d.names.map .var ⊆ declarationsOf f.body) (held : Set InstrId) :
    IsCode (Refusal p rule) held (lowerVarDecl (Names.inside rule (f :: outer)) d) Any := by
  obtain ⟨_, hcode⟩ := @lowerVarDecl_judged _ tracing_isClosed f (Names.inside rule (f :: outer)) d hi hd
  exact .of_unit hcode ⟨outer, hnest, rfl⟩

theorem lowerInit_isCode (init : Option ForInit) (hi : itemsOfInit init ⊆ itemsOf f.body)
    (hd : ForInit.declarations init ⊆ declarationsOf f.body) (held : Set InstrId) :
    IsCode (Refusal p rule) held (lowerInit (Names.inside rule (f :: outer)) init) Any := by
  obtain ⟨_, hcode⟩ := @lowerInit_judged _ tracing_isClosed f (Names.inside rule (f :: outer)) init hi hd
  exact .of_unit hcode ⟨outer, hnest, rfl⟩

theorem lowerDeclared_isCode (body : List Stmt) (hi : itemsOf body ⊆ itemsOf f.body)
    (hd : declarationsOf body ⊆ declarationsOf f.body) (held : Set InstrId) :
    IsCode (Refusal p rule) held (lowerDeclared (Names.inside rule (f :: outer)) body) Any := by
  obtain ⟨_, hcode⟩ := @lowerDeclared_judged _ tracing_isClosed f (Names.inside rule (f :: outer)) body hi hd
  exact .of_unit hcode ⟨outer, hnest, rfl⟩

theorem lowerStmt_isFlow (s : Stmt) (hi : s.items ⊆ itemsOf f.body) (hd : s.declarations ⊆ declarationsOf f.body) :
    IsFlow (Refusal p rule) (lowerStmt (Names.inside rule (f :: outer)) s) :=
  lowerStmt_judged tracing_isClosed s hi hd ⟨outer, hnest, rfl⟩

/-- A body is prepared, its functions are declared, and then it is lowered statement by statement. -/
theorem lowerBody_isOpenFlow : IsOpenFlow (Refusal p rule) (lowerBody (Names.inside rule (f :: outer)) f) := by
  have hnames : f.Encloses p rule (Names.inside rule (f :: outer)) := ⟨outer, hnest, rfl⟩
  have hstmts : IsFlow (Refusal p rule) (lowerStmts (Names.inside rule (f :: outer)) f.body) :=
    lowerStmts_judged tracing_isClosed f.body (List.Subset.refl _) (List.Subset.refl _) hnames
  exact hnames.isOpenFlow_body (lowerDeclared_isCode hnest f.body (List.Subset.refl _) (List.Subset.refl _) ∅) hstmts

end

/-- What becomes of a script: a graph that a trace has built, or a refusal. -/
theorem lowerProgram_yields (p : Program)
    (rule : List Scope → Access → String → Except Fault Resolution) (supply : Supply) :
    (lowerProgram ⟨[], rule⟩ p).Yields (Builder.start supply) (Refusal p rule) fun g t =>
      ∃ u, Trace .flow ∅ (Builder.start supply).nested ∅ u ∧ u.phis.finish = .ok g.phis ∧
        g.entry = supply.nextBlock ∧ g.blocks = u.blocks ∧ t.supply = u.supply ∧ t.finished = u.finished := by
  have hbody := @lowerBody_isOpenFlow p rule ⟨none, [], p.body⟩ [] .top
  refine .step rfl (inNewGraph_yields ?_)
  refine (hbody _ (Builder.ready_nested (Builder.start supply))).mono fun _ t htrace => ?_
  obtain ⟨table, hphis⟩ := htrace.finish_phis
  exact ⟨table, hphis, t, htrace, hphis, rfl, rfl, rfl, rfl⟩

/-- The trace of the top level queues the graphs of all other functions. -/
theorem trace_of_constructUsing {supply : Supply} {graphs : List Graph}
    (h : (constructUsing ⟨[], rule⟩ p supply).1 = .ok graphs) :
    ∃ main t, Trace .flow ∅ (Builder.start supply).nested ∅ t ∧ t.phis.finish = .ok main.phis ∧
      main.entry = supply.nextBlock ∧ main.blocks = t.blocks ∧ graphs = main :: t.finished.graphs ∧
      (constructUsing ⟨[], rule⟩ p supply).2 = t.supply := by
  have hyields := lowerProgram_yields p rule supply
  rw [constructUsing] at h ⊢
  cases hrun : lowerProgram ⟨[], rule⟩ p (Builder.start supply) with
  | ok g t =>
      obtain ⟨u, htrace, hphis, hentry, hblocks, hsupply, hfinished⟩ := hyields.ok hrun
      rw [hrun] at h
      obtain rfl : g :: t.finished.graphs = graphs := Except.ok.inj h
      exact ⟨g, u, htrace, hphis, hentry, hblocks, by rw [hfinished], hsupply⟩
  | error e t =>
      rw [hrun] at h
      cases h

/-- Every graph of a script is built by a trace. -/
theorem built_of_constructUsing {supply : Supply} {graphs : List Graph}
    (h : (constructUsing ⟨[], rule⟩ p supply).1 = .ok graphs) : ∀ g ∈ graphs, g.Built := by
  obtain ⟨main, t, htrace, hphis, hentry, hblocks, rfl, _⟩ := trace_of_constructUsing h
  refine List.forall_mem_cons.mpr ⟨⟨_, t, htrace, hphis, hentry, hblocks⟩, fun g hg => ?_⟩
  exact (htrace.finished_built hg).resolve_left fun hstart => nomatch hstart

/-- And a script that fails is refused for a reason that can be named. -/
theorem refusal_of_constructUsing {supply : Supply} {e : BuildError}
    (h : (constructUsing ⟨[], rule⟩ p supply).1 = .error e) : Refusal p rule e := by
  have hyields := lowerProgram_yields p rule supply
  rw [constructUsing] at h
  cases hrun : lowerProgram ⟨[], rule⟩ p (Builder.start supply) with
  | ok g t =>
      rw [hrun] at h
      cases h
  | error e' t =>
      rw [hrun] at h
      obtain rfl : e' = e := Except.error.inj h
      exact hyields.error hrun

end ScriptSsa
