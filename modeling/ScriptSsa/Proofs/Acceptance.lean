import ScriptSsa.Proofs.Account
import ScriptSsa.Proofs.NameLookup

/-!
Lowering bears out the account of the syntax.

Every part of a body meets the account that its summary gives. So a script can be lowered exactly if it is supported,
and then its graphs are those of its functions, one for each, in the order of `Program.functions`.
-/

namespace ScriptSsa

open Build

/-- The graph comes from lowering the function at its place in the script. -/
structure Graph.Lowers (p : Program) (rule : List Scope → Access → String → Except Fault Resolution) (fn : Function)
    (g : Graph) : Prop where
  run : ∃ params outer s t, fn.params = params.map Expr.ident ∧ Nest p (⟨fn.name, params, fn.body⟩ :: outer) ∧
    inNewGraph fn.name (lowerBody (Names.inside rule (⟨fn.name, params, fn.body⟩ :: outer))
      ⟨fn.name, params, fn.body⟩) s = .ok g t
  merges : g.phis.size = mergesOf fn.body

variable {p : Program} {rule : List Scope → Access → String → Except Fault Resolution}

/-- The account of what is lowered inside loops with the given labels. -/
def Summary.account (σ : Summary) (labels : List (List String)) : Account :=
  ⟨σ.supported labels, σ.merges, σ.functions⟩

/-- A body is supported if what it declares and its code are. -/
theorem meets_body {f : Frame} {names : Names}
    (hdeclared : Meets (Graph.Lowers p rule) [] (lowerDeclared names f.body)
      ((declaredSummaryOf names f.body).account []))
    (hstmts : Meets (Graph.Lowers p rule) [] (lowerStmts names f.body) ((summaryOf names f.body).account [])) :
    Meets (Graph.Lowers p rule) [] (lowerBody names f)
      ⟨areSupported [] f.body, mergesOf f.body, declaredFunctionsOf f.body ++ functionsOf f.body⟩ := by
  refine .of_eq (.before (isIdle_prologue _ _) fun _ => hdeclared.bind fun _ => hstmts) ?_
  exact Account.ext (areSupported_split [] f.body).symm (Nat.zero_add _) rfl

/-- Its graph comes after those of the functions inside it. -/
theorem meets_function {names : Names} {fn : Function} {params : List String} {labels : List (List String)}
    (hnames : Frame.Encloses p rule ⟨fn.name, params, fn.body⟩ (names.enter (Frame.mk fn.name params fn.body).scope))
    (hgenerator : fn.isGenerator = false) (hasync : fn.isAsync = false) (hparams : fn.params = params.map Expr.ident)
    (hbody : Meets (Graph.Lowers p rule) []
      (lowerBody (names.enter (Frame.mk fn.name params fn.body).scope) ⟨fn.name, params, fn.body⟩)
      ⟨areSupported [] fn.body, mergesOf fn.body, declaredFunctionsOf fn.body ++ functionsOf fn.body⟩) :
    Meets (Graph.Lowers p rule) labels (lowerFunction names fn) ((fn.summary names).account labels) := by
  obtain ⟨outer, hnest, hinside⟩ := hnames
  rw [lowerFunction_eq_nested _ hgenerator hasync hparams]
  have hnested := @meets_nested _ labels _ fn.name _ fn hbody fun hrun =>
    ⟨⟨params, outer, _, _, hparams, hnest, hinside ▸ hrun⟩, size_phis_of_inNewGraph hbody hrun⟩
  refine hnested.of_eq ?_
  obtain ⟨name, _, body, isGenerator, isAsync⟩ := fn
  subst hgenerator hasync hparams
  refine Account.ext ?_ rfl rfl
  simp [Summary.account, Function.summary, Function.isSupported, Expr.ident?]

/-- Whatever is known, code meets the account of its summary. -/
abbrev acceptance (p : Program) (rule : List Scope → Access → String → Except Fault Resolution) : Judgement where
  code f names _ _ m _ _ σ :=
    f.Encloses p rule names → ∀ labels, Meets (Graph.Lowers p rule) labels m (σ.account labels)
  inner f names m σ := f.Encloses p rule names → ∀ labels, Meets (Graph.Lowers p rule) labels m (σ.account labels)
  flow f names m σ := f.Encloses p rule names → ∀ labels, Meets (Graph.Lowers p rule) labels m (σ.account labels)

theorem acceptance_isClosed : (acceptance p rule).IsClosed where
  pure _ _ _ := .pure _
  refuse hσ _ labels := .refuse (hσ labels)
  bind hm hk hnames labels := (hm hnames labels).bind fun a => hk a hnames labels
  weaken hm _ := hm
  perm hm _ := hm
  constant hk hnames labels := .before (m := freshInstr) isIdle_freshInstr fun _ => hk hnames labels
  count hk hnames labels := .before (m := freshInstr) isIdle_freshInstr fun _ => hk hnames labels
  emit _ _ _ _ _ _ _ _ := (isIdle_emit _ _).meets
  perform _ _ _ _ _ _ _ _ := (isIdle_perform _ _).meets
  read _ _ _ := (isIdle_readName _ _).meets
  write _ hm hnames labels := (hm hnames labels).behind fun _ => isIdle_writeName _ _ _
  writeResult _ _ _ _ _ _ _ _ _ := ((isIdle_emit _ _).bind fun _ => isIdle_writeName _ _ _).meets
  merge _ hfirst hsecond hnames labels := meets_merge _ _ (hfirst hnames labels) (hsecond hnames labels)
  plainCall _ hfunction hvalues hnames labels :=
    (hfunction hnames labels).bind fun _ => (hvalues hnames labels).behind fun _ => isIdle_call _ (isIdle_emit _ _) _
  methodCall hkey hobject hvalues hnames labels := by
    rw [lowerExpr]
    refine .of_eq ((hkey hnames labels).bind fun _ => (hobject hnames labels).bind fun _ =>
      .before (isIdle_emit _ _) fun _ => (hvalues hnames labels).behind fun _ => isIdle_call _ (.pure _) _) ?_
    exact Account.ext (Bool.and_assoc _ _ _).symm (Nat.add_assoc _ _ _).symm (List.append_assoc _ _ _).symm
  construct hfunction hvalues hnames labels := by
    rw [lowerExpr]
    exact (hfunction hnames labels).bind fun _ => (hvalues hnames labels).behind fun _ => isIdle_new _ _
  function hitem hgenerator hasync hparams hdeclared hstmts hnames labels := by
    have hinner := hnames.nested hitem hparams
    exact meets_function hinner hgenerator hasync hparams (meets_body (hdeclared hinner []) (hstmts hinner []))
  skip _ _ := .pure _
  seq hm hm' hnames labels := (hm hnames labels).bind fun _ => hm' hnames labels
  ensureOpen hm hnames labels := .before isIdle_ensureOpen fun _ => hm hnames labels
  ofCode hm := hm
  ofFlow hm := hm
  after hm hm' hnames labels := (hm hnames labels).bind fun _ => hm' hnames labels
  branch htest hconsequent halternate hnames labels :=
    meets_branch (htest hnames labels) (hconsequent hnames labels) (halternate hnames labels)
  loop htest hupdate hbody hnames labels :=
    meets_loop (htest hnames labels) (hbody hnames (_ :: labels)) (hupdate hnames labels)
  jump kind label _ _ := meets_jump kind label
  ret hresult hnames labels := (hresult hnames labels).behind fun _ => isIdle_perform _ _

theorem lowerBody_meets {f : Frame} {names : Names} (hnames : f.Encloses p rule names) :
    Meets (Graph.Lowers p rule) [] (lowerBody names f)
      ⟨areSupported [] f.body, mergesOf f.body, declaredFunctionsOf f.body ++ functionsOf f.body⟩ := by
  obtain ⟨_, hdeclared⟩ := @lowerDeclared_judged _ (@acceptance_isClosed p rule) f names f.body (List.Subset.refl _)
    (List.Subset.refl _)
  exact meets_body (hdeclared hnames [])
    (lowerStmts_judged acceptance_isClosed f.body (List.Subset.refl _) (List.Subset.refl _) hnames [])

/-- What a construction comes to. -/
theorem constructUsing_settles (p : Program) (rule : List Scope → Access → String → Except Fault Resolution)
    (supply : Supply) :
    supply ≤ (constructUsing ⟨[], rule⟩ p supply).2 ∧
    (∀ graphs, (constructUsing ⟨[], rule⟩ p supply).1 = .ok graphs →
      p.isSupported = true ∧ List.Forall₂ (Graph.Lowers p rule) p.functions graphs) ∧
    ∀ e, (constructUsing ⟨[], rule⟩ p supply).1 = .error e → e.isRefusal = true → p.isSupported = false := by
  have hnest : Nest p [⟨none, [], p.body⟩] := .top
  have hbody := @lowerBody_meets p rule ⟨none, [], p.body⟩ _ ⟨[], hnest, rfl⟩
  have hsettles := @settles_inNewGraph _ _ none _ hbody (Builder.start supply)
  have hlower : lowerProgram ⟨[], rule⟩ p (Builder.start supply) =
      inNewGraph none (lowerBody (Names.inside rule [⟨none, [], p.body⟩]) ⟨none, [], p.body⟩)
        (Builder.start supply) := rfl
  rw [constructUsing, hlower]
  cases hrun : inNewGraph none (lowerBody (Names.inside rule [⟨none, [], p.body⟩]) ⟨none, [], p.body⟩)
      (Builder.start supply) with
  | error e t =>
      obtain ⟨hsupply, hrefusal⟩ := hsettles.error hrun
      refine ⟨hsupply, fun graphs h => ?_, fun e' h => ?_⟩
      · cases h
      · obtain rfl : e = e' := Except.error.inj h
        exact hrefusal
  | ok g t =>
      obtain ⟨hsupported, _, hsettled⟩ := hsettles.ok hrun
      refine ⟨hsettled.supply, fun graphs h => ⟨hsupported, ?_⟩, fun e h => ?_⟩
      · obtain ⟨finished, hfinished, hrelated⟩ := hsettled.graphs
        obtain rfl : g :: t.finished.graphs = graphs := Except.ok.inj h
        rw [hfinished]
        exact .cons ⟨⟨[], [], _, _, rfl, hnest, hrun⟩, size_phis_of_inNewGraph hbody hrun⟩ hrelated
      · cases h

theorem isRefusal_of_constructWith {p : Program} {supply : Supply} {e : BuildError}
    (h : (constructWith p supply).1 = .error e) : e.isRefusal = true := by
  cases refusal_of_constructUsing h with
  | unsupported what => rfl
  | unresolvedJump kind label => rfl
  | lookup hnest hlooks hrule =>
      obtain ⟨r, hr, _⟩ := resolve_means hnest hlooks
      rw [hr] at hrule
      cases hrule

/-- A script is lowered exactly if it is supported, and otherwise refused. -/
theorem constructs_iff_supported (p : Program) (supply : Supply) :
    ((∃ graphs, (constructWith p supply).1 = .ok graphs) ↔ p.isSupported = true) ∧
    ∀ e, (constructWith p supply).1 = .error e →
      (∃ what, e = .unsupported what) ∨ ∃ kind label, e = .unresolvedJump kind label := by
  obtain ⟨_, hok, herror⟩ := constructUsing_settles p Scope.resolve supply
  refine ⟨⟨fun ⟨graphs, h⟩ => (hok graphs h).1, fun hsupported => ?_⟩, fun e h => ?_⟩
  · cases h : (constructWith p supply).1 with
    | ok graphs => exact ⟨graphs, rfl⟩
    | error e =>
        have hrefused := herror e h (isRefusal_of_constructWith h)
        rw [hsupported] at hrefused
        cases hrefused
  · have hrefusal := isRefusal_of_constructWith h
    cases e with
    | unsupported what => exact .inl ⟨what, rfl⟩
    | unresolvedJump kind label => exact .inr ⟨kind, label, rfl⟩
    | unresolvedPhi phi => cases hrefusal
    | fault fault => cases hrefusal

/-- `a: while (x) { return; b: do { f(function () { for (;;) break; }); continue a; } while (y); }` -/
def labeledScript : Program :=
  ⟨[.labeled "a" (.whileLoop (.ident "x") (.block [.ret none,
    .labeled "b" (.doWhile (.block [.expr (.call (.ident "f") [.function (.plain none []
      [.forLoop none none none (.jump .exit none)])]), .jump .next (some "a")]) (.ident "y"))]))]⟩

/-- `a: while (x) { return; function g() { break a; } }` -/
def strayScript : Program :=
  ⟨[.labeled "a" (.whileLoop (.ident "x") (.block [.ret none,
    .function (.plain (some "g") [] [.jump .exit (some "a")])]))]⟩

/-- A jump finds its loop past another one, but not past the function it stands in, not even where control
cannot get to. -/
theorem constructs_iff_supported_labels :
    (labeledScript.isSupported = true ∧ ∃ graphs, (constructWith labeledScript .fresh).1 = .ok graphs) ∧
    strayScript.isSupported = false ∧
    (constructWith strayScript .fresh).1 = .error (.unresolvedJump .exit (some "a")) ∧
    ((∃ what, BuildError.unresolvedJump .exit (some "a") = .unsupported what) ∨
      ∃ kind label, BuildError.unresolvedJump .exit (some "a") = .unresolvedJump kind label) :=
  ⟨⟨by decide +kernel, (constructs_iff_supported labeledScript .fresh).1.mpr (by decide +kernel)⟩, by decide +kernel,
    by decide +kernel, (constructs_iff_supported strayScript .fresh).2 _ (by decide +kernel)⟩

/-- Of every function there is one graph, which has one phi for each merge of the function's body; and table,
instructions and edges agree about them. No construction ends with a phi that nothing flows into. -/
theorem phis_agree_with_merges (p : Program) (supply : Supply) :
    (∀ phi, (constructWith p supply).1 ≠ .error (.unresolvedPhi phi)) ∧
    ∀ graphs, (constructWith p supply).1 = .ok graphs →
      List.Forall₂ (fun fn g => g.Lowers p Scope.resolve fn ∧ g.phis.size = mergesOf fn.body ∧ g.PhisAgree)
        p.functions graphs := by
  refine ⟨fun phi h => (nomatch isRefusal_of_constructWith h), fun graphs h => ?_⟩
  obtain ⟨_, hlowers⟩ := (constructUsing_settles p Scope.resolve supply).2.1 graphs h
  have hbuilt := built_of_constructUsing h
  refine List.forall₂_iff_get.mpr ⟨hlowers.length_eq, fun k hfn hg => ?_⟩
  have hlower := hlowers.get hfn hg
  exact ⟨hlower, hlower.merges, (hbuilt _ (List.get_mem graphs ⟨k, hg⟩)).phisAgree⟩

/-- `x || (y ? function () { return a && (b || c); } : z);` -/
def choiceScript : Program :=
  ⟨[.expr (.logical .or (.ident "x") (.conditional (.ident "y")
    (.function (.plain none [] [.ret (some (.logical .and (.ident "a") (.logical .or (.ident "b") (.ident "c"))))]))
    (.ident "z")))]⟩

def choiceGraphs : List Graph := (constructWith choiceScript .fresh).1.toOption.getD []

theorem phis_agree_with_merges_choice :
    (constructWith choiceScript .fresh).1 = .ok choiceGraphs ∧
    choiceGraphs.map (fun g => g.phis.size) = [2, 2] ∧
    choiceScript.functions.map (fun fn => mergesOf fn.body) = [2, 2] ∧
    List.Forall₂ (fun fn g => g.Lowers choiceScript Scope.resolve fn ∧ g.phis.size = mergesOf fn.body ∧ g.PhisAgree)
      choiceScript.functions choiceGraphs :=
  ⟨by decide +kernel, by decide +kernel, by decide +kernel,
    (phis_agree_with_merges choiceScript .fresh).2 choiceGraphs (by decide +kernel)⟩

end ScriptSsa
