import ScriptSsa.Construction
import ScriptSsa.Proofs.LexicalScope
import ScriptSsa.Proofs.Simulation

/-!
Control flow keeps its meaning.

The graph of a script without functions does what the script does. It ends if and only if the script ends, and then
with the same returned value, the same locals and the same globals; and it never gets stuck. That a script
goes on for ever is seen as a run that lasts for as many steps as there is fuel, for any fuel.
-/

namespace ScriptSsa

open Build

variable {V : Type*}

/-! Statements. -/

section Statements

variable {W : Setup V} {names : Names}

theorem openFlows_whileLoop (hnames : W.Finds names) {test : Expr} {body : Stmt} (htest : test.isPure = true)
    (hbody : Flows W (lowerStmt names body) fun fuel => body.exec W.interp fuel []) (labels : List String) :
    OpenFlows W (loop labels true (lowerExpr names test) (pure ()) (lowerStmt names body))
      fun fuel => (Stmt.whileLoop test body).exec W.interp fuel labels := by
  simp only [Stmt.exec]
  have htarget : ∀ name ∈ (none : Option String), name ∈ W.declared := by simp
  exact openFlows_loop (computes_value (lowerExpr_computes hnames test htest [] none htarget)) .skip hbody

/-- The test of a `do` loop is put down and never run. -/
theorem openFlows_doWhile (hnames : W.Finds names) {test : Expr} {body : Stmt} (htest : test.isPure = true)
    (hbody : Flows W (lowerStmt names body) fun fuel => body.exec W.interp fuel []) (labels : List String) :
    OpenFlows W (loop labels false (lowerExpr names test) (pure ()) (lowerStmt names body))
      fun fuel => (Stmt.doWhile body test).exec W.interp fuel labels := by
  simp only [Stmt.exec]
  have htarget : ∀ name ∈ (none : Option String), name ∈ W.declared := by simp
  exact openFlows_loop (computes_value (lowerExpr_computes hnames test htest [] none htarget)) .skip hbody

theorem openFlows_forLoop (hnames : W.Finds names) {init : Option ForInit} {test update : Option Expr} {body : Stmt}
    (hinit : ForInit.isCore init = true) (htest : test.all Expr.isPure = true)
    (hupdate : update.all Expr.isAction = true)
    (hbody : Flows W (lowerStmt names body) fun fuel => body.exec W.interp fuel []) (labels : List String) :
    OpenFlows W (do
        lowerInit names init
        loop labels true (lowerTest names test) (lowerUpdate names update) (lowerStmt names body))
      fun fuel => (Stmt.forLoop init test update body).exec W.interp fuel labels := by
  simp only [Stmt.exec]
  exact .after (lowerInit_runs hnames init hinit)
    (openFlows_loop (lowerTest_computes hnames test htest) (lowerUpdate_runs hnames update hupdate) hbody)

mutual

theorem lowerStmt_flows (hnames : W.Finds names) : (s : Stmt) → s.isCore = true →
    Flows W (lowerStmt names s) fun fuel => s.exec W.interp fuel []
  | .var d, h => by
    simp only [lowerStmt, Stmt.exec]
    exact (lowerVarDecl_runs hnames d h).openFlows.ensureOpen
  | .expr e, h => by
    simp only [lowerStmt, Stmt.exec]
    exact ((lowerExpr_acts hnames h).seq fun _ => .skip).openFlows.ensureOpen
  | .block body, h => by
    simp only [lowerStmt, Stmt.exec]
    exact (lowerStmts_flows hnames body h).openFlows.ensureOpen
  | .branch test consequent alternate, h => by
    rw [Stmt.isCore, Bool.and_eq_true, Bool.and_eq_true] at h
    have htest := lowerExpr_computes hnames test h.1.1 [] none nofun
    simp only [lowerStmt, Stmt.exec]
    exact (openFlows_branch (computes_value htest) (lowerStmt_flows hnames consequent h.1.2)
      (lowerAlternate_flows hnames alternate h.2)).ensureOpen
  | .whileLoop test body, h => by
    rw [Stmt.isCore, Bool.and_eq_true] at h
    rw [lowerStmt]
    exact (openFlows_whileLoop hnames h.1 (lowerStmt_flows hnames body h.2) []).ensureOpen
  | .doWhile body test, h => by
    rw [Stmt.isCore, Bool.and_eq_true] at h
    rw [lowerStmt]
    exact (openFlows_doWhile hnames h.1 (lowerStmt_flows hnames body h.2) []).ensureOpen
  | .forLoop init test update body, h => by
    rw [Stmt.isCore, Bool.and_eq_true, Bool.and_eq_true, Bool.and_eq_true] at h
    rw [lowerStmt]
    exact (openFlows_forLoop hnames h.1.1.1 h.1.1.2 h.1.2 (lowerStmt_flows hnames body h.2) []).ensureOpen
  | .jump kind label, _ => by
    simp only [lowerStmt, Stmt.exec]
    exact openFlows_jump.ensureOpen
  | .ret argument, h => by
    simp only [lowerStmt, Stmt.exec]
    exact (openFlows_ret (lowerResult_computes hnames argument h)).ensureOpen
  | .labeled label body, h => by
    simp only [lowerStmt, Stmt.exec]
    exact (lowerLabeled_openFlows hnames body h [label]).ensureOpen
  | .empty, _ => by
    simp only [lowerStmt, Stmt.exec]
    exact .skip

theorem lowerStmts_flows (hnames : W.Finds names) : (ss : List Stmt) → allCore ss = true →
    Flows W (lowerStmts names ss) fun fuel => execAll W.interp fuel ss
  | [], _ => by
    simp only [lowerStmts, execAll]
    exact .skip
  | s :: ss, h => by
    rw [allCore, Bool.and_eq_true] at h
    simp only [lowerStmts, execAll]
    exact (lowerStmt_flows hnames s h.1).seq (lowerStmts_flows hnames ss h.2)

theorem lowerAlternate_flows (hnames : W.Finds names) : (s : Option Stmt) → alternateIsCore s = true →
    Flows W (lowerAlternate names s) fun fuel => execAlternate W.interp fuel s
  | none, _ => by
    simp only [lowerAlternate, execAlternate]
    exact .skip
  | some s, h => by
    simp only [lowerAlternate, execAlternate]
    exact lowerStmt_flows hnames s h

theorem lowerLabeled_openFlows (hnames : W.Finds names) : (s : Stmt) → s.isCore = true → ∀ labels,
    OpenFlows W (lowerLabeled names labels s) fun fuel => s.exec W.interp fuel labels
  | .labeled label body, h, labels => by
    simp only [lowerLabeled, Stmt.exec]
    exact lowerLabeled_openFlows hnames body h _
  | .whileLoop test body, h, labels => by
    rw [Stmt.isCore, Bool.and_eq_true] at h
    rw [lowerLabeled]
    exact openFlows_whileLoop hnames h.1 (lowerStmt_flows hnames body h.2) labels
  | .doWhile body test, h, labels => by
    rw [Stmt.isCore, Bool.and_eq_true] at h
    rw [lowerLabeled]
    exact openFlows_doWhile hnames h.1 (lowerStmt_flows hnames body h.2) labels
  | .forLoop init test update body, h, labels => by
    rw [Stmt.isCore, Bool.and_eq_true, Bool.and_eq_true, Bool.and_eq_true] at h
    rw [lowerLabeled]
    exact openFlows_forLoop hnames h.1.1.1 h.1.1.2 h.1.2 (lowerStmt_flows hnames body h.2) labels
  | .var _, _, _ | .expr _, _, _ | .block _, _, _ | .branch _ _ _, _, _ | .empty, _, _ | .jump _ _, _, _
  | .ret _, _, _ => by
    simp only [lowerLabeled]
    exact .fail

end

end Statements

/-! Scripts without functions. -/

mutual

theorem Expr.uses_of_isPure : (e : Expr) → e.isPure = true → e.uses [] = []
  | .ident _, _ | .literal _, _ | .this, _ => by simp [Expr.uses, Use.escaping]
  | .unary _ e, h => by
    rw [Expr.isPure, Bool.and_eq_true] at h
    rw [Expr.uses, e.uses_of_isPure h.2]
  | .binary _ l r, h => by
    rw [Expr.isPure, Bool.and_eq_true] at h
    rw [Expr.uses, l.uses_of_isPure h.1, r.uses_of_isPure h.2, List.append_nil]
  | .logical _ l r, h => by
    rw [Expr.isPure, Bool.and_eq_true] at h
    rw [Expr.uses, l.uses_of_isPure h.1, r.uses_of_isPure h.2, List.append_nil]
  | .conditional t c a, h => by
    rw [Expr.isPure, Bool.and_eq_true, Bool.and_eq_true] at h
    rw [Expr.uses, t.uses_of_isPure h.1.1, c.uses_of_isPure h.1.2, a.uses_of_isPure h.2, List.append_nil,
      List.append_nil]
  | .sequence es, h => by
    rw [Expr.isPure] at h
    rw [Expr.uses, usesOfExprs_of_allPure es h]

theorem usesOfExprs_of_allPure : (es : List Expr) → allPure es = true → usesOfExprs [] es = []
  | [], _ => by rw [usesOfExprs]
  | e :: es, h => by
    rw [allPure, Bool.and_eq_true] at h
    rw [usesOfExprs, e.uses_of_isPure h.1, usesOfExprs_of_allPure es h.2, List.append_nil]

end

theorem Expr.uses_of_isAction {e : Expr} (h : e.isAction = true) : e.uses [] = [] := by
  unfold Expr.isAction at h
  split at h
  · next right => simp [Expr.uses, Use.escaping, right.uses_of_isPure h]
  · exact e.uses_of_isPure h

theorem usesOfOptional_of_isAction {e : Option Expr} (h : e.all Expr.isAction = true) :
    usesOfOptional [] e = [] := by
  cases e with
  | none => rw [usesOfOptional]
  | some e => rw [usesOfOptional, e.uses_of_isAction h]

theorem usesOfOptional_of_isPure {e : Option Expr} (h : e.all Expr.isPure = true) : usesOfOptional [] e = [] := by
  cases e with
  | none => rw [usesOfOptional]
  | some e => rw [usesOfOptional, e.uses_of_isPure h]

theorem VarDecl.uses_of_isCore {d : VarDecl} (h : d.isCore = true) : d.uses [] = [] := by
  obtain ⟨kind, ds⟩ := d
  rw [VarDecl.uses]
  induction ds with
  | nil => rw [usesOfDeclarators]
  | cons d ds ih =>
      obtain ⟨target, init⟩ := d
      obtain ⟨hd, hds⟩ := Bool.and_eq_true_iff.mp h
      obtain ⟨htarget, hinit⟩ := Bool.and_eq_true_iff.mp hd
      rw [usesOfDeclarators, target.uses_of_isPure htarget, usesOfOptional_of_isPure hinit, ih hds,
        List.append_nil, List.append_nil]

theorem usesOfInit_of_isCore {init : Option ForInit} (h : ForInit.isCore init = true) : usesOfInit [] init = [] := by
  match init with
  | none => rw [usesOfInit]
  | some (.var d) => rw [usesOfInit, d.uses_of_isCore h]
  | some (.expr e) => rw [usesOfInit, e.uses_of_isAction h]

/-- Statements without functions: nothing is captured, no function is declared, and none is lowered on entry. -/
structure Functionless (uses : List Use) (declarations : List Declaration) (hoisted : Names → Build Unit) :
    Prop where
  uses : uses = []
  declarations : declarations.filterMap Declaration.function? = []
  hoisted : ∀ names, hoisted names = pure ()

theorem Functionless.append {uses uses' : List Use} {declarations declarations' : List Declaration}
    {hoisted hoisted' : Names → Build Unit} (h : Functionless uses declarations hoisted)
    (h' : Functionless uses' declarations' hoisted') :
    Functionless (uses ++ uses') (declarations ++ declarations') fun names => do hoisted names; hoisted' names where
  uses := by rw [h.uses, h'.uses, List.append_nil]
  declarations := by rw [List.filterMap_append, h.declarations, h'.declarations, List.append_nil]
  hoisted names := by rw [h.hoisted, pure_bind, h'.hoisted]

theorem filterMap_function?_var (names : List String) :
    (names.map Declaration.var).filterMap Declaration.function? = [] := by
  simp [List.filterMap_eq_nil_iff, Declaration.function?]

mutual

theorem Stmt.functionless : (s : Stmt) → s.isCore = true →
    Functionless (s.uses []) s.declarations fun names => lowerDeclaredIn names s
  | .var d, h => by
    simp only [Stmt.uses, Stmt.declarations, lowerDeclaredIn]
    exact ⟨d.uses_of_isCore h, filterMap_function?_var _, fun _ => rfl⟩
  | .expr e, h => by
    simp only [Stmt.uses, Stmt.declarations, lowerDeclaredIn]
    exact ⟨e.uses_of_isAction h, rfl, fun _ => rfl⟩
  | .block body, h => by
    simp only [Stmt.uses, Stmt.declarations, lowerDeclaredIn]
    exact functionless_of_allCore body h
  | .branch test consequent alternate, h => by
    rw [Stmt.isCore, Bool.and_eq_true, Bool.and_eq_true] at h
    simp only [Stmt.uses, Stmt.declarations, lowerDeclaredIn, test.uses_of_isPure h.1.1, List.nil_append]
    exact (consequent.functionless h.1.2).append (functionless_of_alternateIsCore alternate h.2)
  | .whileLoop test body, h => by
    rw [Stmt.isCore, Bool.and_eq_true] at h
    simp only [Stmt.uses, Stmt.declarations, lowerDeclaredIn, test.uses_of_isPure h.1, List.nil_append]
    exact body.functionless h.2
  | .doWhile body test, h => by
    rw [Stmt.isCore, Bool.and_eq_true] at h
    simp only [Stmt.uses, Stmt.declarations, lowerDeclaredIn, test.uses_of_isPure h.1, List.append_nil]
    exact body.functionless h.2
  | .forLoop init test update body, h => by
    rw [Stmt.isCore, Bool.and_eq_true, Bool.and_eq_true, Bool.and_eq_true] at h
    obtain ⟨⟨⟨hinit, htest⟩, hupdate⟩, hbody⟩ := h
    have hbody := body.functionless hbody
    simp only [Stmt.uses, Stmt.declarations, lowerDeclaredIn, usesOfInit_of_isCore hinit,
      usesOfOptional_of_isPure htest, usesOfOptional_of_isAction hupdate, List.nil_append]
    refine ⟨hbody.uses, ?_, hbody.hoisted⟩
    rw [List.filterMap_append, hbody.declarations, List.append_nil]
    match init with
    | none | some (.expr _) => rfl
    | some (.var d) => exact filterMap_function?_var _
  | .ret argument, h => by
    simp only [Stmt.uses, Stmt.declarations, lowerDeclaredIn]
    exact ⟨usesOfOptional_of_isPure h, rfl, fun _ => rfl⟩
  | .labeled _ body, h => by
    simp only [Stmt.uses, Stmt.declarations, lowerDeclaredIn]
    exact body.functionless h
  | .empty, _ | .jump _ _, _ => by
    simp only [Stmt.uses, Stmt.declarations, lowerDeclaredIn]
    exact ⟨rfl, rfl, fun _ => rfl⟩

theorem functionless_of_alternateIsCore : (s : Option Stmt) → alternateIsCore s = true →
    Functionless (usesOfAlternate [] s) (declarationsOfAlternate s) fun names => lowerDeclaredInAlternate names s
  | none, _ => by
    simp only [usesOfAlternate, declarationsOfAlternate, lowerDeclaredInAlternate]
    exact ⟨rfl, rfl, fun _ => rfl⟩
  | some s, h => by
    simp only [usesOfAlternate, declarationsOfAlternate, lowerDeclaredInAlternate]
    exact s.functionless h

theorem functionless_of_allCore : (ss : List Stmt) → allCore ss = true →
    Functionless (usesOf [] ss) (declarationsOf ss) fun names => lowerDeclared names ss
  | [], _ => by
    simp only [usesOf, declarationsOf, lowerDeclared]
    exact ⟨rfl, rfl, fun _ => rfl⟩
  | s :: ss, h => by
    rw [allCore, Bool.and_eq_true] at h
    simp only [usesOf, declarationsOf, lowerDeclared]
    exact (s.functionless h.1).append (functionless_of_allCore ss h.2)

end

namespace Program

variable {p : Program}

/-- The names of the script are its locals, all others are globals. -/
theorem finds_of_isCore (I : Interp V) (globals : String → V) (h : p.isCore = true) :
    Setup.Finds ⟨I, hoistedVars p.body, globals⟩ (Names.outermost.enter (Scope.ofBody none [] p.body)) := by
  intro access name
  have hfree := functionless_of_allCore p.body h
  let f : Frame := ⟨none, [], p.body⟩
  have hdeclared : name ∈ f.declared ↔ name ∈ hoistedVars p.body := by
    rw [Frame.declared, hoistedFunctions, hfree.declarations]
    simp [f]
  change Scope.resolveFrom access name 0 [f.scope] = _
  rw [Scope.resolveFrom]
  by_cases hname : name ∈ hoistedVars p.body
  · have hcaptures : f.captures name = false := by
      rw [Frame.captures, escapingUses, hfree.uses]
      rfl
    rw [f.storage?_of_not_captured (hdeclared.mpr hname) hcaptures, if_pos hname]
    rfl
  · have hname' := mt hdeclared.mp hname
    have hown : ¬(access = .read ∧ f.scope.isOwn name = true) := by
      rintro ⟨_, hown⟩
      cases (f.isOwn_iff hname').mp hown
    rw [f.storage?_of_not_declared hname', if_neg hname]
    simp only [if_neg hown]
    rfl

end Program

/-- Each variable is set to `undefined`. -/
theorem reaches_clearVars {I : Interp V} {vars : List String} {s t : Builder} (hs : Stage.code.Ready s)
    (h : clearVars vars s = .ok () t) :
    Extends s.block? t.block? ∧ t.finished = s.finished ∧
      ∀ {code}, Extends t.block? code → ∀ m : Memory V, ∃ m', Reaches I code (s.here m) (t.here m') ∧
        m'.globals = m.globals ∧
        m'.locals = fun name => if name ∈ vars then some (I.constant .undefined) else m.locals name := by
  induction vars generalizing s with
  | nil =>
      cases h
      exact ⟨.refl _, rfl, fun _ m => ⟨m, .refl _, rfl, by simp⟩⟩
  | cons name rest ih =>
      obtain ⟨⟨b, hat, hb⟩, pending, hsound⟩ := id hs
      have hlit : literal .undefined s = .ok _ (s.draw.emit none .literal [.constant .undefined]) :=
        emit_eq (s := s.draw) hat
      have hname : (s.draw.emit none .literal [.constant .undefined]).bindLocal name
          (.instr s.draw.supply.nextInstr) = s.draw.emit (some name) .literal [.constant .undefined] :=
        Builder.bindLocal_emit (s := s.draw) hsound.nodup hat rfl nofun
      rw [clearVars, bind_ok hlit, bind_ok (bindLocal_eq (Builder.At_emit (s := s.draw) hat)), hname] at h
      have hemit := @Builder.extends_emit s.draw (some name) .literal [.constant .undefined] ⟨b, hat, hb.succs⟩
      have hdraw : Trace .code ∅ s ∅ s.draw := .draw
      have hconstant : Values [.constant .undefined] ∅ := .cons trivial .nil
      have htrace : Trace .code ∅ s _ (s.draw.emit (some name) .literal [.constant .undefined]) :=
        hdraw.trans (Trace.emit (hdraw.ready hs) rfl fun o ho => .inl (hconstant o ho))
      obtain ⟨hgrows, hqueue, hreaches⟩ := ih (htrace.ready hs) h
      refine ⟨hemit.trans hgrows, hqueue, fun hcode m => ?_⟩
      obtain ⟨m', hreach, hglobals, hlocals⟩ := hreaches hcode
        (m.keep ⟨s.draw.supply.nextInstr, .literal, [.constant .undefined], some name⟩ (I.constant .undefined))
      refine ⟨m', .trans ?_ hreach, hglobals, hlocals.trans ?_⟩
      · exact Builder.reaches_emit (s := s.draw) hat nofun nofun (hgrows.trans hcode)
          (Memory.perform_of_yields rfl rfl)
      · funext other
        by_cases hother : other = name
        · subst hother
          simp [Memory.keep]
        · simp [Memory.keep, hother]

/-- A script gives its variables their first values, and nothing else. -/
theorem prologue_ofBody (names : Names) (body : List Stmt) :
    prologue names (Scope.ofBody none [] body) = clearVars (hoistedVars body) := by
  have hvars : (Scope.ofBody none [] body).vars = hoistedVars body := List.filter_true _
  rw [prologue, hvars]
  rfl

theorem lowerProgram_eq {p : Program} (h : p.isCore = true) :
    lowerProgram .outermost p = inNewGraph none (do
      clearVars (hoistedVars p.body)
      lowerStmts (Names.outermost.enter (Scope.ofBody none [] p.body)) p.body) := by
  change inNewGraph none (do
    prologue _ (Scope.ofBody none [] p.body)
    lowerDeclared _ p.body
    lowerStmts _ p.body) = _
  rw [prologue_ofBody, (functionless_of_allCore p.body h).hoisted, pure_bind]
  rfl

/-- The run from `c` ends with the outcome, or lasts for `n` steps if there is none yet. -/
def EndsWith (I : Interp V) (code : BlockId → Option Block) (n : Nat) (c : Config V) : Option (Outcome V) → Prop
  | none => Lasts I code n c
  | some outcome => ∃ result m, Halts I code c result m ∧ outcome = ⟨result, m.locals, m.globals⟩

/-- What ends with the outcomes of `p` never gets stuck, and has no other outcomes. -/
theorem EndsWith.outcomes {I : Interp V} {code : BlockId → Option Block} {c : Config V}
    {p : Nat → Option (Outcome V)} (h : ∀ n, EndsWith I code n c (p n)) :
    (∀ n, run I code n c ≠ .stuck) ∧
      ∀ outcome, (∃ n, p n = some outcome) ↔ ∃ n, (run I code n c).outcome? = some outcome := by
  have hrun (n : Nat) : (∃ c', run I code n c = .go c') ∨
      ∃ result m, run I code n c = .halt result m ∧ p n = some ⟨result, m.locals, m.globals⟩ := by
    have hend := h n
    match p n, hend with
    | none, hlasts => exact .inl hlasts
    | some _, ⟨result, m, hhalts, rfl⟩ =>
        exact (hhalts.run_eq n).imp_right fun hn => ⟨result, m, hn, rfl⟩
  refine ⟨fun n hstuck => ?_, fun outcome => ⟨fun ⟨n, hn⟩ => ?_, fun ⟨n, hn⟩ => ?_⟩⟩
  · rcases hrun n with ⟨c', hgo⟩ | ⟨result, m, hhalt, _⟩
    · cases hstuck.symm.trans hgo
    · cases hstuck.symm.trans hhalt
  · have hend := h n
    rw [hn] at hend
    obtain ⟨result, m, ⟨k, hk⟩, rfl⟩ := hend
    exact ⟨k, by rw [hk]; rfl⟩
  · refine ⟨n, ?_⟩
    rcases hrun n with ⟨c', hgo⟩ | ⟨result, m, hhalt, hp⟩
    · rw [hgo] at hn
      cases hn
    · rw [hhalt] at hn
      exact hp.trans hn

theorem endsWith_of_arrives {I : Interp V} {p : Program} {globals : String → V} {t : Builder} {n : Nat} {c : Config V}
    {outcome : Option (Completion V × (String → V))} (hloops : t.loops = [])
    (h : Arrives ⟨I, hoistedVars p.body, globals⟩ t.block? t n c outcome) :
    EndsWith I t.block? n c (outcome.map (p.outcome globals)) := by
  match outcome with
  | none => exact h
  | some (.normal, store) =>
      obtain ⟨⟨b, hat, hb⟩, m, hmatch, hreach⟩ := h
      rw [Builder.here_eq hat] at hreach
      refine ⟨none, m, hreach.halts (.of_step (step_end hat (Nat.le_refl _) hb.succs)), ?_⟩
      rw [hmatch.locals, hmatch.globals]
      rfl
  | some (.jump kind label, store) =>
      obtain ⟨frame, hfind, _⟩ := h
      rw [hloops] at hfind
      cases hfind
  | some (.ret value, store) =>
      obtain ⟨m, hmatch, hhalts⟩ := h
      refine ⟨some value, m, hhalts, ?_⟩
      rw [hmatch.locals, hmatch.globals]
      rfl

theorem lowerProgram_endsWith (I : Interp V) (globals : String → V) {p : Program} {supply : Supply}
    (hcore : p.isCore = true) :
    (lowerProgram .outermost p).Yields (Builder.start supply) (fun _ => True) fun g u =>
      u.finished = .empty ∧ ∀ fuel, EndsWith I g.block? fuel (g.start globals) (p.run I globals fuel) := by
  let W : Setup V := ⟨I, hoistedVars p.body, globals⟩
  have hflows := lowerStmts_flows (p.finds_of_isCore I globals hcore) p.body hcore
  have hclear : IsCode (fun _ => True) ∅ (clearVars (hoistedVars p.body)) Any := isCode_clearVars _
  have hnested := (Builder.start supply).ready_nested
  have hat := (Builder.start supply).sound_nested.2
  rw [lowerProgram_eq hcore]
  refine inNewGraph_yields ((IsOpenFlow.after hclear hflows.isFlow.isOpenFlow _ hnested).eq_ok.mono ?_)
  rintro _ t ⟨heq, htrace⟩
  obtain ⟨table, hphis⟩ := htrace.finish_phis
  obtain ⟨_, s, hs, ht⟩ := bind_eq_ok heq
  obtain ⟨_, _, _, htrace₁⟩ := (hclear _ hnested).ok hs
  have hready := htrace₁.ready hnested
  obtain ⟨hgrows, hqueue, hreaches⟩ := reaches_clearVars (I := I) hnested hs
  have hfollows := hflows.run hready.flow ht
  have hloops : t.loops = [] := by
    have hleads := hfollows.leads (.refl _)
    rw [htrace₁.loops_eq rfl] at hleads
    exact List.forall₂_nil_left_iff.mp hleads
  refine ⟨table, hphis, hfollows.queue.trans hqueue, fun fuel => endsWith_of_arrives hloops ?_⟩
  obtain ⟨m, hreach, hglobals, hlocals⟩ :=
    hreaches hfollows.grows ⟨fun _ => none, fun _ => none, fun _ => none, globals⟩
  rw [Builder.here_of_empty hat] at hreach
  refine .of_reaches hreach (hfollows.arrives hready.1 (.refl _) fuel ⟨hlocals.trans ?_, hglobals.trans ?_⟩)
  · funext name
    by_cases hname : name ∈ hoistedVars p.body <;> simp [Program.store, hname]
  · funext name
    by_cases hname : name ∈ hoistedVars p.body <;> simp [Program.store, hname]

/-- The graph of a script without functions does what the script does. -/
theorem lowering_preserves_meaning (I : Interp V) (globals : String → V) (p : Program) (supply : Supply)
    (graphs : List Graph) (hcore : p.isCore = true) (h : (constructWith p supply).1 = .ok graphs) :
    ∃ g, graphs = [g] ∧ (∀ n, g.run I globals n ≠ .stuck) ∧
      ∀ outcome, (∃ fuel, p.run I globals fuel = some outcome) ↔
        ∃ n, (g.run I globals n).outcome? = some outcome := by
  rw [constructWith, constructUsing] at h
  cases hrun : lowerProgram .outermost p (Builder.start supply) with
  | error e u =>
      rw [hrun] at h
      cases h
  | ok g u =>
      obtain ⟨hqueue, hends⟩ := (lowerProgram_endsWith I globals hcore).ok hrun
      have hgraphs : g :: u.finished.drain.1 = graphs := by
        rw [hrun] at h
        exact Except.ok.inj h
      rw [hqueue] at hgraphs
      exact ⟨g, hgraphs.symm, EndsWith.outcomes hends⟩

/-- Every value is a length, or the truth of a comparison. -/
def lengths : Interp Nat where
  constant
    | .bool value => value.toNat
    | .string value => value.length
    | _ => 0
  this := 0
  unary
    | .not, x => if x = 0 then 1 else 0
    | _, x => x
  binary
    | .add, x, y => x + y
    | _, x, _ => x
  truthy x := x ≠ 0

/-- A labelled loop that goes round by `continue` first, then past its update, and then is left from inside another
loop:

`var n; l: for (; true; n = n + "a") { if (n) do break l; while (n); if (!y) { y = n || "abc"; continue; } }
return n + y;`
-/
def breakScript : Program :=
  ⟨[.var ⟨.var, [⟨.ident "n", none⟩]⟩,
    .labeled "l" (.forLoop none (some (.literal (.bool true)))
      (some (.assign .assign (.ident "n") (.binary .add (.ident "n") (.literal (.string "a")))))
      (.block [
        .branch (.ident "n") (.doWhile (.jump .exit (some "l")) (.ident "n")) none,
        .branch (.unary .not (.ident "y"))
          (.block [
            .expr (.assign .assign (.ident "y") (.logical .or (.ident "n") (.literal (.string "abc")))),
            .jump .next none]) none])),
    .ret (some (.binary .add (.ident "n") (.ident "y")))]⟩

def breakGraphs : List Graph := (constructWith breakScript .fresh).1.toOption.getD []

theorem lowering_preserves_meaning_break :
    breakScript.isCore = true ∧ (constructWith breakScript .fresh).1 = .ok breakGraphs ∧
    ∃ g, breakGraphs = [g] ∧ (∀ n, g.run lengths (fun _ => 0) n ≠ .stuck) ∧
      ∃ n outcome, (g.run lengths (fun _ => 0) n).outcome? = some outcome ∧ outcome.result = some 4 := by
  have hcore : breakScript.isCore = true := by decide +kernel
  have hgraphs : (constructWith breakScript .fresh).1 = .ok breakGraphs := by decide +kernel
  have hrun : (breakScript.run lengths (fun _ => 0) 3).bind Outcome.result = some 4 := by decide +kernel
  obtain ⟨outcome, hfuel, hresult⟩ := Option.bind_eq_some_iff.mp hrun
  obtain ⟨g, hg, hstuck, houtcome⟩ :=
    lowering_preserves_meaning lengths (fun _ => 0) breakScript .fresh breakGraphs hcore hgraphs
  obtain ⟨n, hn⟩ := (houtcome outcome).mp ⟨3, hfuel⟩
  exact ⟨hcore, hgraphs, g, hg, hstuck, n, outcome, hn, hresult⟩

end ScriptSsa
