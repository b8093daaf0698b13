import ScriptSsa.Proofs.LoweringRules

/-!
A closed judgement holds of all that is lowered.

By recursion on the syntax tree, every part of a function's body is lowered to code, or to flow, of which a closed
judgement holds with the summary of that part. A property of all that is lowered is a closed judgement, so this is the
one walk that it takes. What compares the code of two trees, or a tree's code with its meaning, is no judgement on code
alone and goes over the trees again.
-/

namespace ScriptSsa

open Build

variable {J : Judgement}

mutual

/-- The walk over a tree, for any judgement that is closed: each construct is put together by its own rule from the
judgements of its parts. -/
theorem lowerExpr_judged (h : J.IsClosed) {f : Frame} {names : Names} :
    (e : Expr) → e.items ⊆ itemsOf f.body →
      J.code f names [] [] (lowerExpr names e) Operand.alone (localWrites names e.items) (e.summary names)
  | .ident name, hi => by
    rw [lowerExpr]
    exact h.read (.inl (hi (by simp [Expr.items])))
  | .literal l, _ => by
    rw [lowerExpr]
    exact h.literal _
  | .this, _ => by
    rw [lowerExpr]
    exact h.emit [] rfl rfl rfl rfl (List.nil_subset _)
  | .array elements, hi => by
    rw [lowerExpr, Expr.summary_array]
    refine h.count (h.first (h.emit [] rfl rfl rfl rfl (List.nil_subset _)) fun array => ?_)
    exact h.finish (lowerElements_judged h array elements hi 0) fun _ => h.pure (by simp)
  | .object properties, hi => by
    rw [lowerExpr, Expr.summary_object]
    refine h.count (h.first (h.emit [] rfl rfl rfl rfl (List.nil_subset _)) fun object => ?_)
    exact h.finish (lowerProperties_judged h object properties hi) fun _ => h.pure (by simp)
  | .function fn, hi => by
    rw [lowerExpr]
    exact lowerFunction_judged h fn (hi (by simp [Expr.items]))
  | .unary op argument, hi => by
    rw [Expr.items] at hi ⊢
    have hargument := @lowerExpr_judged h f names argument hi
    have hmember := @memberParts_judged h f names argument
    cases op with
    | delete =>
        cases argument with
        | ident name =>
            rw [lowerExpr]
            exact h.constant (h.emit [] rfl rfl rfl rfl (List.nil_subset _))
        | member object property computed =>
            obtain ⟨hkey, hobject, _⟩ := hmember _ _ _ rfl hi
            rw [lowerExpr, Expr.summary_unary names (by simp), Expr.summary_member, Expr.items, localWrites_append]
            refine h.perm (h.next hkey fun key => ?_) List.perm_append_comm
            exact h.finish (h.weaken hobject (List.nil_subset _)) fun object =>
              h.emit [object, key] rfl rfl rfl rfl (by simp)
        | _ =>
            rw [Expr.summary_unary names (by simp)]
            simp only [lowerExpr] at hargument ⊢
            exact h.finish hargument fun _ => h.literal _
    | _ =>
        rw [Expr.summary_unary names (by simp)]
        simp only [lowerExpr]
        exact h.finish hargument fun v => h.unary _ (by simp)
  | .update op isPrefix argument, hi => by
    have hmember := @memberParts_judged h f names argument
    cases argument with
    | ident name =>
        rw [Expr.items] at hi
        rw [lowerExpr]
        exact h.updateName op isPrefix (.inl (hi (by simp))) (.inl (hi (by simp)))
    | member object property computed =>
        simp only [Expr.items] at hi
        obtain ⟨hkey, _, hchain⟩ := hmember _ _ _ rfl (by simpa only [Expr.items] using hi)
        have htarget := h.updateMember op isPrefix (h.target hkey hchain)
        rw [← Expr.summary_member] at htarget
        rw [lowerExpr, lowerTarget_member]
        refine h.perm htarget ?_
        simp only [Expr.items, localWrites_append]
        exact List.perm_append_comm
    | _ =>
        simp only [lowerExpr]
        exact h.refuse fun _ => rfl
  | .binary op left right, hi => by
    rw [Expr.items, List.append_subset] at hi
    rw [lowerExpr, Expr.items, localWrites_append, Expr.summary_binary]
    refine h.next (lowerExpr_judged h left hi.1) fun left => ?_
    exact h.finish (h.weaken (lowerExpr_judged h right hi.2) (List.nil_subset _)) fun right =>
      h.binary op (by simp) (by simp)
  | .logical op left right, hi => by
    rw [Expr.items, List.append_subset] at hi
    rw [lowerExpr, Expr.items, localWrites_append, Expr.summary_logical]
    exact h.logical (lowerExpr_judged h left hi.1) (lowerExpr_judged h right hi.2)
  | .assign op left right, hi => by
    have hmember := @memberParts_judged h f names left
    have hright := @lowerExpr_judged h f names right
    cases left with
    | ident name =>
        rw [Expr.items, List.cons_append, List.cons_subset, List.append_subset] at hi
        rw [lowerExpr, Expr.items, localWrites_append, localWrites_assign, Expr.summary_assign_ident]
        refine h.perm (h.assignName op (.inl hi.1) (fun hop => .inl ?_) (hright hi.2.2)) List.perm_append_comm
        have hread := hi.2.1
        rw [if_pos hop] at hread
        exact hread List.mem_cons_self
    | member object property computed =>
        simp only [Expr.items, List.append_subset] at hi
        obtain ⟨hkey, _, hchain⟩ := hmember _ _ _ rfl (by simpa only [Expr.items, List.append_subset] using hi.1)
        have hassign := h.assignMember op (h.target hkey hchain) (hright hi.2)
        rw [← Expr.summary_member, ← Expr.summary_assign_member names op] at hassign
        rw [lowerExpr, lowerTarget_member]
        refine h.perm hassign ?_
        simp only [Expr.items, localWrites_append]
        exact List.perm_append_comm.trans (List.perm_append_comm.append_right _)
    | _ =>
        simp only [lowerExpr]
        exact h.refuse fun _ => rfl
  | .conditional test consequent alternate, hi => by
    rw [Expr.items, List.append_subset, List.append_subset] at hi
    rw [lowerExpr, Expr.items, localWrites_append, localWrites_append, List.append_assoc, Expr.summary_conditional]
    exact h.conditional (lowerExpr_judged h test hi.1.1) (lowerExpr_judged h consequent hi.1.2)
      (lowerExpr_judged h alternate hi.2)
  | .sequence expressions, hi => by
    rw [lowerExpr]
    exact lowerSequence_judged h expressions hi
  | .member object property computed, hi => by
    rw [Expr.items, List.append_subset] at hi
    have hproperty := @lowerExpr_judged h f names property
    rw [lowerExpr, Expr.items, localWrites_append, Expr.summary_member]
    refine h.perm (h.next (h.memberKey fun hcomputed => ?_) fun key => ?_) List.perm_append_comm
    · rw [if_pos hcomputed] at hi
      exact hproperty hi.2
    · exact h.finish (h.weaken (lowerExpr_judged h object hi.1) (List.nil_subset _)) fun object =>
        h.loadProperty (by simp)
  | .call callee arguments, hi => by
    rw [Expr.items, List.append_subset] at hi
    have hcallee := @lowerExpr_judged h f names callee hi.1
    have hmember := @memberParts_judged h f names callee
    have harguments := @lowerExprs_judged h f names arguments hi.2
    have hplain := fun hcallee' => h.plainCall hcallee' hcallee harguments
    rw [Expr.items, localWrites_append]
    cases callee with
    | member object property computed =>
        obtain ⟨hkey, hobject, _⟩ := hmember _ _ _ rfl hi.1
        refine h.perm (h.methodCall hkey hobject harguments) ?_
        rw [Expr.items, localWrites_append, ← List.append_assoc]
        exact List.perm_append_comm.append_right _
    | _ =>
        simp only [lowerExpr] at hplain ⊢
        exact hplain (by simp)
  | .new callee arguments, hi => by
    rw [Expr.items, List.append_subset] at hi
    rw [Expr.items, localWrites_append]
    exact h.construct (lowerExpr_judged h callee hi.1) (lowerExprs_judged h arguments hi.2)
  | .unsupported kind, _ => by
    rw [lowerExpr]
    exact h.refuse fun _ => rfl

/-- The parts of a member expression. -/
theorem memberParts_judged (h : J.IsClosed) {f : Frame} {names : Names} :
    (e : Expr) → (object property : Expr) → (computed : Bool) → e = .member object property computed →
      e.items ⊆ itemsOf f.body →
      J.code f names [] [] (memberKey property computed (lowerExpr names property)) Operand.alone
        (localWrites names (if computed then property.items else [])) (keySummary names property computed) ∧
      J.code f names [] [] (lowerExpr names object) Operand.alone (localWrites names object.items)
        (object.summary names) ∧
      J.code f names [] [] (lowerChain names (lowerExpr names object) object) Chain.operands
        (localWrites names object.items) (object.summary names)
  | .member object property computed, _, _, _, rfl, hi => by
    rw [Expr.items, List.append_subset] at hi
    have hobject := @lowerExpr_judged h f names object hi.1
    have hproperty := @lowerExpr_judged h f names property
    refine ⟨h.memberKey fun hcomputed => ?_, hobject, lowerChain_judged h object hi.1 hobject⟩
    rw [if_pos hcomputed] at hi
    exact hproperty hi.2

/-- The base of a chain is what is given, or the innermost object. -/
theorem lowerChain_judged (h : J.IsClosed) {f : Frame} {names : Names} {evaluate : Build Operand} :
    (e : Expr) → e.items ⊆ itemsOf f.body →
      J.code f names [] [] evaluate Operand.alone (localWrites names e.items) (e.summary names) →
      J.code f names [] [] (lowerChain names evaluate e) Chain.operands (localWrites names e.items) (e.summary names)
  | .member object property computed, hi, _ => by
    rw [Expr.items, List.append_subset] at hi
    have hobject := @lowerExpr_judged h f names object hi.1
    have hproperty := @lowerExpr_judged h f names property
    rw [lowerChain, Expr.items, localWrites_append, Expr.summary_member]
    refine h.perm (h.next (h.memberKey fun hcomputed => ?_) fun key => ?_) List.perm_append_comm
    · rw [if_pos hcomputed] at hi
      exact hproperty hi.2
    · exact h.finish (h.weaken (lowerChain_judged h object hi.1 hobject) (List.nil_subset _)) fun chain =>
        h.pure (by simp)
  | .ident _, _, he | .literal _, _, he | .this, _, he | .array _, _, he | .object _, _, he | .function _, _, he
  | .unary _ _, _, he | .update _ _ _, _, he | .binary _ _ _, _, he | .logical _ _ _, _, he | .assign _ _ _, _, he
  | .conditional _ _ _, _, he | .sequence _, _, he | .call _ _, _, he | .new _ _, _, he | .unsupported _, _, he => by
    simp only [lowerChain]
    exact h.finish he fun _ => h.pure (by simp)

theorem lowerExprs_judged (h : J.IsClosed) {f : Frame} {names : Names} :
    (es : List Expr) → itemsOfExprs es ⊆ itemsOf f.body →
      J.code f names [] [] (lowerExprs names es) id (localWrites names (itemsOfExprs es)) (summaryOfExprs names es)
  | [], _ => by
    rw [lowerExprs]
    exact h.pure (List.nil_subset _)
  | e :: es, hi => by
    rw [itemsOfExprs, List.append_subset] at hi
    rw [lowerExprs, itemsOfExprs, localWrites_append, summaryOfExprs_cons]
    refine h.next (lowerExpr_judged h e hi.1) fun value => ?_
    exact h.finish (h.weaken (lowerExprs_judged h es hi.2) (List.nil_subset _)) fun values => h.pure (by simp)

theorem lowerSequence_judged (h : J.IsClosed) {f : Frame} {names : Names} :
    (es : List Expr) → itemsOfExprs es ⊆ itemsOf f.body →
      J.code f names [] [] (lowerSequence names es) Operand.alone (localWrites names (itemsOfExprs es))
        (summaryOfExprs names es)
  | [], _ => by
    rw [lowerSequence]
    exact h.literal _
  | [e], hi => by
    have he := @lowerExpr_judged h f names e (by simpa [itemsOfExprs] using hi)
    rw [lowerSequence, itemsOfExprs, itemsOfExprs, List.append_nil, summaryOfExprs_cons]
    exact (Summary.append_idle (e.summary names)).symm ▸ he
  | e :: e' :: es, hi => by
    rw [itemsOfExprs, List.append_subset] at hi
    have hrest := @lowerSequence_judged h f names (e' :: es) hi.2
    rw [itemsOfExprs, localWrites_append, summaryOfExprs_cons]
    simp only [lowerSequence]
    exact h.next (lowerExpr_judged h e hi.1) fun _ => h.weaken hrest (List.nil_subset _)

/-- The array is known to every element, for each is stored into it. -/
theorem lowerElements_judged (h : J.IsClosed) {f : Frame} {names : Names} (array : Operand) :
    (es : List (Option Expr)) → itemsOfElements es ⊆ itemsOf f.body → (index : Nat) →
      J.code f names [] [array] (lowerElements names array index es) nothing
        (localWrites names (itemsOfElements es)) (summaryOfElements names es)
  | [], _, _ => by
    rw [lowerElements]
    exact h.pure (List.nil_subset _)
  | none :: es, hi, index => by
    rw [lowerElements]
    exact lowerElements_judged h array es hi _
  | some e :: es, hi, index => by
    rw [itemsOfElements, List.append_subset] at hi
    rw [lowerElements, itemsOfElements, localWrites_append, summaryOfElements_cons]
    refine h.next (lowerExpr_judged h e hi.1) fun value => h.before (h.literal _) fun key => ?_
    refine h.before (h.storeProperty (by simp) (by simp)) fun _ => ?_
    exact h.weaken (lowerElements_judged h array es hi.2 _) (by simp)

theorem lowerProperties_judged (h : J.IsClosed) {f : Frame} {names : Names} (object : Operand) :
    (ps : List Property) → itemsOfProperties ps ⊆ itemsOf f.body →
      J.code f names [] [object] (lowerProperties names object ps) nothing
        (localWrites names (itemsOfProperties ps)) (summaryOfProperties names ps)
  | [], _ => by
    rw [lowerProperties]
    exact h.pure (List.nil_subset _)
  | ⟨key, value, kind, computed⟩ :: ps, hi => by
    rw [itemsOfProperties, List.append_subset, List.append_subset] at hi
    rw [lowerProperties, itemsOfProperties, localWrites_append, localWrites_append, List.append_assoc,
      summaryOfProperties_cons]
    refine h.next (h.propertyKey kind computed key) fun key => h.next (lowerExpr_judged h value hi.1.2) fun value => ?_
    refine h.before (h.storeProperty (by simp) (by simp)) fun _ => ?_
    exact h.weaken (lowerProperties_judged h object ps hi.2) (by simp)

/-- A function is judged by the rule for its body, in a frame of its own. -/
theorem lowerFunction_judged (h : J.IsClosed) {f : Frame} {names : Names} :
    (fn : Function) → Item.function fn ∈ itemsOf f.body →
      J.code f names [] [] (lowerFunction names fn) Operand.alone [] (fn.summary names)
  | ⟨name, params, body, isGenerator, isAsync⟩, hi => by
    cases hordinary : !isGenerator && !isAsync && params.all fun e => e.ident?.isSome with
    | false =>
        obtain ⟨what, hwhat⟩ := lowerFunction_eq_unsupported names ⟨name, params, body, isGenerator, isAsync⟩ hordinary
        rw [hwhat]
        refine h.refuse fun _ => ?_
        simp only [Function.summary, Function.isSupported, hordinary, Bool.false_and]
    | true =>
        rcases Scope.ofFunction_cases name params body with ⟨idents, hparams, _⟩ | ⟨hall, _⟩
        · simp only [Bool.and_eq_true, Bool.not_eq_true'] at hordinary
          obtain ⟨_, hdeclared⟩ := @lowerDeclared_judged h ⟨name, idents, body⟩
            (names.enter (Frame.mk name idents body).scope) body (List.Subset.refl _) (List.Subset.refl _)
          exact h.function hi hordinary.1.1 hordinary.1.2 hparams hdeclared
            (lowerStmts_judged h body (List.Subset.refl _) (List.Subset.refl _))
        · rw [hall, Bool.and_false] at hordinary
          cases hordinary

/-- The names that are written here are not told by the items, so they are only said to exist. -/
theorem lowerDeclared_judged (h : J.IsClosed) {f : Frame} {names : Names} :
    (body : List Stmt) → itemsOf body ⊆ itemsOf f.body → declarationsOf body ⊆ declarationsOf f.body →
      ∃ writes, J.code f names [] [] (lowerDeclared names body) nothing writes (declaredSummaryOf names body)
  | [], _, _ => by
    rw [lowerDeclared]
    exact ⟨[], h.pure (List.nil_subset _)⟩
  | s :: ss, hi, hd => by
    rw [itemsOf, List.append_subset] at hi
    rw [declarationsOf, List.append_subset] at hd
    obtain ⟨writes, hs⟩ := @lowerDeclaredIn_judged h f names s hi.1 hd.1
    obtain ⟨writes', hss⟩ := @lowerDeclared_judged h f names ss hi.2 hd.2
    rw [lowerDeclared, declaredSummaryOf_cons]
    exact ⟨writes ++ writes', h.next hs fun _ => hss⟩

theorem lowerDeclaredIn_judged (h : J.IsClosed) {f : Frame} {names : Names} :
    (s : Stmt) → s.items ⊆ itemsOf f.body → s.declarations ⊆ declarationsOf f.body →
      ∃ writes, J.code f names [] [] (lowerDeclaredIn names s) nothing writes (s.declaredSummary names)
  | .function fn, hi, hd => by
    rw [Stmt.items, List.cons_subset] at hi
    rw [Stmt.declarations, List.cons_subset] at hd
    have hfunction := @lowerFunction_judged h f names fn hi.1
    rw [lowerDeclaredIn, Stmt.declaredSummary_function]
    cases hname : fn.name with
    | none => exact ⟨[], h.finish hfunction fun _ => h.pure (List.nil_subset _)⟩
    | some name =>
        have hdeclared : name ∈ f.declared := Frame.mem_declared_of_function (hname ▸ hd.1)
        refine ⟨localWrites names [.use ⟨.write, name⟩], ?_⟩
        simp only [← bind_assoc]
        exact h.finish (h.write (.inr ⟨rfl, hdeclared⟩) hfunction) fun _ => h.pure (List.nil_subset _)
  | .block body, hi, hd => by
    rw [lowerDeclaredIn]
    exact lowerDeclared_judged h body hi hd
  | .branch test consequent alternate, hi, hd => by
    rw [Stmt.items, List.append_subset, List.append_subset] at hi
    rw [Stmt.declarations, List.append_subset] at hd
    obtain ⟨writes, hconsequent⟩ := @lowerDeclaredIn_judged h f names consequent hi.1.2 hd.1
    obtain ⟨writes', halternate⟩ := @lowerDeclaredInAlternate_judged h f names alternate hi.2 hd.2
    rw [lowerDeclaredIn, Stmt.declaredSummary_branch]
    exact ⟨writes ++ writes', h.next hconsequent fun _ => halternate⟩
  | .whileLoop test body, hi, hd => by
    rw [Stmt.items, List.append_subset] at hi
    rw [lowerDeclaredIn]
    exact lowerDeclaredIn_judged h body hi.2 hd
  | .doWhile body test, hi, hd => by
    rw [Stmt.items, List.append_subset] at hi
    rw [lowerDeclaredIn]
    exact lowerDeclaredIn_judged h body hi.1 hd
  | .forLoop init test update body, hi, hd => by
    rw [Stmt.items, List.append_subset] at hi
    rw [Stmt.declarations, List.append_subset] at hd
    rw [lowerDeclaredIn]
    exact lowerDeclaredIn_judged h body hi.2 hd.2
  | .labeled label body, hi, hd => by
    rw [lowerDeclaredIn]
    exact lowerDeclaredIn_judged h body hi hd
  | .var _, _, _ | .expr _, _, _ | .empty, _, _ | .jump _ _, _, _ | .ret _, _, _ | .unsupported _, _, _ => by
    rw [lowerDeclaredIn]
    exact ⟨[], h.pure (List.nil_subset _)⟩

theorem lowerDeclaredInAlternate_judged (h : J.IsClosed) {f : Frame} {names : Names} :
    (s : Option Stmt) → itemsOfAlternate s ⊆ itemsOf f.body →
      declarationsOfAlternate s ⊆ declarationsOf f.body →
      ∃ writes, J.code f names [] [] (lowerDeclaredInAlternate names s) nothing writes
        (declaredSummaryOfAlternate names s)
  | none, _, _ => by
    rw [lowerDeclaredInAlternate]
    exact ⟨[], h.pure (List.nil_subset _)⟩
  | some s, hi, hd => by
    rw [lowerDeclaredInAlternate]
    exact lowerDeclaredIn_judged h s hi hd

theorem lowerStmts_judged (h : J.IsClosed) {f : Frame} {names : Names} :
    (body : List Stmt) → itemsOf body ⊆ itemsOf f.body → declarationsOf body ⊆ declarationsOf f.body →
      J.flow f names (lowerStmts names body) (summaryOf names body)
  | [], _, _ => by
    rw [lowerStmts]
    exact h.skip
  | s :: ss, hi, hd => by
    rw [itemsOf, List.append_subset] at hi
    rw [declarationsOf, List.append_subset] at hd
    rw [lowerStmts, summaryOf_cons]
    exact h.seq (lowerStmt_judged h s hi.1 hd.1) (lowerStmts_judged h ss hi.2 hd.2)

theorem lowerStmt_judged (h : J.IsClosed) {f : Frame} {names : Names} :
    (s : Stmt) → s.items ⊆ itemsOf f.body → s.declarations ⊆ declarationsOf f.body →
      J.flow f names (lowerStmt names s) (s.summary names)
  | .function _, _, _ => by
    rw [lowerStmt]
    exact h.skip
  | .empty, _, _ => by
    rw [lowerStmt]
    exact h.skip
  | .var declaration, hi, hd => by
    obtain ⟨_, hvar⟩ := @lowerVarDecl_judged h f names declaration hi hd
    rw [lowerStmt]
    exact h.ensureOpen (h.ofCode hvar)
  | .expr e, hi, _ => by
    rw [lowerStmt]
    exact h.ensureOpen (h.ofCode (h.finish (lowerExpr_judged h e hi) fun _ => h.pure (List.nil_subset _)))
  | .block body, hi, hd => by
    rw [lowerStmt]
    exact h.ensureOpen (h.ofFlow (lowerStmts_judged h body hi hd))
  | .branch test consequent alternate, hi, hd => by
    rw [Stmt.items, List.append_subset, List.append_subset] at hi
    rw [Stmt.declarations, List.append_subset] at hd
    rw [lowerStmt, Stmt.summary_branch]
    exact h.ensureOpen (h.branch (lowerExpr_judged h test hi.1.1) (lowerStmt_judged h consequent hi.1.2 hd.1)
      (lowerAlternate_judged h alternate hi.2 hd.2))
  | .whileLoop test body, hi, hd => by
    rw [Stmt.items, List.append_subset] at hi
    rw [lowerStmt, Stmt.summary_whileLoop, Stmt.loopSummary_whileLoop]
    exact h.ensureOpen (h.loop (lowerExpr_judged h test hi.1) (h.pure (List.nil_subset _))
      (lowerStmt_judged h body hi.2 hd))
  | .doWhile body test, hi, hd => by
    rw [Stmt.items, List.append_subset] at hi
    rw [lowerStmt, Stmt.summary_doWhile, Stmt.loopSummary_doWhile]
    exact h.ensureOpen (h.loop (lowerExpr_judged h test hi.2) (h.pure (List.nil_subset _))
      (lowerStmt_judged h body hi.1 hd))
  | .forLoop init test update body, hi, hd => by
    rw [Stmt.items, List.append_subset, List.append_subset, List.append_subset] at hi
    rw [Stmt.declarations, List.append_subset] at hd
    obtain ⟨_, hinit⟩ := @lowerInit_judged h f names init hi.1.1.1 hd.1
    rw [lowerStmt, Stmt.summary_forLoop, Stmt.loopSummary_forLoop]
    exact h.ensureOpen (h.after hinit (h.loop (lowerTest_judged h test hi.1.1.2)
      (lowerUpdate_judged h update hi.1.2) (lowerStmt_judged h body hi.2 hd.2)))
  | .jump kind label, _, _ => by
    rw [lowerStmt]
    exact h.ensureOpen (h.jump kind label)
  | .ret argument, hi, _ => by
    rw [lowerStmt]
    exact h.ensureOpen (h.ret (lowerResult_judged h argument hi))
  | .labeled label body, hi, hd => by
    rw [lowerStmt]
    exact h.ensureOpen (lowerLabeled_judged h body hi hd [label])
  | .unsupported kind, _, _ => by
    rw [lowerStmt]
    exact h.ensureOpen (h.refused fun _ => rfl)

/-- What stands behind labels is judged as the inside of a statement, for the block has been opened. -/
theorem lowerLabeled_judged (h : J.IsClosed) {f : Frame} {names : Names} :
    (s : Stmt) → s.items ⊆ itemsOf f.body → s.declarations ⊆ declarationsOf f.body → ∀ labels,
      J.inner f names (lowerLabeled names labels s) (s.loopSummary names labels)
  | .labeled label body, hi, hd, labels => by
    rw [lowerLabeled]
    exact lowerLabeled_judged h body hi hd _
  | .whileLoop test body, hi, hd, labels => by
    rw [Stmt.items, List.append_subset] at hi
    rw [lowerLabeled, Stmt.loopSummary_whileLoop]
    exact h.loop (lowerExpr_judged h test hi.1) (h.pure (List.nil_subset _)) (lowerStmt_judged h body hi.2 hd)
  | .doWhile body test, hi, hd, labels => by
    rw [Stmt.items, List.append_subset] at hi
    rw [lowerLabeled, Stmt.loopSummary_doWhile]
    exact h.loop (lowerExpr_judged h test hi.2) (h.pure (List.nil_subset _)) (lowerStmt_judged h body hi.1 hd)
  | .forLoop init test update body, hi, hd, labels => by
    rw [Stmt.items, List.append_subset, List.append_subset, List.append_subset] at hi
    rw [Stmt.declarations, List.append_subset] at hd
    obtain ⟨_, hinit⟩ := @lowerInit_judged h f names init hi.1.1.1 hd.1
    rw [lowerLabeled, Stmt.loopSummary_forLoop]
    exact h.after hinit (h.loop (lowerTest_judged h test hi.1.1.2) (lowerUpdate_judged h update hi.1.2)
      (lowerStmt_judged h body hi.2 hd.2))
  | .var _, _, _, _ | .function _, _, _, _ | .expr _, _, _, _ | .block _, _, _, _ | .empty, _, _, _
  | .branch _ _ _, _, _, _ | .jump _ _, _, _, _ | .ret _, _, _, _ | .unsupported _, _, _, _ => by
    simp only [lowerLabeled]
    exact h.refused fun _ => rfl

theorem lowerAlternate_judged (h : J.IsClosed) {f : Frame} {names : Names} :
    (s : Option Stmt) → itemsOfAlternate s ⊆ itemsOf f.body →
      declarationsOfAlternate s ⊆ declarationsOf f.body →
      J.flow f names (lowerAlternate names s) (summaryOfAlternate names s)
  | none, _, _ => by
    rw [lowerAlternate]
    exact h.skip
  | some s, hi, hd => by
    rw [lowerAlternate]
    exact lowerStmt_judged h s hi hd

theorem lowerVarDecl_judged (h : J.IsClosed) {f : Frame} {names : Names} :
    (d : VarDecl) → d.items ⊆ itemsOf f.body → d.names.map .var ⊆ declarationsOf f.body →
      ∃ writes, J.code f names [] [] (lowerVarDecl names d) nothing writes (d.summary names)
  | ⟨kind, declarators⟩, hi, hd => by
    have hlower := @lowerDeclarators_judged h f names declarators hi
    rw [lowerVarDecl]
    split
    · next hkind =>
      subst hkind
      refine hlower fun d hmem name hname => Frame.mem_declared_of_var (hd ?_)
      rw [List.mem_map]
      refine ⟨name, ?_, rfl⟩
      rw [VarDecl.names, if_pos rfl, List.mem_filterMap]
      exact ⟨d, hmem, hname⟩
    · next hkind => exact ⟨[], h.refuse fun _ => by simp [VarDecl.summary, VarDecl.isSupported, hkind]⟩

theorem lowerDeclarators_judged (h : J.IsClosed) {f : Frame} {names : Names} :
    (ds : List Declarator) → itemsOfDeclarators ds ⊆ itemsOf f.body →
      (∀ d ∈ ds, ∀ name, d.target.ident? = some name → name ∈ f.declared) →
      ∃ writes, J.code f names [] [] (lowerDeclarators names ds) nothing writes (summaryOfDeclarators names ds)
  | [], _, _ => by
    rw [lowerDeclarators]
    exact ⟨[], h.pure (List.nil_subset _)⟩
  | ⟨target, none⟩ :: ds, hi, hd => by
    rw [itemsOfDeclarators, List.append_subset] at hi
    have hrest := @lowerDeclarators_judged h f names ds hi.2 (List.forall_mem_cons.mp hd).2
    cases target with
    | ident name =>
        rw [lowerDeclarators, summaryOfDeclarators_skip]
        exact hrest
    | _ =>
        simp only [lowerDeclarators]
        exact ⟨[], h.refuse fun _ => rfl⟩
  | ⟨target, some init⟩ :: ds, hi, hd => by
    rw [itemsOfDeclarators, List.append_subset, List.append_subset] at hi
    obtain ⟨htarget, hds⟩ := List.forall_mem_cons.mp hd
    have hinit := @lowerExpr_judged h f names init hi.1.2
    obtain ⟨writes, hrest⟩ := @lowerDeclarators_judged h f names ds hi.2 hds
    cases target with
    | ident name =>
        rw [lowerDeclarators, summaryOfDeclarators_cons, ← bind_assoc]
        exact ⟨_, h.next (h.write (.inr ⟨rfl, htarget name rfl⟩) hinit) fun _ =>
          h.weaken hrest (List.nil_subset _)⟩
    | _ =>
        simp only [lowerDeclarators]
        exact ⟨[], h.refuse fun _ => rfl⟩

theorem lowerInit_judged (h : J.IsClosed) {f : Frame} {names : Names} :
    (init : Option ForInit) → itemsOfInit init ⊆ itemsOf f.body →
      ForInit.declarations init ⊆ declarationsOf f.body →
      ∃ writes, J.code f names [] [] (lowerInit names init) nothing writes (summaryOfInit names init)
  | none, _, _ => by
    rw [lowerInit]
    exact ⟨[], h.pure (List.nil_subset _)⟩
  | some (.var d), hi, hd => by
    rw [lowerInit]
    exact lowerVarDecl_judged h d hi hd
  | some (.expr e), hi, _ => by
    rw [lowerInit]
    exact ⟨_, h.finish (lowerExpr_judged h e hi) fun _ => h.pure (List.nil_subset _)⟩

theorem lowerTest_judged (h : J.IsClosed) {f : Frame} {names : Names} :
    (e : Option Expr) → itemsOfOptional e ⊆ itemsOf f.body →
      J.code f names [] [] (lowerTest names e) Operand.alone (localWrites names (itemsOfOptional e))
        (summaryOfOptional names e)
  | none, _ => by
    rw [lowerTest]
    exact h.literal _
  | some e, hi => by
    rw [lowerTest]
    exact lowerExpr_judged h e hi

theorem lowerUpdate_judged (h : J.IsClosed) {f : Frame} {names : Names} :
    (e : Option Expr) → itemsOfOptional e ⊆ itemsOf f.body →
      J.code f names [] [] (lowerUpdate names e) nothing (localWrites names (itemsOfOptional e))
        (summaryOfOptional names e)
  | none, _ => by
    rw [lowerUpdate]
    exact h.pure (List.nil_subset _)
  | some e, hi => by
    rw [lowerUpdate]
    exact h.finish (lowerExpr_judged h e hi) fun _ => h.pure (List.nil_subset _)

theorem lowerResult_judged (h : J.IsClosed) {f : Frame} {names : Names} :
    (e : Option Expr) → itemsOfOptional e ⊆ itemsOf f.body →
      J.code f names [] [] (lowerResult names e) Operand.alone (localWrites names (itemsOfOptional e))
        (summaryOfOptional names e)
  | none, _ => by
    rw [lowerResult]
    exact h.literal _
  | some e, hi => by
    rw [lowerResult]
    exact lowerExpr_judged h e hi

end

end ScriptSsa
