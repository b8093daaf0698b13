import ScriptSsa.Proofs.Acceptance
import ScriptSsa.Proofs.Relabeling

/-!
Lowering under other ids and other names.

By recursion on the syntax tree, a renamed tree is lowered in a relabeled builder as the tree itself is lowered in
the builder. Nothing is asked of the builder, so this holds of every run, whether it succeeds or fails. In
particular ids need not start at zero: a construction that starts further on gives the same graphs with all ids
moved.
-/

namespace ScriptSsa

open Build

/-- Scopes and look-ups take no notice of the new names. -/
structure Relabeling.Respects (ρ : Relabeling)
    (rule : List Scope → Access → String → Except Fault Resolution) : Prop where
  names : ∀ scopes, Names.Match ρ ⟨scopes, rule⟩ ⟨scopes.map (Scope.rename ρ.name), rule⟩
  scope : ∀ ownName params body,
    Scope.ofFunction (ownName.map ρ.name) (renameExprs ρ.name params) (renameStmts ρ.name body) =
      (Scope.ofFunction ownName params body).map (Scope.rename ρ.name)

variable {ρ : Relabeling} {rule : List Scope → Access → String → Except Fault Resolution}

/-- The scope of a function, or what its parameters are refused for. -/
theorem relabels_scope (h : ρ.Respects rule) (name : Option String) (params : List Expr) (body : List Stmt) :
    Relabels ρ (Scope.rename ρ.name) (lift (Scope.ofFunction name params body))
      (lift (Scope.ofFunction (name.map ρ.name) (renameExprs ρ.name params) (renameStmts ρ.name body))) := by
  rw [h.scope]
  rcases Scope.ofFunction_cases name params body with ⟨idents, _, hscope⟩ | ⟨_, what, hscope⟩
  · rw [hscope]
    exact fun _ => rfl
  · rw [hscope]
    exact fun _ => rfl

mutual

/-- By induction over the tree: an expression that is renamed is lowered by the corresponding run. -/
theorem lowerExpr_relabels (h : ρ.Respects rule) : (e : Expr) → ∀ scopes,
    Relabels ρ (Operand.relabel ρ) (lowerExpr ⟨scopes, rule⟩ e)
      (lowerExpr ⟨scopes.map (Scope.rename ρ.name), rule⟩ (e.rename ρ.name))
  | .ident name, scopes => by
    rw [Expr.rename, lowerExpr, lowerExpr]
    exact relabels_readName (h.names scopes) name
  | .literal l, _ => by
    rw [Expr.rename, lowerExpr, lowerExpr]
    exact relabels_literal _
  | .this, _ => by
    rw [Expr.rename, lowerExpr, lowerExpr]
    exact relabels_emit rfl []
  | .array elements, scopes => by
    rw [Expr.rename, lowerExpr, lowerExpr, length_renameElements]
    refine (relabels_count _).bind fun size => (relabels_emit rfl [size]).bind fun array => ?_
    exact (lowerElements_relabels h elements scopes array 0).bind fun _ => .pure array
  | .object properties, scopes => by
    rw [Expr.rename, lowerExpr, lowerExpr, length_renameProperties]
    refine (relabels_count _).bind fun size => (relabels_emit rfl [size]).bind fun object => ?_
    exact (lowerProperties_relabels h properties scopes object).bind fun _ => .pure object
  | .function f, scopes => by
    rw [Expr.rename, lowerExpr, lowerExpr]
    exact lowerFunction_relabels h f scopes
  | .unary op argument, scopes => by
    have hargument := lowerExpr_relabels h argument scopes
    have hmember := memberParts_relabels h argument
    cases op with
    | delete =>
        cases argument with
        | ident name =>
            simp only [Expr.rename, lowerExpr]
            have hdelete : Relabels ρ (Operand.relabel ρ) (emit .deleteGlobal [.constant (.string name)])
                (emit .deleteGlobal [.constant (.string (ρ.name name))]) :=
              (relabels_emitGlobal rfl name []).bind fun i => .pure (Operand.instr i)
            exact fun s => hdelete s.draw
        | member object property computed =>
            obtain ⟨hkey, hobject, _⟩ := hmember _ _ _ rfl scopes
            simp only [Expr.rename, lowerExpr]
            exact hkey.bind fun key => hobject.bind fun object => relabels_emit rfl [object, key]
        | _ =>
            simp only [Expr.rename, lowerExpr] at hargument ⊢
            exact hargument.bind fun _ => relabels_literal _
    | _ =>
        simp only [Expr.rename, lowerExpr]
        exact hargument.bind fun argument => relabels_unary _ argument
  | .update op isPrefix argument, scopes => by
    have hmember := memberParts_relabels h argument
    cases argument with
    | ident name =>
        simp only [Expr.rename, lowerExpr]
        exact relabels_updateName (h.names scopes) name op isPrefix
    | member object property computed =>
        obtain ⟨hkey, _, hchain⟩ := hmember _ _ _ rfl scopes
        simp only [Expr.rename, lowerExpr, lowerTarget_member]
        exact relabels_updateMember op isPrefix (relabels_target hkey hchain)
    | _ =>
        simp only [Expr.rename, lowerExpr]
        exact .unsupported _
  | .binary op left right, scopes => by
    rw [Expr.rename, lowerExpr, lowerExpr]
    refine (lowerExpr_relabels h left scopes).bind fun left => ?_
    exact (lowerExpr_relabels h right scopes).bind fun right => relabels_binary op left right
  | .logical op left right, scopes => by
    rw [Expr.rename, lowerExpr, lowerExpr]
    exact relabels_logical op (lowerExpr_relabels h left scopes) (lowerExpr_relabels h right scopes)
  | .assign op left right, scopes => by
    have hmember := memberParts_relabels h left
    have hright := lowerExpr_relabels h right scopes
    cases left with
    | ident name =>
        simp only [Expr.rename, lowerExpr]
        exact relabels_assignName (h.names scopes) name op hright
    | member object property computed =>
        obtain ⟨hkey, _, hchain⟩ := hmember _ _ _ rfl scopes
        simp only [Expr.rename, lowerExpr, lowerTarget_member]
        exact relabels_assignMember op (relabels_target hkey hchain) hright
    | _ =>
        simp only [Expr.rename, lowerExpr]
        exact .unsupported _
  | .conditional test consequent alternate, scopes => by
    rw [Expr.rename, lowerExpr, lowerExpr]
    exact relabels_conditional (lowerExpr_relabels h test scopes) (lowerExpr_relabels h consequent scopes)
      (lowerExpr_relabels h alternate scopes)
  | .sequence expressions, scopes => by
    rw [Expr.rename, lowerExpr, lowerExpr]
    exact lowerSequence_relabels h expressions scopes
  | .member object property computed, scopes => by
    have hproperty := lowerExpr_relabels h property scopes
    rw [Expr.rename, lowerExpr, lowerExpr]
    refine Relabels.bind (relabels_memberKey fun hcomputed => ?_) fun key => ?_
    · rwa [if_pos hcomputed]
    · exact (lowerExpr_relabels h object scopes).bind fun object => relabels_loadProperty ⟨object, key⟩
  | .call callee arguments, scopes => by
    have hcallee := lowerExpr_relabels h callee scopes
    have hmember := memberParts_relabels h callee
    have harguments := lowerExprs_relabels h arguments scopes
    have hplain : Relabels ρ (Operand.relabel ρ)
        (do
          let function ← lowerExpr ⟨scopes, rule⟩ callee
          call function (emit .global []) (← lowerExprs ⟨scopes, rule⟩ arguments))
        (do
          let function ← lowerExpr ⟨scopes.map (Scope.rename ρ.name), rule⟩ (callee.rename ρ.name)
          call function (emit .global [])
            (← lowerExprs ⟨scopes.map (Scope.rename ρ.name), rule⟩ (renameExprs ρ.name arguments))) :=
      hcallee.bind fun function => harguments.bind fun arguments =>
        relabels_call function (relabels_emit rfl []) arguments
    cases callee with
    | member object property computed =>
        obtain ⟨hkey, hobject, _⟩ := hmember _ _ _ rfl scopes
        simp only [Expr.rename, lowerExpr]
        refine hkey.bind fun key => hobject.bind fun object => ?_
        refine (relabels_loadProperty ⟨object, key⟩).bind fun function => harguments.bind fun arguments => ?_
        exact relabels_call function (.pure object) arguments
    | _ =>
        simp only [Expr.rename, lowerExpr] at hplain ⊢
        exact hplain
  | .new callee arguments, scopes => by
    rw [Expr.rename, lowerExpr, lowerExpr]
    refine (lowerExpr_relabels h callee scopes).bind fun function => ?_
    exact (lowerExprs_relabels h arguments scopes).bind fun arguments => relabels_new function arguments
  | .unsupported kind, _ => by
    rw [Expr.rename, lowerExpr, lowerExpr]
    exact .unsupported _

/-- The parts of a member expression. -/
theorem memberParts_relabels (h : ρ.Respects rule) :
    (e : Expr) → (object property : Expr) → (computed : Bool) → e = .member object property computed → ∀ scopes,
    Relabels ρ (Operand.relabel ρ) (memberKey property computed (lowerExpr ⟨scopes, rule⟩ property))
      (memberKey (if computed then property.rename ρ.name else property) computed
        (lowerExpr ⟨scopes.map (Scope.rename ρ.name), rule⟩
          (if computed then property.rename ρ.name else property))) ∧
    Relabels ρ (Operand.relabel ρ) (lowerExpr ⟨scopes, rule⟩ object)
      (lowerExpr ⟨scopes.map (Scope.rename ρ.name), rule⟩ (object.rename ρ.name)) ∧
    Relabels ρ (Chain.relabel ρ) (lowerChain ⟨scopes, rule⟩ (lowerExpr ⟨scopes, rule⟩ object) object)
      (lowerChain ⟨scopes.map (Scope.rename ρ.name), rule⟩
        (lowerExpr ⟨scopes.map (Scope.rename ρ.name), rule⟩ (object.rename ρ.name)) (object.rename ρ.name))
  | .member object property computed, _, _, _, rfl, scopes => by
    have hproperty := lowerExpr_relabels h property scopes
    have hobject := lowerExpr_relabels h object scopes
    refine ⟨relabels_memberKey fun hcomputed => ?_, hobject, lowerChain_relabels h object scopes hobject⟩
    rwa [if_pos hcomputed]

theorem lowerChain_relabels (h : ρ.Respects rule) {evaluate evaluate' : Build Operand} : (e : Expr) → ∀ scopes,
    Relabels ρ (Operand.relabel ρ) evaluate evaluate' →
    Relabels ρ (Chain.relabel ρ) (lowerChain ⟨scopes, rule⟩ evaluate e)
      (lowerChain ⟨scopes.map (Scope.rename ρ.name), rule⟩ evaluate' (e.rename ρ.name))
  | .member object property computed, scopes, _ => by
    have hproperty := lowerExpr_relabels h property scopes
    have hobject := lowerExpr_relabels h object scopes
    rw [Expr.rename, lowerChain, lowerChain]
    refine Relabels.bind (relabels_memberKey fun hcomputed => ?_) fun key => ?_
    · rwa [if_pos hcomputed]
    · exact (lowerChain_relabels h object scopes hobject).bind fun chain =>
        .pure { chain with keys := key :: chain.keys }
  | .ident _, _, hevaluate | .literal _, _, hevaluate | .this, _, hevaluate | .array _, _, hevaluate
  | .object _, _, hevaluate | .function _, _, hevaluate | .unary _ _, _, hevaluate | .update _ _ _, _, hevaluate
  | .binary _ _ _, _, hevaluate | .logical _ _ _, _, hevaluate | .assign _ _ _, _, hevaluate
  | .conditional _ _ _, _, hevaluate | .sequence _, _, hevaluate | .call _ _, _, hevaluate | .new _ _, _, hevaluate
  | .unsupported _, _, hevaluate => by
    simp only [Expr.rename, lowerChain]
    exact hevaluate.bind fun base => .pure (Chain.mk base [])

theorem lowerExprs_relabels (h : ρ.Respects rule) : (es : List Expr) → ∀ scopes,
    Relabels ρ (List.map (Operand.relabel ρ)) (lowerExprs ⟨scopes, rule⟩ es)
      (lowerExprs ⟨scopes.map (Scope.rename ρ.name), rule⟩ (renameExprs ρ.name es))
  | [], _ => by
    rw [renameExprs, lowerExprs, lowerExprs]
    exact .pure []
  | e :: es, scopes => by
    rw [renameExprs, lowerExprs, lowerExprs]
    refine (lowerExpr_relabels h e scopes).bind fun value => ?_
    exact (lowerExprs_relabels h es scopes).bind fun values => .pure (value :: values)

theorem lowerSequence_relabels (h : ρ.Respects rule) : (es : List Expr) → ∀ scopes,
    Relabels ρ (Operand.relabel ρ) (lowerSequence ⟨scopes, rule⟩ es)
      (lowerSequence ⟨scopes.map (Scope.rename ρ.name), rule⟩ (renameExprs ρ.name es))
  | [], _ => by
    rw [renameExprs, lowerSequence, lowerSequence]
    exact relabels_literal _
  | [e], scopes => by
    rw [renameExprs, renameExprs, lowerSequence, lowerSequence]
    exact lowerExpr_relabels h e scopes
  | e :: e' :: es, scopes => by
    have hrest := lowerSequence_relabels h (e' :: es) scopes
    simp only [renameExprs, lowerSequence] at hrest ⊢
    exact (lowerExpr_relabels h e scopes).bind fun _ => hrest

theorem lowerElements_relabels (h : ρ.Respects rule) : (es : List (Option Expr)) → ∀ scopes array index,
    Relabels ρ id (lowerElements ⟨scopes, rule⟩ array index es)
      (lowerElements ⟨scopes.map (Scope.rename ρ.name), rule⟩ (array.relabel ρ) index (renameElements ρ.name es))
  | [], _, _, _ => by
    rw [renameElements, lowerElements, lowerElements]
    exact .pure ()
  | none :: es, scopes, array, index => by
    rw [renameElements, lowerElements, lowerElements]
    exact lowerElements_relabels h es scopes array (index + 1)
  | some e :: es, scopes, array, index => by
    rw [renameElements, lowerElements, lowerElements]
    refine (lowerExpr_relabels h e scopes).bind fun value => (relabels_literal _).bind fun key => ?_
    refine (relabels_storeProperty ⟨array, key⟩ value).bind fun _ => ?_
    exact lowerElements_relabels h es scopes array (index + 1)

theorem lowerProperties_relabels (h : ρ.Respects rule) : (ps : List Property) → ∀ scopes object,
    Relabels ρ id (lowerProperties ⟨scopes, rule⟩ object ps)
      (lowerProperties ⟨scopes.map (Scope.rename ρ.name), rule⟩ (object.relabel ρ) (renameProperties ρ.name ps))
  | [], _, _ => by
    rw [renameProperties, lowerProperties, lowerProperties]
    exact .pure ()
  | ⟨key, value, kind, computed⟩ :: ps, scopes, object => by
    rw [renameProperties, lowerProperties, lowerProperties]
    refine (relabels_propertyKey kind computed key).bind fun key => ?_
    refine (lowerExpr_relabels h value scopes).bind fun value => ?_
    refine (relabels_storeProperty ⟨object, key⟩ value).bind fun _ => ?_
    exact lowerProperties_relabels h ps scopes object

/-- Inside, the scopes on both sides still correspond. -/
theorem lowerFunction_relabels (h : ρ.Respects rule) : (f : Function) → ∀ scopes,
    Relabels ρ (Operand.relabel ρ) (lowerFunction ⟨scopes, rule⟩ f)
      (lowerFunction ⟨scopes.map (Scope.rename ρ.name), rule⟩ (f.rename ρ.name))
  | ⟨name, params, body, isGenerator, isAsync⟩, scopes => by
    have hdeclared := lowerDeclared_relabels h body
    have hstmts := lowerStmts_relabels h body
    rw [Function.rename, lowerFunction, lowerFunction]
    refine (relabels_checkOrdinary isGenerator isAsync).bind fun _ => ?_
    refine (relabels_scope h name params body).bind fun scope => Relabels.bind ?_ fun g => relabels_functionValue g
    refine relabels_inNewGraph ?_ name
    refine (relabels_prologue (h.names (scope :: scopes)) scope).bind fun _ => ?_
    exact (hdeclared (scope :: scopes)).bind fun _ => hstmts (scope :: scopes)

theorem lowerDeclared_relabels (h : ρ.Respects rule) : (body : List Stmt) → ∀ scopes,
    Relabels ρ id (lowerDeclared ⟨scopes, rule⟩ body)
      (lowerDeclared ⟨scopes.map (Scope.rename ρ.name), rule⟩ (renameStmts ρ.name body))
  | [], _ => by
    rw [renameStmts, lowerDeclared, lowerDeclared]
    exact .pure ()
  | s :: ss, scopes => by
    rw [renameStmts, lowerDeclared, lowerDeclared]
    exact (lowerDeclaredIn_relabels h s scopes).bind fun _ => lowerDeclared_relabels h ss scopes

theorem lowerDeclaredIn_relabels (h : ρ.Respects rule) : (s : Stmt) → ∀ scopes,
    Relabels ρ id (lowerDeclaredIn ⟨scopes, rule⟩ s)
      (lowerDeclaredIn ⟨scopes.map (Scope.rename ρ.name), rule⟩ (s.rename ρ.name))
  | .function f, scopes => by
    rw [Stmt.rename, lowerDeclaredIn, lowerDeclaredIn, Function.name_rename]
    refine (lowerFunction_relabels h f scopes).bind fun value => ?_
    cases f.name with
    | none => exact .pure ()
    | some name => exact (relabels_writeName (h.names scopes) name value).bind fun _ => .pure ()
  | .block body, scopes => by
    rw [Stmt.rename, lowerDeclaredIn, lowerDeclaredIn]
    exact lowerDeclared_relabels h body scopes
  | .branch _ consequent alternate, scopes => by
    rw [Stmt.rename, lowerDeclaredIn, lowerDeclaredIn]
    exact (lowerDeclaredIn_relabels h consequent scopes).bind fun _ =>
      lowerDeclaredInAlternate_relabels h alternate scopes
  | .whileLoop _ body, scopes | .doWhile body _, scopes | .forLoop _ _ _ body, scopes | .labeled _ body, scopes => by
    rw [Stmt.rename, lowerDeclaredIn, lowerDeclaredIn]
    exact lowerDeclaredIn_relabels h body scopes
  | .var _, _ | .expr _, _ | .empty, _ | .jump _ _, _ | .ret _, _ | .unsupported _, _ => by
    rw [Stmt.rename, lowerDeclaredIn, lowerDeclaredIn]
    exact .pure ()

theorem lowerDeclaredInAlternate_relabels (h : ρ.Respects rule) : (s : Option Stmt) → ∀ scopes,
    Relabels ρ id (lowerDeclaredInAlternate ⟨scopes, rule⟩ s)
      (lowerDeclaredInAlternate ⟨scopes.map (Scope.rename ρ.name), rule⟩ (renameAlternate ρ.name s))
  | none, _ => by
    rw [renameAlternate, lowerDeclaredInAlternate, lowerDeclaredInAlternate]
    exact .pure ()
  | some s, scopes => by
    rw [renameAlternate, lowerDeclaredInAlternate, lowerDeclaredInAlternate]
    exact lowerDeclaredIn_relabels h s scopes

theorem lowerStmts_relabels (h : ρ.Respects rule) : (body : List Stmt) → ∀ scopes,
    Relabels ρ id (lowerStmts ⟨scopes, rule⟩ body)
      (lowerStmts ⟨scopes.map (Scope.rename ρ.name), rule⟩ (renameStmts ρ.name body))
  | [], _ => by
    rw [renameStmts, lowerStmts, lowerStmts]
    exact .pure ()
  | s :: ss, scopes => by
    rw [renameStmts, lowerStmts, lowerStmts]
    exact (lowerStmt_relabels h s scopes).bind fun _ => lowerStmts_relabels h ss scopes

theorem lowerStmt_relabels (h : ρ.Respects rule) : (s : Stmt) → ∀ scopes,
    Relabels ρ id (lowerStmt ⟨scopes, rule⟩ s)
      (lowerStmt ⟨scopes.map (Scope.rename ρ.name), rule⟩ (s.rename ρ.name))
  | .function _, _ | .empty, _ => by
    rw [Stmt.rename, lowerStmt, lowerStmt]
    exact .pure ()
  | .var declaration, scopes => by
    rw [Stmt.rename, lowerStmt, lowerStmt]
    exact relabels_ensureOpen.bind fun _ => lowerVarDecl_relabels h declaration scopes
  | .expr e, scopes => by
    rw [Stmt.rename, lowerStmt, lowerStmt]
    exact relabels_ensureOpen.bind fun _ => (lowerExpr_relabels h e scopes).bind fun _ => .pure ()
  | .block body, scopes => by
    rw [Stmt.rename, lowerStmt, lowerStmt]
    exact relabels_ensureOpen.bind fun _ => lowerStmts_relabels h body scopes
  | .branch test consequent alternate, scopes => by
    rw [Stmt.rename, lowerStmt, lowerStmt]
    exact relabels_ensureOpen.bind fun _ => relabels_branch (lowerExpr_relabels h test scopes)
      (lowerStmt_relabels h consequent scopes) (lowerAlternate_relabels h alternate scopes)
  | .whileLoop test body, scopes | .doWhile body test, scopes => by
    rw [Stmt.rename, lowerStmt, lowerStmt]
    exact relabels_ensureOpen.bind fun _ => relabels_loop _ _ (lowerExpr_relabels h test scopes) (.pure ())
      (lowerStmt_relabels h body scopes)
  | .forLoop init test update body, scopes => by
    rw [Stmt.rename, lowerStmt, lowerStmt]
    exact relabels_ensureOpen.bind fun _ => (lowerInit_relabels h init scopes).bind fun _ =>
      relabels_loop _ _ (lowerTest_relabels h test scopes) (lowerUpdate_relabels h update scopes)
        (lowerStmt_relabels h body scopes)
  | .jump kind label, _ => by
    rw [Stmt.rename, lowerStmt, lowerStmt]
    exact relabels_ensureOpen.bind fun _ => relabels_jump kind label
  | .ret argument, scopes => by
    rw [Stmt.rename, lowerStmt, lowerStmt]
    exact relabels_ensureOpen.bind fun _ => (lowerResult_relabels h argument scopes).bind fun value =>
      relabels_perform rfl [value]
  | .labeled label body, scopes => by
    rw [Stmt.rename, lowerStmt, lowerStmt]
    exact relabels_ensureOpen.bind fun _ => lowerLabeled_relabels h body scopes [label]
  | .unsupported kind, _ => by
    rw [Stmt.rename, lowerStmt, lowerStmt]
    exact relabels_ensureOpen.bind fun _ => .unsupported _

/-- Labels are no variables and keep their names. -/
theorem lowerLabeled_relabels (h : ρ.Respects rule) : (s : Stmt) → ∀ scopes labels,
    Relabels ρ id (lowerLabeled ⟨scopes, rule⟩ labels s)
      (lowerLabeled ⟨scopes.map (Scope.rename ρ.name), rule⟩ labels (s.rename ρ.name))
  | .labeled label body, scopes, labels => by
    rw [Stmt.rename, lowerLabeled, lowerLabeled]
    exact lowerLabeled_relabels h body scopes (labels ++ [label])
  | .whileLoop test body, scopes, labels | .doWhile body test, scopes, labels => by
    rw [Stmt.rename, lowerLabeled, lowerLabeled]
    exact relabels_loop _ _ (lowerExpr_relabels h test scopes) (.pure ()) (lowerStmt_relabels h body scopes)
  | .forLoop init test update body, scopes, labels => by
    rw [Stmt.rename, lowerLabeled, lowerLabeled]
    exact (lowerInit_relabels h init scopes).bind fun _ => relabels_loop _ _ (lowerTest_relabels h test scopes)
      (lowerUpdate_relabels h update scopes) (lowerStmt_relabels h body scopes)
  | .var _, _, _ | .function _, _, _ | .expr _, _, _ | .block _, _, _ | .empty, _, _ | .branch _ _ _, _, _
  | .jump _ _, _, _ | .ret _, _, _ | .unsupported _, _, _ => by
    simp only [Stmt.rename, lowerLabeled]
    exact .unsupported _

theorem lowerAlternate_relabels (h : ρ.Respects rule) : (s : Option Stmt) → ∀ scopes,
    Relabels ρ id (lowerAlternate ⟨scopes, rule⟩ s)
      (lowerAlternate ⟨scopes.map (Scope.rename ρ.name), rule⟩ (renameAlternate ρ.name s))
  | none, _ => by
    rw [renameAlternate, lowerAlternate, lowerAlternate]
    exact .pure ()
  | some s, scopes => by
    rw [renameAlternate, lowerAlternate, lowerAlternate]
    exact lowerStmt_relabels h s scopes

theorem lowerVarDecl_relabels (h : ρ.Respects rule) : (d : VarDecl) → ∀ scopes,
    Relabels ρ id (lowerVarDecl ⟨scopes, rule⟩ d)
      (lowerVarDecl ⟨scopes.map (Scope.rename ρ.name), rule⟩ (d.rename ρ.name))
  | ⟨kind, declarators⟩, scopes => by
    have hlower := lowerDeclarators_relabels h declarators scopes
    rw [VarDecl.rename, lowerVarDecl, lowerVarDecl]
    cases kind with
    | var => exact hlower
    | _ => exact .unsupported _

/-- The target of a declarator is renamed, whether it is initialized or not. -/
theorem lowerDeclarators_relabels (h : ρ.Respects rule) : (ds : List Declarator) → ∀ scopes,
    Relabels ρ id (lowerDeclarators ⟨scopes, rule⟩ ds)
      (lowerDeclarators ⟨scopes.map (Scope.rename ρ.name), rule⟩ (renameDeclarators ρ.name ds))
  | [], _ => by
    rw [renameDeclarators, lowerDeclarators, lowerDeclarators]
    exact .pure ()
  | ⟨target, none⟩ :: ds, scopes => by
    have hrest := lowerDeclarators_relabels h ds scopes
    cases target with
    | ident name =>
        simp only [renameDeclarators, Expr.rename, renameOptional, lowerDeclarators]
        exact hrest
    | _ =>
        simp only [renameDeclarators, Expr.rename, lowerDeclarators]
        exact .unsupported _
  | ⟨target, some init⟩ :: ds, scopes => by
    have hinit := lowerExpr_relabels h init scopes
    have hrest := lowerDeclarators_relabels h ds scopes
    cases target with
    | ident name =>
        simp only [renameDeclarators, Expr.rename, renameOptional, lowerDeclarators]
        exact hinit.bind fun value => (relabels_writeName (h.names scopes) name value).bind fun _ => hrest
    | _ =>
        simp only [renameDeclarators, Expr.rename, lowerDeclarators]
        exact .unsupported _

theorem lowerInit_relabels (h : ρ.Respects rule) : (init : Option ForInit) → ∀ scopes,
    Relabels ρ id (lowerInit ⟨scopes, rule⟩ init)
      (lowerInit ⟨scopes.map (Scope.rename ρ.name), rule⟩ (renameInit ρ.name init))
  | none, _ => by
    rw [renameInit, lowerInit, lowerInit]
    exact .pure ()
  | some (.var d), scopes => by
    rw [renameInit, lowerInit, lowerInit]
    exact lowerVarDecl_relabels h d scopes
  | some (.expr e), scopes => by
    rw [renameInit, lowerInit, lowerInit]
    exact (lowerExpr_relabels h e scopes).bind fun _ => .pure ()

theorem lowerTest_relabels (h : ρ.Respects rule) : (e : Option Expr) → ∀ scopes,
    Relabels ρ (Operand.relabel ρ) (lowerTest ⟨scopes, rule⟩ e)
      (lowerTest ⟨scopes.map (Scope.rename ρ.name), rule⟩ (renameOptional ρ.name e))
  | none, _ => by
    rw [renameOptional, lowerTest, lowerTest]
    exact relabels_literal _
  | some e, scopes => by
    rw [renameOptional, lowerTest, lowerTest]
    exact lowerExpr_relabels h e scopes

theorem lowerUpdate_relabels (h : ρ.Respects rule) : (e : Option Expr) → ∀ scopes,
    Relabels ρ id (lowerUpdate ⟨scopes, rule⟩ e)
      (lowerUpdate ⟨scopes.map (Scope.rename ρ.name), rule⟩ (renameOptional ρ.name e))
  | none, _ => by
    rw [renameOptional, lowerUpdate, lowerUpdate]
    exact .pure ()
  | some e, scopes => by
    rw [renameOptional, lowerUpdate, lowerUpdate]
    exact (lowerExpr_relabels h e scopes).bind fun _ => .pure ()

theorem lowerResult_relabels (h : ρ.Respects rule) : (e : Option Expr) → ∀ scopes,
    Relabels ρ (Operand.relabel ρ) (lowerResult ⟨scopes, rule⟩ e)
      (lowerResult ⟨scopes.map (Scope.rename ρ.name), rule⟩ (renameOptional ρ.name e))
  | none, _ => by
    rw [renameOptional, lowerResult, lowerResult]
    exact relabels_literal _
  | some e, scopes => by
    rw [renameOptional, lowerResult, lowerResult]
    exact lowerExpr_relabels h e scopes

end

section

variable {p : Program} {supply : Supply} {t : Builder}

/-- The top level of a script is lowered under a scope of its own. -/
def lowerTop (rule : List Scope → Access → String → Except Fault Resolution) (p : Program) : Build Unit :=
  lowerBody ⟨[Scope.ofBody none [] p.body], rule⟩ ⟨none, [], p.body⟩

/-- A construction fails as the lowering of its top level does. -/
theorem constructUsing_of_error {e : BuildError}
    (h : lowerTop rule p (Builder.start supply).nested = .error e t) :
    constructUsing ⟨[], rule⟩ p supply = (.error e, t.supply) := by
  have hlower : lowerProgram ⟨[], rule⟩ p (Builder.start supply) = .error e _ := inNewGraph_error h
  rw [constructUsing, hlower]

theorem constructUsing_of_ok (h : lowerTop rule p (Builder.start supply).nested = .ok () t) :
    constructUsing ⟨[], rule⟩ p supply =
      (t.phis.finish.map fun table => ⟨supply.nextBlock, none, t.blocks, table⟩ :: t.finished.graphs, t.supply) := by
  have hlower : lowerProgram ⟨[], rule⟩ p (Builder.start supply) = _ := inNewGraph_of_ok h
  rw [constructUsing, hlower]
  cases t.phis.finish <;> rfl

end

/-- From the parts to the whole script. -/
theorem lowerTop_relabels (h : ρ.Respects rule) (p : Program) :
    Relabels ρ id (lowerTop rule p) (lowerTop rule (p.rename ρ.name)) := by
  have hscope : Scope.ofBody none [] (renameStmts ρ.name p.body) = (Scope.ofBody none [] p.body).rename ρ.name :=
    Except.ok.inj (h.scope none [] p.body)
  unfold lowerTop lowerBody Frame.scope Program.rename
  dsimp only
  rw [hscope]
  refine (relabels_prologue (h.names [Scope.ofBody none [] p.body]) _).bind fun _ => ?_
  exact (lowerDeclared_relabels h p.body _).bind fun _ => lowerStmts_relabels h p.body _

/-- The graphs of a renamed script, with ids from elsewhere, are those of the script, relabeled. -/
theorem constructUsing_relabels (h : ρ.Respects rule) (p : Program) (supply : Supply) :
    constructUsing ⟨[], rule⟩ (p.rename ρ.name) (supply.relabel ρ) =
      (match (constructUsing ⟨[], rule⟩ p supply).1 with
        | .ok graphs => .ok (graphs.map (Graph.relabel ρ))
        | .error e => .error (e.relabel ρ),
        (constructUsing ⟨[], rule⟩ p supply).2.relabel ρ) := by
  -- A nested builder takes the supply over and nothing that could be told apart.
  have hrun : lowerTop rule (p.rename ρ.name) (Builder.start (supply.relabel ρ)).nested = _ :=
    lowerTop_relabels h p (Builder.start supply).nested
  cases htop : lowerTop rule p (Builder.start supply).nested with
  | error e t =>
      rw [htop] at hrun
      rw [constructUsing_of_error htop, constructUsing_of_error hrun]
      rfl
  | ok _ t =>
      rw [htop] at hrun
      have hfinish : (t.relabel ρ).phis.finish = _ := Phi.Recorder.finish_relabel
      rw [constructUsing_of_ok htop, constructUsing_of_ok hrun, hfinish]
      cases t.phis.finish <;> rfl

/-! Ids from another start. -/

/-- All ids are moved as far as the supply has come; names stay. -/
def Supply.relocation (start : Supply) : Relabeling := ⟨start, id⟩

/-- No fault of a look-up has an id in it. -/
theorem Scope.resolveFrom_mapError (start : Supply) (access : Access) (name : String) (scopes : List Scope)
    (depth : Nat) :
    (resolveFrom access name depth scopes).mapError (Fault.relabel start.relocation) =
      resolveFrom access name depth scopes := by
  induction scopes generalizing depth with
  | nil => rfl
  | cons scope outer ih =>
      simp only [resolveFrom]
      split
      · rfl
      · split <;> rfl
      · split
        · split
          · rfl
          · split
            · rfl
            · exact ih (depth + 1)
        · exact ih (depth + 1)

/-- Where only ids are moved, names are looked up as before. -/
theorem Supply.relocation_respects (start : Supply) : start.relocation.Respects Scope.resolve where
  names scopes access name := by
    have hscopes : scopes.map (Scope.rename id) = scopes :=
      (List.map_congr_left fun scope _ => scope.rename_id).trans (List.map_id _)
    change Scope.resolve (scopes.map (Scope.rename id)) access name = _
    rw [hscopes]
    exact (Scope.resolveFrom_mapError start access name scopes 0).symm
  scope ownName params body := by
    change Scope.ofFunction (ownName.map id) (renameExprs id params) (renameStmts id body) =
      (Scope.ofFunction ownName params body).map (Scope.rename id)
    rw [renameExprs_id, renameStmts_id, Option.map_id_fun, id]
    cases Scope.ofFunction ownName params body with
    | error e => rfl
    | ok scope => exact congrArg Except.ok scope.rename_id.symm

/-- A construction that starts further on gives the same graphs with all ids moved by as much, or the same error, and
draws as many ids. -/
theorem construction_relocates (p : Program) (start : Supply) :
    constructWith p start =
      ((constructWith p .fresh).1.map (List.map (Graph.relabel start.relocation)),
        (constructWith p .fresh).2.relabel start.relocation) := by
  have h := constructUsing_relabels start.relocation_respects p .fresh
  have hrename : p.rename start.relocation.name = p := congrArg Program.mk (renameStmts_id p.body)
  rw [hrename] at h
  change constructWith p start = (match (constructWith p .fresh).1 with
    | .ok graphs => .ok (graphs.map (Graph.relabel start.relocation))
    | .error e => .error (e.relabel start.relocation), _) at h
  rw [h]
  refine Prod.ext ?_ rfl
  cases hfresh : (constructWith p .fresh).1 with
  | ok graphs => rfl
  | error e =>
      -- Only a refusal can come out, and no refusal mentions an id.
      have hrefusal := isRefusal_of_constructWith hfresh
      cases e with
      | unsupported what => rfl
      | unresolvedJump kind label => rfl
      | unresolvedPhi phi => cases hrefusal
      | fault fault => cases hrefusal

end ScriptSsa
