import Mathlib.Logic.Equiv.Basic
import ScriptSsa.Proofs.Relocation

/-!
Construction under other names for variables.

The analysis of a scope only ever compares names with each other. Where distinct names stay distinct it finds the
same declarations, the same captured names and the same slots under the new names, and a look-up through the new scopes
ends where it ended before. So the graphs of a renamed script are those of the script, with the new names where
variables are mentioned and all else, every id included, as it was.
-/

namespace ScriptSsa

variable (r : String → String)

def Declaration.rename : Declaration → Declaration
  | var name => var (r name)
  | function name => function (name.map r)

def Use.rename (use : Use) : Use := ⟨use.access, r use.name⟩

def Shadow.rename (shadow : Shadow) : Shadow := ⟨shadow.declared.map r, shadow.ownName.map r⟩

/-- A name stays a name, and nothing else becomes one. -/
theorem Expr.ident?_rename (e : Expr) : (e.rename r).ident? = e.ident?.map r := by
  cases e <;> rw [Expr.rename] <;> rfl

/-- What an expression is called does not depend on the names in it. -/
theorem Expr.kind_rename (e : Expr) : (e.rename r).kind = e.kind := by
  cases e <;> rw [Expr.rename] <;> rfl

/-! Hoisted declarations. -/

theorem filterMap_ident?_renameExprs (es : List Expr) :
    (renameExprs r es).filterMap Expr.ident? = (es.filterMap Expr.ident?).map r := by
  induction es with
  | nil => rw [renameExprs]; rfl
  | cons e es ih =>
      rw [renameExprs, List.filterMap_cons, List.filterMap_cons, Expr.ident?_rename, ih]
      cases e.ident? <;> rfl

theorem VarDecl.names_rename (d : VarDecl) : (d.rename r).names = d.names.map r := by
  obtain ⟨kind, ds⟩ := d
  have htargets : (renameDeclarators r ds).filterMap (fun x => x.target.ident?) =
      (ds.filterMap fun x => x.target.ident?).map r := by
    induction ds with
    | nil => rw [renameDeclarators]; rfl
    | cons d ds ih =>
        obtain ⟨target, init⟩ := d
        rw [renameDeclarators, List.filterMap_cons, List.filterMap_cons, ih]
        dsimp only
        rw [Expr.ident?_rename]
        cases target.ident? <;> rfl
  rw [VarDecl.rename, names, names]
  split
  · exact htargets
  · rfl

theorem VarDecl.declarations_rename (d : VarDecl) :
    (d.rename r).names.map .var = (d.names.map .var).map (Declaration.rename r) := by
  rw [names_rename, List.map_map, List.map_map]
  rfl

theorem ForInit.declarations_rename (init : Option ForInit) :
    ForInit.declarations (renameInit r init) = (ForInit.declarations init).map (Declaration.rename r) := by
  cases init with
  | none => rw [renameInit]; rfl
  | some init =>
      cases init with
      | var d =>
          rw [renameInit]
          exact d.declarations_rename r
      | expr e => rw [renameInit]; rfl

mutual

/-- What a statement declares is renamed, in the same order. -/
theorem Stmt.declarations_rename :
    (s : Stmt) → (s.rename r).declarations = s.declarations.map (Declaration.rename r)
  | .var d => by
    rw [Stmt.rename, Stmt.declarations, Stmt.declarations]
    exact d.declarations_rename r
  | .function f => by
    rw [Stmt.rename, Stmt.declarations, Stmt.declarations, Function.name_rename]
    rfl
  | .block body => by
    rw [Stmt.rename, Stmt.declarations, Stmt.declarations, declarationsOf_rename body]
  | .branch _ c a => by
    rw [Stmt.rename, Stmt.declarations, Stmt.declarations, c.declarations_rename, declarationsOfAlternate_rename a,
      List.map_append]
  | .whileLoop _ b | .doWhile b _ | .labeled _ b => by
    rw [Stmt.rename, Stmt.declarations, Stmt.declarations, b.declarations_rename]
  | .forLoop i _ _ b => by
    rw [Stmt.rename, Stmt.declarations, Stmt.declarations, ForInit.declarations_rename, b.declarations_rename,
      List.map_append]
  | .expr _ | .empty | .jump _ _ | .ret _ | .unsupported _ => by
    simp only [Stmt.rename, Stmt.declarations, List.map_nil]

theorem declarationsOfAlternate_rename : (s : Option Stmt) →
    declarationsOfAlternate (renameAlternate r s) = (declarationsOfAlternate s).map (Declaration.rename r)
  | none => by rw [renameAlternate, declarationsOfAlternate, List.map_nil]
  | some s => by
    rw [renameAlternate, declarationsOfAlternate, declarationsOfAlternate]
    exact s.declarations_rename

theorem declarationsOf_rename : (body : List Stmt) →
    declarationsOf (renameStmts r body) = (declarationsOf body).map (Declaration.rename r)
  | [] => by rw [renameStmts, declarationsOf, List.map_nil]
  | s :: ss => by
    rw [renameStmts, declarationsOf, declarationsOf, s.declarations_rename, declarationsOf_rename ss, List.map_append]

end

theorem hoistedFunctions_rename (body : List Stmt) :
    hoistedFunctions (renameStmts r body) = (hoistedFunctions body).map (Option.map r) := by
  have hfunction : Declaration.function? ∘ Declaration.rename r =
      fun d => d.function?.map (Option.map r) := by
    funext d
    cases d <;> rfl
  rw [hoistedFunctions, hoistedFunctions, declarationsOf_rename, List.filterMap_map, hfunction, List.map_filterMap]

theorem functionNames_rename (body : List Stmt) :
    (hoistedFunctions (renameStmts r body)).filterMap id = ((hoistedFunctions body).filterMap id).map r := by
  rw [hoistedFunctions_rename, List.filterMap_map, List.map_filterMap]
  rfl

/-- A renamed list has a renamed name only if the list had the name. -/
theorem contains_map {α : Type} [DecidableEq α] {f : α → α} (hf : Function.Injective f) (xs : List α) (x : α) :
    (xs.map f).contains (f x) = xs.contains x := by
  simp [hf.eq_iff]

variable {r} (hr : Function.Injective r)

include hr

-- The recursion is on what the first name leaves over.
theorem eraseDups_map : (names : List String) → (names.map r).eraseDups = names.eraseDups.map r
  | [] => rfl
  | name :: rest => by
    have hrest : (rest.map r).filter (fun b => !b == r name) = (rest.filter fun b => !b == name).map r := by
      rw [List.filter_map]
      congr 2
      funext b
      simp [hr.eq_iff]
    rw [List.map_cons, List.eraseDups_cons, List.eraseDups_cons, hrest, List.map_cons,
      eraseDups_map (rest.filter fun b => !b == name)]
termination_by names => names.length
decreasing_by
  rw [List.length_cons]
  exact Nat.lt_succ_of_le (List.length_filter_le _ rest)

/-- Names are hoisted at their first place, which renaming keeps since it keeps names apart. -/
theorem hoistedVars_rename (body : List Stmt) : hoistedVars (renameStmts r body) = (hoistedVars body).map r := by
  have hvar : Declaration.var? ∘ Declaration.rename r = fun d => d.var?.map r := by
    funext d
    cases d <;> rfl
  rw [hoistedVars, hoistedVars, declarationsOf_rename, List.filterMap_map, hvar, ← eraseDups_map hr, List.map_filterMap]

/-! Captured names. -/

theorem Shadow.ofFunction_rename (f : Function) : Shadow.ofFunction (f.rename r) = (Shadow.ofFunction f).rename r := by
  obtain ⟨name, params, body, isGenerator, isAsync⟩ := f
  rw [Function.rename, ofFunction, ofFunction, Shadow.rename]
  dsimp only
  rw [hoistedVars_rename hr, filterMap_ident?_renameExprs, functionNames_rename, List.map_append, List.map_append]

/-- What is hidden stays hidden: nothing is captured by the new names. -/
theorem Shadow.hides_rename (shadow : Shadow) (use : Use) :
    (shadow.rename r).hides (use.rename r) = shadow.hides use := by
  have hown : (shadow.rename r).ownName = some (use.rename r).name ↔ shadow.ownName = some use.name := by
    change shadow.ownName.map r = some (r use.name) ↔ _
    rw [← Option.map_some, (Option.map_injective hr).eq_iff]
  have hdeclared : (shadow.rename r).declared.contains (use.rename r).name = shadow.declared.contains use.name :=
    contains_map hr _ _
  rw [hides, hides, hdeclared]
  simp only [hown]
  rfl

/-- So the uses that escape are the same. -/
theorem Use.escaping_rename (shadows : List Shadow) (use : Use) :
    (use.rename r).escaping (shadows.map (Shadow.rename r)) = (use.escaping shadows).map (Use.rename r) := by
  have hany : (shadows.map (Shadow.rename r)).any (·.hides (use.rename r)) = shadows.any (·.hides use) := by
    rw [List.any_map]
    congr 1
    funext shadow
    exact shadow.hides_rename hr use
  rw [escaping, escaping, hany, List.isEmpty_map]
  split <;> rfl

omit hr

mutual

/-- The uses of a renamed expression, and below of every part of a tree, under shadows that are renamed too. -/
theorem Expr.uses_rename (hr : Function.Injective r) : (e : Expr) → ∀ shadows : List Shadow,
    (e.rename r).uses (shadows.map (Shadow.rename r)) = (e.uses shadows).map (Use.rename r)
  | .ident name, shadows => by
    rw [Expr.rename, Expr.uses, Expr.uses]
    exact Use.escaping_rename hr shadows ⟨.read, name⟩
  | .literal _, _ | .this, _ | .unsupported _, _ => by rw [Expr.rename, Expr.uses, Expr.uses, List.map_nil]
  | .array es, shadows => by rw [Expr.rename, Expr.uses, Expr.uses, usesOfElements_rename hr es]
  | .object ps, shadows => by rw [Expr.rename, Expr.uses, Expr.uses, usesOfProperties_rename hr ps]
  | .function f, shadows => by rw [Expr.rename, Expr.uses, Expr.uses, f.uses_rename hr]
  | .unary _ e, shadows => by rw [Expr.rename, Expr.uses, Expr.uses, e.uses_rename hr]
  | .update op isPrefix e, shadows => by
    have hargument := e.uses_rename hr shadows
    cases e with
    | ident name =>
        simp only [Expr.rename, Expr.uses, List.map_append]
        rw [← Use.escaping_rename hr, ← Use.escaping_rename hr]
        rfl
    | _ =>
        simp only [Expr.rename, Expr.uses] at hargument ⊢
        exact hargument
  | .binary _ left right, shadows | .logical _ left right, shadows => by
    rw [Expr.rename, Expr.uses, Expr.uses, left.uses_rename hr, right.uses_rename hr, List.map_append]
  | .assign op left right, shadows => by
    have hleft := left.uses_rename hr shadows
    have hright := right.uses_rename hr shadows
    cases left with
    | ident name =>
        simp only [Expr.rename, Expr.uses, hright, List.map_append]
        congr 2
        · exact Use.escaping_rename hr shadows ⟨.write, name⟩
        · split
          · exact Use.escaping_rename hr shadows ⟨.read, name⟩
          · rfl
    | _ =>
        simp only [Expr.rename, Expr.uses, hright, List.map_append] at hleft ⊢
        exact congrArg (· ++ _) hleft
  | .conditional t c a, shadows => by
    rw [Expr.rename, Expr.uses, Expr.uses, t.uses_rename hr, c.uses_rename hr, a.uses_rename hr, List.map_append,
      List.map_append]
  | .sequence es, shadows => by rw [Expr.rename, Expr.uses, Expr.uses, usesOfExprs_rename hr es]
  | .member o p computed, shadows => by
    have hproperty := p.uses_rename hr shadows
    rw [Expr.rename, Expr.uses, Expr.uses, o.uses_rename hr, List.map_append]
    cases computed with
    | true => exact congrArg _ hproperty
    | false => rfl
  | .call f es, shadows | .new f es, shadows => by
    rw [Expr.rename, Expr.uses, Expr.uses, f.uses_rename hr, usesOfExprs_rename hr es, List.map_append]

theorem usesOfExprs_rename (hr : Function.Injective r) : (es : List Expr) → ∀ shadows : List Shadow,
    usesOfExprs (shadows.map (Shadow.rename r)) (renameExprs r es) = (usesOfExprs shadows es).map (Use.rename r)
  | [], _ => by rw [renameExprs, usesOfExprs, usesOfExprs, List.map_nil]
  | e :: es, shadows => by
    rw [renameExprs, usesOfExprs, usesOfExprs, e.uses_rename hr, usesOfExprs_rename hr es, List.map_append]

theorem usesOfOptional_rename (hr : Function.Injective r) : (e : Option Expr) → ∀ shadows : List Shadow,
    usesOfOptional (shadows.map (Shadow.rename r)) (renameOptional r e) =
      (usesOfOptional shadows e).map (Use.rename r)
  | none, _ => by rw [renameOptional, usesOfOptional, usesOfOptional, List.map_nil]
  | some e, shadows => by rw [renameOptional, usesOfOptional, usesOfOptional, e.uses_rename hr]

theorem usesOfElements_rename (hr : Function.Injective r) : (es : List (Option Expr)) → ∀ shadows : List Shadow,
    usesOfElements (shadows.map (Shadow.rename r)) (renameElements r es) =
      (usesOfElements shadows es).map (Use.rename r)
  | [], _ => by rw [renameElements, usesOfElements, usesOfElements, List.map_nil]
  | none :: es, shadows => by rw [renameElements, usesOfElements, usesOfElements, usesOfElements_rename hr es]
  | some e :: es, shadows => by
    rw [renameElements, usesOfElements, usesOfElements, e.uses_rename hr, usesOfElements_rename hr es, List.map_append]

theorem usesOfProperties_rename (hr : Function.Injective r) : (ps : List Property) → ∀ shadows : List Shadow,
    usesOfProperties (shadows.map (Shadow.rename r)) (renameProperties r ps) =
      (usesOfProperties shadows ps).map (Use.rename r)
  | [], _ => by rw [renameProperties, usesOfProperties, usesOfProperties, List.map_nil]
  | ⟨key, value, kind, computed⟩ :: ps, shadows => by
    have hkey := key.uses_rename hr shadows
    have hvalue := value.uses_rename hr shadows
    have hps := usesOfProperties_rename hr ps shadows
    rw [renameProperties, usesOfProperties, usesOfProperties, hvalue, hps, List.map_append, List.map_append]
    cases computed with
    | true => simp only [if_true, hkey]
    | false => rfl

/-- The shadow of the function itself is renamed with its parameters and declarations. -/
theorem Function.uses_rename (hr : Function.Injective r) : (f : Function) → ∀ shadows : List Shadow,
    (f.rename r).uses (shadows.map (Shadow.rename r)) = (f.uses shadows).map (Use.rename r)
  | ⟨name, params, body, isGenerator, isAsync⟩, shadows => by
    have hparams := usesOfExprs_rename hr params
      (Shadow.ofFunction ⟨name, params, body, isGenerator, isAsync⟩ :: shadows)
    have hbody := usesOf_rename hr body (Shadow.ofFunction ⟨name, params, body, isGenerator, isAsync⟩ :: shadows)
    have hshadow := Shadow.ofFunction_rename hr ⟨name, params, body, isGenerator, isAsync⟩
    rw [List.map_cons, ← hshadow, Function.rename] at hparams hbody
    rw [Function.rename, Function.uses, Function.uses, hparams, hbody, List.map_append]

theorem usesOfDeclarators_rename (hr : Function.Injective r) : (ds : List Declarator) → ∀ shadows : List Shadow,
    usesOfDeclarators (shadows.map (Shadow.rename r)) (renameDeclarators r ds) =
      (usesOfDeclarators shadows ds).map (Use.rename r)
  | [], _ => by rw [renameDeclarators, usesOfDeclarators, usesOfDeclarators, List.map_nil]
  | ⟨target, init⟩ :: ds, shadows => by
    rw [renameDeclarators, usesOfDeclarators, usesOfDeclarators, target.uses_rename hr, usesOfOptional_rename hr init,
      usesOfDeclarators_rename hr ds, List.map_append, List.map_append]

theorem VarDecl.uses_rename (hr : Function.Injective r) : (d : VarDecl) → ∀ shadows : List Shadow,
    (d.rename r).uses (shadows.map (Shadow.rename r)) = (d.uses shadows).map (Use.rename r)
  | ⟨_, ds⟩, shadows => by rw [VarDecl.rename, VarDecl.uses, VarDecl.uses, usesOfDeclarators_rename hr ds]

theorem usesOfInit_rename (hr : Function.Injective r) : (init : Option ForInit) → ∀ shadows : List Shadow,
    usesOfInit (shadows.map (Shadow.rename r)) (renameInit r init) = (usesOfInit shadows init).map (Use.rename r)
  | none, _ => by rw [renameInit, usesOfInit, usesOfInit, List.map_nil]
  | some (.var d), shadows => by rw [renameInit, usesOfInit, usesOfInit, d.uses_rename hr]
  | some (.expr e), shadows => by rw [renameInit, usesOfInit, usesOfInit, e.uses_rename hr]

theorem Stmt.uses_rename (hr : Function.Injective r) : (s : Stmt) → ∀ shadows : List Shadow,
    (s.rename r).uses (shadows.map (Shadow.rename r)) = (s.uses shadows).map (Use.rename r)
  | .var d, shadows => by rw [Stmt.rename, Stmt.uses, Stmt.uses, d.uses_rename hr]
  | .function f, shadows => by rw [Stmt.rename, Stmt.uses, Stmt.uses, f.uses_rename hr]
  | .expr e, shadows => by rw [Stmt.rename, Stmt.uses, Stmt.uses, e.uses_rename hr]
  | .block body, shadows => by rw [Stmt.rename, Stmt.uses, Stmt.uses, usesOf_rename hr body]
  | .branch t c a, shadows => by
    rw [Stmt.rename, Stmt.uses, Stmt.uses, t.uses_rename hr, c.uses_rename hr, usesOfAlternate_rename hr a,
      List.map_append, List.map_append]
  | .whileLoop t b, shadows | .doWhile b t, shadows => by
    rw [Stmt.rename, Stmt.uses, Stmt.uses, t.uses_rename hr, b.uses_rename hr, List.map_append]
  | .forLoop i t u b, shadows => by
    rw [Stmt.rename, Stmt.uses, Stmt.uses, usesOfInit_rename hr i, usesOfOptional_rename hr t,
      usesOfOptional_rename hr u, b.uses_rename hr, List.map_append, List.map_append, List.map_append]
  | .ret e, shadows => by rw [Stmt.rename, Stmt.uses, Stmt.uses, usesOfOptional_rename hr e]
  | .labeled _ b, shadows => by rw [Stmt.rename, Stmt.uses, Stmt.uses, b.uses_rename hr]
  | .empty, _ | .jump _ _, _ | .unsupported _, _ => by rw [Stmt.rename, Stmt.uses, Stmt.uses, List.map_nil]

theorem usesOfAlternate_rename (hr : Function.Injective r) : (s : Option Stmt) → ∀ shadows : List Shadow,
    usesOfAlternate (shadows.map (Shadow.rename r)) (renameAlternate r s) =
      (usesOfAlternate shadows s).map (Use.rename r)
  | none, _ => by rw [renameAlternate, usesOfAlternate, usesOfAlternate, List.map_nil]
  | some s, shadows => by rw [renameAlternate, usesOfAlternate, usesOfAlternate, s.uses_rename hr]

theorem usesOf_rename (hr : Function.Injective r) : (body : List Stmt) → ∀ shadows : List Shadow,
    usesOf (shadows.map (Shadow.rename r)) (renameStmts r body) = (usesOf shadows body).map (Use.rename r)
  | [], _ => by rw [renameStmts, usesOf, usesOf, List.map_nil]
  | s :: ss, shadows => by rw [renameStmts, usesOf, usesOf, s.uses_rename hr, usesOf_rename hr ss, List.map_append]

end

/-! Scopes. -/

namespace Scope

/-- Slots are numbered in the order of the names, which stays. -/
theorem assignSlots_map {chosen chosen' : String → Bool} (h : ∀ name, chosen' (r name) = chosen name)
    (names : List String) (next : Nat) :
    assignSlots chosen' next (names.map r) = (assignSlots chosen next names).map (Prod.map r id) := by
  induction names generalizing next with
  | nil => rfl
  | cons name rest ih =>
      rw [List.map_cons, assignSlots, assignSlots, h, ih, ih]
      split <;> rfl

theorem paramName_rename (param : Expr) : paramName (param.rename r) = (paramName param).map r := by
  rw [paramName, paramName, Expr.ident?_rename, Expr.kind_rename]
  cases param.ident? <;> rfl

/-- A parameter that is not a name is refused under any names. -/
theorem paramNames_rename (params : List Expr) :
    (renameExprs r params).mapM paramName = (params.mapM paramName).map (List.map r) := by
  induction params with
  | nil => rw [renameExprs]; rfl
  | cons param params ih =>
      rw [renameExprs, List.mapM_cons, List.mapM_cons, paramName_rename, ih]
      cases paramName param with
      | error e => rfl
      | ok name => cases params.mapM paramName <;> rfl

include hr

/-- A name is captured after renaming exactly if it was before. -/
theorem captured_rename (uses : List Use) (name : String) :
    (uses.map (Use.rename r)).any (fun use => use.name = r name) = uses.any fun use => use.name = name := by
  rw [List.any_map]
  congr 1
  funext use
  exact decide_eq_decide.mpr hr.eq_iff

theorem contains_read_rename (uses : List Use) (name : String) :
    (uses.map (Use.rename r)).contains ⟨.read, r name⟩ = uses.contains ⟨.read, name⟩ := by
  have huse : Function.Injective (Use.rename r) := by
    rintro ⟨access, name⟩ ⟨access', name'⟩ h
    simp only [Use.rename, Use.mk.injEq, hr.eq_iff] at h
    rw [h.1, h.2]
  exact contains_map huse uses ⟨.read, name⟩

/-- A declaration that hides the name of its own function does so after renaming. -/
theorem ownName_rename (ownName : Option String) (declared : List String) :
    (ownName.map r).filter (fun name => !(declared.map r).contains name) =
      (ownName.filter fun name => !declared.contains name).map r := by
  cases ownName with
  | none => rfl
  | some name =>
      rw [Option.map_some, Option.filter_some, Option.filter_some, contains_map hr]
      split <;> rfl

/-- The scope of a renamed body: the same slots under the new names. -/
theorem ofBody_rename (ownName : Option String) (params : List String) (body : List Stmt) :
    ofBody (ownName.map r) (params.map r) (renameStmts r body) = (ofBody ownName params body).rename r := by
  -- The parts of a scope build on each other, so each is renamed before the next.
  have hvars : (hoistedVars (renameStmts r body)).filter (fun name => !(params.map r).contains name) =
      ((hoistedVars body).filter fun name => !params.contains name).map r := by
    rw [hoistedVars_rename hr, List.filter_map]
    congr 2
    funext name
    exact congrArg not (contains_map hr params name)
  have hdeclared : (params.map r ++ ((hoistedVars body).filter fun name => !params.contains name).map r ++
      (hoistedFunctions (renameStmts r body)).filterMap id).eraseDups =
      (params ++ (hoistedVars body).filter (fun name => !params.contains name) ++
        (hoistedFunctions body).filterMap id).eraseDups.map r := by
    rw [functionNames_rename, ← List.map_append, ← List.map_append, eraseDups_map hr]
  have huses : escapingUses (renameStmts r body) = (escapingUses body).map (Use.rename r) := usesOf_rename hr body []
  have hstorage (declared : List String) : assignSlots
      (fun name => ((escapingUses body).map (Use.rename r)).any fun use => use.name = name) 0 (declared.map r) =
      (assignSlots (fun name => (escapingUses body).any fun use => use.name = name) 0 declared).map (Prod.map r id) :=
    assignSlots_map (captured_rename hr (escapingUses body)) declared 0
  unfold ofBody
  simp only [hvars, hdeclared, huses, ownName_rename hr, hstorage, List.countP_map, Function.comp_def,
    captured_rename hr, Option.any_map, contains_read_rename hr]
  rw [hoistedFunctions_rename]
  rfl

theorem ofFunction_rename (ownName : Option String) (params : List Expr) (body : List Stmt) :
    ofFunction (ownName.map r) (renameExprs r params) (renameStmts r body) =
      (ofFunction ownName params body).map (Scope.rename r) := by
  rw [ofFunction, ofFunction, paramNames_rename]
  cases params.mapM paramName with
  | error e => rfl
  | ok names => exact congrArg Except.ok (ofBody_rename hr ownName names body)

/-- A name is stored where its old name was. -/
theorem storage?_rename (scope : Scope) (name : String) : (scope.rename r).storage? (r name) = scope.storage? name := by
  have hname : (fun s : String × Storage => decide (s.1 = r name)) ∘ Prod.map r id = fun s => decide (s.1 = name) := by
    funext s
    exact decide_eq_decide.mpr hr.eq_iff
  rw [storage?, storage?, Scope.rename, List.find?_map, hname, Option.map_map]
  rfl

theorem isOwn_rename (scope : Scope) (name : String) : (scope.rename r).isOwn (r name) = scope.isOwn name := by
  refine decide_eq_decide.mpr ?_
  change scope.ownName.map r = some (r name) ↔ _
  rw [← Option.map_some, (Option.map_injective hr).eq_iff]

end Scope

/-! Look-ups and graphs. -/

/-- Variables take new names and ids stay. -/
def Relabeling.naming (r : String → String) : Relabeling := ⟨.fresh, r⟩

include hr in
theorem Scope.resolveFrom_rename (access : Access) (name : String) (scopes : List Scope) (depth : Nat) :
    resolveFrom access (r name) depth (scopes.map (Scope.rename r)) =
      (resolveFrom access name depth scopes).mapError (Fault.relabel (.naming r)) := by
  induction scopes generalizing depth with
  | nil => rfl
  | cons scope outer ih =>
      have hslot : (scope.rename r).ownSlot = scope.ownSlot := rfl
      simp only [List.map_cons, resolveFrom, storage?_rename hr, isOwn_rename hr, hslot, ih]
      split
      · rfl
      · split <;> rfl
      · split
        · split
          · rfl
          · split <;> rfl
        · rfl

include hr in
theorem Relabeling.naming_respects : (naming r).Respects Scope.resolve where
  names scopes access name := Scope.resolveFrom_rename hr access name scopes 0
  scope := Scope.ofFunction_rename hr

variable (r)

def Operand.rename : Operand → Operand
  | localVar name => localVar (r name)
  | o => o

/-- The first operand of an access to a global variable is the variable's name. -/
def Opcode.renameOperands (opcode : Opcode) (operands : List Operand) : List Operand :=
  match opcode.namesGlobal, operands with
  | true, .constant (.string name) :: rest => .constant (.string (r name)) :: rest.map (Operand.rename r)
  | _, _ => operands.map (Operand.rename r)

def Instr.rename (i : Instr) : Instr :=
  { i with operands := i.opcode.renameOperands r i.operands, binding := i.binding.map r }

def Block.rename (b : Block) : Block := { b with instrs := b.instrs.map (Instr.rename r) }

namespace Phi

def Input.rename (input : Input) : Input := { input with value := input.value.rename r }

def Entry.rename (entry : Entry) : Entry := { entry with inputs := entry.inputs.map (Input.rename r) }

def Table.rename (table : Table) : Table := ⟨table.entries.map (Prod.map id (Entry.rename r))⟩

end Phi

/-- The graph with new names for its variables: ids, successors, counts and the order of everything stay. -/
def Graph.rename (g : Graph) : Graph where
  entry := g.entry
  name := g.name.map r
  blocks := g.blocks.map (Block.rename r)
  phis := g.phis.rename r

/-- New names alone move no id. -/
theorem InstrId.relabel_naming : InstrId.relabel (.naming r) = id := by
  funext i
  exact congrArg InstrId.mk (Nat.zero_add i.index)

theorem BlockId.relabel_naming : BlockId.relabel (.naming r) = id := by
  funext i
  exact congrArg BlockId.mk (Nat.zero_add i.index)

theorem Supply.relabel_naming (supply : Supply) : supply.relabel (.naming r) = supply :=
  congrArg₂ Supply.mk (Nat.zero_add _) (Nat.zero_add _)

theorem Operand.relabel_naming : Operand.relabel (.naming r) = Operand.rename r := by
  funext o
  cases o with
  | instr i => exact congrArg instr (congrFun (InstrId.relabel_naming r) i)
  | block b => exact congrArg block (congrFun (BlockId.relabel_naming r) b)
  | localVar _ | constant _ | count _ => rfl

/-- The name of a global variable stands in a constant, which is renamed only there. -/
theorem Opcode.relabelOperands_naming (opcode : Opcode) (operands : List Operand) :
    opcode.relabelOperands (.naming r) operands = opcode.renameOperands r operands := by
  unfold relabelOperands renameOperands
  rw [Operand.relabel_naming]
  cases opcode.namesGlobal with
  | false => rfl
  | true =>
      cases operands with
      | nil => rfl
      | cons name rest =>
          unfold Operand.relabelGlobal
          rw [Operand.relabel_naming]
          cases name with
          | constant c => cases c <;> rfl
          | _ => rfl

theorem Instr.relabel_naming : Instr.relabel (.naming r) = Instr.rename r := by
  funext i
  rw [Instr.relabel, InstrId.relabel_naming, Opcode.relabelOperands_naming]
  rfl

theorem Block.relabel_naming : Block.relabel (.naming r) = Block.rename r := by
  funext b
  rw [Block.relabel, BlockId.relabel_naming, Instr.relabel_naming, List.map_id]
  rfl

theorem Phi.Entry.relabel_naming : Phi.Entry.relabel (.naming r) = Phi.Entry.rename r := by
  have hinput : Phi.Input.relabel (.naming r) = Phi.Input.rename r := by
    funext input
    rw [Phi.Input.relabel, BlockId.relabel_naming, Operand.relabel_naming]
    rfl
  funext entry
  rw [Phi.Entry.relabel, BlockId.relabel_naming, hinput]
  rfl

theorem Graph.relabel_naming : Graph.relabel (.naming r) = Graph.rename r := by
  funext g
  rw [Graph.relabel, BlockId.relabel_naming, Block.relabel_naming, Phi.Table.relabel, Phi.Entries.relabel,
    InstrId.relabel_naming, Phi.Entry.relabel_naming]
  rfl

variable {r}

/-- The graphs of a renamed script, with ids from any supply, are those of the script with the new names. -/
theorem constructWith_rename (hr : Function.Injective r) (p : Program) (supply : Supply) :
    constructWith (p.rename r) supply =
      ((constructWith p supply).1.map (List.map (Graph.rename r)), (constructWith p supply).2) := by
  have h := constructUsing_relabels (Relabeling.naming_respects hr) p supply
  rw [Supply.relabel_naming, Supply.relabel_naming, Graph.relabel_naming] at h
  refine h.trans (Prod.ext ?_ rfl)
  dsimp only [constructWith, Names.outermost]
  cases hresult : (constructUsing ⟨[], Scope.resolve⟩ p supply).1 with
  | ok graphs => rfl
  | error e =>
      -- A script is refused for its syntax or for a jump, never for a name.
      have hrefusal := isRefusal_of_constructWith hresult
      cases e with
      | unsupported what => rfl
      | unresolvedJump kind label => rfl
      | unresolvedPhi phi => cases hrefusal
      | fault fault => cases hrefusal

/-- Distinct new names for the variables of a script change nothing but these names in its graphs. The renamed script
is refused exactly when the script is and for the same reason, and from every supply the same ids are drawn. -/
theorem construction_renames (hr : Function.Injective r) (p : Program) :
    construct (p.rename r) = (construct p).map (List.map (Graph.rename r)) ∧
    ∀ supply, constructWith (p.rename r) supply =
      ((constructWith p supply).1.map (List.map (Graph.rename r)), (constructWith p supply).2) :=
  ⟨congrArg Prod.fst (constructWith_rename hr p .fresh), constructWith_rename hr p⟩

/-- `var x = z; function f(y) { delete z; return x[y].x; }` -/
def propertyScript : Program :=
  ⟨[.var (.plain "x" (some (.ident "z"))),
    .function (.plain (some "f") ["y"]
      [.expr (.unary .delete (.ident "z")),
        .ret (some (.member (.member (.ident "x") (.ident "y") true) (.ident "x") false))])]⟩

/-- The variables `x` and `y` exchange their names and the property `x` keeps its own. -/
theorem construction_renames_swap :
    Function.Injective (Equiv.swap "x" "y") ∧
    propertyScript.rename (Equiv.swap "x" "y") =
      ⟨[.var (.plain "y" (some (.ident "z"))),
        .function (.plain (some "f") ["x"]
          [.expr (.unary .delete (.ident "z")),
            .ret (some (.member (.member (.ident "y") (.ident "x") true) (.ident "x") false))])]⟩ ∧
    (construct propertyScript).isOk = true ∧
    construct (propertyScript.rename (Equiv.swap "x" "y")) =
      (construct propertyScript).map (List.map (Graph.rename (Equiv.swap "x" "y"))) :=
  ⟨(Equiv.swap "x" "y").injective, by rfl, by decide +kernel,
    (construction_renames (Equiv.swap "x" "y").injective propertyScript).1⟩

end ScriptSsa
