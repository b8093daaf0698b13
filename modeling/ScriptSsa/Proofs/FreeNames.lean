import Mathlib.Data.List.Basic
import ScriptSsa.Proofs.LocalVariables

/-!
The scope of a function, said without the search that computes it.

What a function declares is read off its statement positions, and what it uses from outside is its free
uses: those of its own items and of the functions further inside, less what it declares itself. There is
no stack of shadows in that definition, one function is closed at a time. `Scope.IsAnalysis` says what the
scope of a function is in these terms, down to the order of the names and the numbers of the slots.
-/

namespace ScriptSsa

/-! Declarations at statement positions. -/

mutual

/-- The statement and those that stand inside it without a function between, in source order. -/
def Stmt.positions : Stmt → List Stmt
  | .block body => .block body :: positionsOf body
  | .branch t c a => .branch t c a :: (c.positions ++ positionsOfAlternate a)
  | .whileLoop t b => .whileLoop t b :: b.positions
  | .doWhile b t => .doWhile b t :: b.positions
  | .forLoop i t u b => .forLoop i t u b :: b.positions
  | .labeled l b => .labeled l b :: b.positions
  | .var d => [.var d]
  | .function f => [.function f]
  | .expr e => [.expr e]
  | .empty => [.empty]
  | .jump j l => [.jump j l]
  | .ret e => [.ret e]
  | .unsupported kind => [.unsupported kind]

def positionsOfAlternate : Option Stmt → List Stmt
  | none => []
  | some s => s.positions

/-- The statement positions of a function's body. -/
def positionsOf : List Stmt → List Stmt
  | [] => []
  | s :: ss => s.positions ++ positionsOf ss

end

/-- The names that a statement declares by `var` itself, not through a statement inside it. -/
def Stmt.ownVars : Stmt → List String
  | .var d => d.names
  | .forLoop (some (.var d)) _ _ _ => d.names
  | _ => []

/-- The name of the function that a statement declares. -/
def Stmt.ownFunction : Stmt → List String
  | .function f => f.name.toList
  | _ => []

/-- The names declared by `var` in a body, as often as they are declared. -/
def varNames (body : List Stmt) : List String := (positionsOf body).flatMap Stmt.ownVars

/-- The names of the functions declared in a body, as often as they are declared. -/
def functionNames (body : List Stmt) : List String := (positionsOf body).flatMap Stmt.ownFunction

/-- The declarations that a statement makes itself. -/
def Stmt.ownDeclarations : Stmt → List Declaration
  | .var d => d.names.map .var
  | .function f => [.function f.name]
  | .forLoop i _ _ _ => ForInit.declarations i
  | _ => []

mutual

/-- Declarations are hoisted from all positions of a statement, in the order of the source. -/
theorem Stmt.declarations_eq :
    (s : Stmt) → s.declarations = s.positions.flatMap Stmt.ownDeclarations
  | .block body => by simp [Stmt.declarations, Stmt.positions, Stmt.ownDeclarations, declarationsOf_eq body]
  | .branch _ c a => by
    simp [Stmt.declarations, Stmt.positions, Stmt.ownDeclarations, c.declarations_eq,
      declarationsOfAlternate_eq a]
  | .whileLoop _ b | .doWhile b _ | .forLoop _ _ _ b | .labeled _ b => by
    simp [Stmt.declarations, Stmt.positions, Stmt.ownDeclarations, b.declarations_eq]
  | .var _ | .function _ | .expr _ | .empty | .jump _ _ | .ret _ | .unsupported _ => by
    simp [Stmt.declarations, Stmt.positions, Stmt.ownDeclarations]

theorem declarationsOfAlternate_eq :
    (s : Option Stmt) →
      declarationsOfAlternate s = (positionsOfAlternate s).flatMap Stmt.ownDeclarations
  | none => by simp [declarationsOfAlternate, positionsOfAlternate]
  | some s => by rw [declarationsOfAlternate, positionsOfAlternate, s.declarations_eq]

theorem declarationsOf_eq :
    (body : List Stmt) → declarationsOf body = (positionsOf body).flatMap Stmt.ownDeclarations
  | [] => by simp [declarationsOf, positionsOf]
  | s :: ss => by
    rw [declarationsOf, positionsOf, List.flatMap_append, s.declarations_eq, declarationsOf_eq ss]

end

theorem filterMap_var?_map (names : List String) :
    (names.map Declaration.var).filterMap Declaration.var? = names := by
  rw [List.filterMap_map]
  exact List.filterMap_some

theorem filterMap_function?_map (names : List String) :
    (names.map Declaration.var).filterMap Declaration.function? = [] := by
  induction names with
  | nil => rfl
  | cons name names ih => exact ih

theorem Stmt.ownVars_eq (s : Stmt) : s.ownDeclarations.filterMap Declaration.var? = s.ownVars := by
  cases s with
  | var d => exact filterMap_var?_map _
  | forLoop i _ _ _ =>
      rcases i with _ | d | _
      · rfl
      · exact filterMap_var?_map _
      · rfl
  | _ => rfl

theorem Stmt.ownFunction_eq (s : Stmt) :
    (s.ownDeclarations.filterMap Declaration.function?).filterMap id = s.ownFunction := by
  cases s with
  | var d =>
      rw [Stmt.ownDeclarations, filterMap_function?_map]
      rfl
  | function f =>
      rw [Stmt.ownDeclarations, Stmt.ownFunction]
      cases f.name <;> rfl
  | forLoop i _ _ _ =>
      rcases i with _ | d | _
      · rfl
      · rw [Stmt.ownDeclarations, ForInit.declarations, filterMap_function?_map]
        rfl
      · rfl
  | _ => rfl

/-- Each variable is hoisted once, at its first place. -/
theorem hoistedVars_eq (body : List Stmt) : hoistedVars body = (varNames body).eraseDups := by
  simp only [hoistedVars, varNames, declarationsOf_eq, List.filterMap_flatMap, Stmt.ownVars_eq]

/-- Function declarations are hoisted as often as they stand there. -/
theorem hoistedFunctions_eq (body : List Stmt) :
    (hoistedFunctions body).filterMap id = functionNames body := by
  simp only [hoistedFunctions, functionNames, declarationsOf_eq, List.filterMap_flatMap,
    Stmt.ownFunction_eq]

theorem mem_hoistedVars {name : String} {body : List Stmt} :
    name ∈ hoistedVars body ↔ name ∈ varNames body := by
  rw [hoistedVars_eq, List.mem_eraseDups]

/-! Free uses. -/

/-- What stands directly in the parameters and the body of a function. -/
def Function.items (f : Function) : List Item := itemsOfExprs f.params ++ itemsOf f.body

/-- The function gives the name that is used its meaning. Its own name it gives to reads alone. -/
def Function.Binds (f : Function) (use : Use) : Prop :=
  Expr.ident use.name ∈ f.params ∨ use.name ∈ varNames f.body ∨ use.name ∈ functionNames f.body ∨
    use.access = .read ∧ f.name = some use.name

/-- A use that a function makes of a name from outside itself. -/
inductive Function.Free : Function → Use → Prop where
  | here {f : Function} {use : Use} (hitem : Item.use use ∈ f.items) (hfree : ¬f.Binds use) :
      Function.Free f use
  | inside {f g : Function} {use : Use} (hitem : Item.function g ∈ f.items) (hg : Function.Free g use)
      (hfree : ¬f.Binds use) : Function.Free f use

/-- The name is free in one of the functions that stand directly in the body. -/
def FreeInside (body : List Stmt) (use : Use) : Prop :=
  ∃ f, Item.function f ∈ itemsOf body ∧ f.Free use

section Size

variable (f : Function)

mutual

/-- A function inside an expression is smaller than it, which lets the search for free names end. -/
theorem Expr.sizeOf_item : (e : Expr) → Item.function f ∈ e.items → sizeOf f < sizeOf e
  | .ident _, h | .literal _, h | .this, h | .unsupported _, h => by simp [Expr.items] at h
  | .array es, h => by
    have := sizeOf_itemsOfElements es
    grind [Expr.items, Expr.array.sizeOf_spec]
  | .object ps, h => by
    have := sizeOf_itemsOfProperties ps
    grind [Expr.items, Expr.object.sizeOf_spec]
  | .function g, h => by
    obtain rfl : f = g := by simpa [Expr.items] using h
    simp
  | .unary _ e, h => by
    have := e.sizeOf_item
    grind [Expr.items, Expr.unary.sizeOf_spec]
  | .update _ _ e, h => by
    have := e.sizeOf_item
    cases e <;> grind [Expr.items, Expr.update.sizeOf_spec]
  | .binary _ l r, h => by
    have := l.sizeOf_item
    have := r.sizeOf_item
    grind [Expr.items, Expr.binary.sizeOf_spec]
  | .logical _ l r, h => by
    have := l.sizeOf_item
    have := r.sizeOf_item
    grind [Expr.items, Expr.logical.sizeOf_spec]
  | .assign _ l r, h => by
    have := l.sizeOf_item
    have := r.sizeOf_item
    cases l <;> grind [Expr.items, Expr.assign.sizeOf_spec]
  | .conditional t c a, h => by
    have := t.sizeOf_item
    have := c.sizeOf_item
    have := a.sizeOf_item
    grind [Expr.items, Expr.conditional.sizeOf_spec]
  | .sequence es, h => by
    have := sizeOf_itemsOfExprs es
    grind [Expr.items, Expr.sequence.sizeOf_spec]
  | .member o p _, h => by
    have := o.sizeOf_item
    have := p.sizeOf_item
    grind [Expr.items, Expr.member.sizeOf_spec]
  | .call g es, h => by
    have := g.sizeOf_item
    have := sizeOf_itemsOfExprs es
    grind [Expr.items, Expr.call.sizeOf_spec]
  | .new g es, h => by
    have := g.sizeOf_item
    have := sizeOf_itemsOfExprs es
    grind [Expr.items, Expr.new.sizeOf_spec]

theorem sizeOf_itemsOfExprs :
    (es : List Expr) → Item.function f ∈ itemsOfExprs es → sizeOf f < sizeOf es
  | [], h => by simp [itemsOfExprs] at h
  | e :: es, h => by
    have := e.sizeOf_item
    have := sizeOf_itemsOfExprs es
    grind [itemsOfExprs, List.cons.sizeOf_spec]

theorem sizeOf_itemsOfElements :
    (es : List (Option Expr)) → Item.function f ∈ itemsOfElements es → sizeOf f < sizeOf es
  | [], h => by simp [itemsOfElements] at h
  | none :: es, h => by
    have := sizeOf_itemsOfElements es
    grind [itemsOfElements, List.cons.sizeOf_spec]
  | some e :: es, h => by
    have := e.sizeOf_item
    have := sizeOf_itemsOfElements es
    grind [itemsOfElements, List.cons.sizeOf_spec, Option.some.sizeOf_spec]

theorem sizeOf_itemsOfProperties :
    (ps : List Property) → Item.function f ∈ itemsOfProperties ps → sizeOf f < sizeOf ps
  | [], h => by simp [itemsOfProperties] at h
  | ⟨key, value, _, _⟩ :: ps, h => by
    have := key.sizeOf_item
    have := value.sizeOf_item
    have := sizeOf_itemsOfProperties ps
    grind [itemsOfProperties, List.cons.sizeOf_spec, Property.mk.sizeOf_spec]

end

theorem sizeOf_itemsOfOptional :
    (e : Option Expr) → Item.function f ∈ itemsOfOptional e → sizeOf f < sizeOf e
  | none, h => by simp [itemsOfOptional] at h
  | some e, h => by
    have := e.sizeOf_item f
    grind [itemsOfOptional, Option.some.sizeOf_spec]

theorem sizeOf_itemsOfDeclarators :
    (ds : List Declarator) → Item.function f ∈ itemsOfDeclarators ds → sizeOf f < sizeOf ds
  | [], h => by simp [itemsOfDeclarators] at h
  | ⟨target, init⟩ :: ds, h => by
    have := target.sizeOf_item f
    have := sizeOf_itemsOfOptional f init
    have := sizeOf_itemsOfDeclarators ds
    grind [itemsOfDeclarators, List.cons.sizeOf_spec, Declarator.mk.sizeOf_spec]

theorem VarDecl.sizeOf_item : (d : VarDecl) → Item.function f ∈ d.items → sizeOf f < sizeOf d
  | ⟨_, ds⟩, h => by
    have := sizeOf_itemsOfDeclarators f ds
    grind [VarDecl.items, VarDecl.mk.sizeOf_spec]

theorem sizeOf_itemsOfInit :
    (i : Option ForInit) → Item.function f ∈ itemsOfInit i → sizeOf f < sizeOf i
  | none, h => by simp [itemsOfInit] at h
  | some (.var d), h => by
    have := d.sizeOf_item f
    grind [itemsOfInit, Option.some.sizeOf_spec, ForInit.var.sizeOf_spec]
  | some (.expr e), h => by
    have := e.sizeOf_item f
    grind [itemsOfInit, Option.some.sizeOf_spec, ForInit.expr.sizeOf_spec]

mutual

theorem Stmt.sizeOf_item : (s : Stmt) → Item.function f ∈ s.items → sizeOf f < sizeOf s
  | .empty, h | .jump _ _, h | .unsupported _, h => by simp [Stmt.items] at h
  | .var d, h => by
    have := d.sizeOf_item f
    grind [Stmt.items, Stmt.var.sizeOf_spec]
  | .function g, h => by
    obtain rfl : f = g := by simpa [Stmt.items] using h
    simp
  | .expr e, h => by
    have := e.sizeOf_item f
    grind [Stmt.items, Stmt.expr.sizeOf_spec]
  | .block body, h => by
    have := sizeOf_itemsOf body
    grind [Stmt.items, Stmt.block.sizeOf_spec]
  | .branch t c a, h => by
    have := t.sizeOf_item f
    have := c.sizeOf_item
    have := sizeOf_itemsOfAlternate a
    grind [Stmt.items, Stmt.branch.sizeOf_spec]
  | .whileLoop t b, h => by
    have := t.sizeOf_item f
    have := b.sizeOf_item
    grind [Stmt.items, Stmt.whileLoop.sizeOf_spec]
  | .doWhile b t, h => by
    have := b.sizeOf_item
    have := t.sizeOf_item f
    grind [Stmt.items, Stmt.doWhile.sizeOf_spec]
  | .forLoop i t u b, h => by
    have := sizeOf_itemsOfInit f i
    have := sizeOf_itemsOfOptional f t
    have := sizeOf_itemsOfOptional f u
    have := b.sizeOf_item
    grind [Stmt.items, Stmt.forLoop.sizeOf_spec]
  | .ret e, h => by
    have := sizeOf_itemsOfOptional f e
    grind [Stmt.items, Stmt.ret.sizeOf_spec]
  | .labeled _ b, h => by
    have := b.sizeOf_item
    grind [Stmt.items, Stmt.labeled.sizeOf_spec]

theorem sizeOf_itemsOfAlternate :
    (s : Option Stmt) → Item.function f ∈ itemsOfAlternate s → sizeOf f < sizeOf s
  | none, h => by simp [itemsOfAlternate] at h
  | some s, h => by
    have := s.sizeOf_item
    grind [itemsOfAlternate, Option.some.sizeOf_spec]

theorem sizeOf_itemsOf : (body : List Stmt) → Item.function f ∈ itemsOf body → sizeOf f < sizeOf body
  | [], h => by simp [itemsOf] at h
  | s :: ss, h => by
    have := s.sizeOf_item
    have := sizeOf_itemsOf ss
    grind [itemsOf, List.cons.sizeOf_spec]

end

/-- A function is smaller than the one it stands in. -/
theorem Function.sizeOf_item {outer : Function} (h : Item.function f ∈ outer.items) :
    sizeOf f < sizeOf outer := by
  obtain ⟨name, params, body, isGenerator, isAsync⟩ := outer
  have := sizeOf_itemsOfExprs f params
  have := sizeOf_itemsOf f body
  grind [Function.items, Function.mk.sizeOf_spec]

end Size

/-! The search finds the free uses. -/

/-- A use escapes if it stands inside some function and none around it hides the name. -/
theorem Use.mem_escaping_iff {shadows : List Shadow} {use use' : Use} :
    use ∈ use'.escaping shadows ↔
      use = use' ∧ shadows ≠ [] ∧ ∀ s ∈ shadows, s.hides use = false := by
  rw [Use.escaping]
  split
  · next h =>
      rcases Bool.or_eq_true _ _ ▸ h with h | h
      · simp_all
      · obtain ⟨s, hs, hhides⟩ := List.any_eq_true.mp h
        constructor
        · intro hmem
          cases hmem
        · rintro ⟨rfl, _, hall⟩
          rw [hall s hs] at hhides
          cases hhides
  · next h =>
      simp_all

/-- Inside a function, its own shadow is the nearest. -/
theorem Function.uses_eq (f : Function) (shadows : List Shadow) :
    f.uses shadows = f.items.flatMap (Item.uses (Shadow.ofFunction f :: shadows)) := by
  obtain ⟨name, params, body, isGenerator, isAsync⟩ := f
  rw [Function.uses, Function.items, List.flatMap_append, usesOfExprs_eq, usesOf_eq]

/-- A shadow hides exactly the uses that the function binds. -/
theorem Shadow.hides_ofFunction {f : Function} {use : Use} :
    (Shadow.ofFunction f).hides use = true ↔ f.Binds use := by
  have hident : use.name ∈ f.params.filterMap Expr.ident? ↔ Expr.ident use.name ∈ f.params := by
    rw [List.mem_filterMap]
    constructor
    · rintro ⟨e, he, hname⟩
      cases e <;> simp_all [Expr.ident?]
    · intro h
      exact ⟨_, h, rfl⟩
  rw [Shadow.hides, Bool.or_eq_true, Bool.and_eq_true, List.contains_iff_mem, decide_eq_true_eq,
    decide_eq_true_eq]
  simp only [Shadow.ofFunction, List.mem_append, mem_hoistedVars, hoistedFunctions_eq, hident,
    Function.Binds]
  tauto

theorem Shadow.hides_ofFunction_eq_false {f : Function} {use : Use} :
    (Shadow.ofFunction f).hides use = false ↔ ¬f.Binds use := by
  rw [← Shadow.hides_ofFunction, Bool.not_eq_true]

/-- The search through a function finds only free uses that the shadows around it let through. The recursion
is on the size of the function, since the functions inside it are searched in the same way. -/
theorem Function.free_of_mem_uses (f : Function) {shadows : List Shadow} {use : Use}
    (h : use ∈ f.uses shadows) : f.Free use ∧ ∀ s ∈ shadows, s.hides use = false := by
  rw [Function.uses_eq, List.mem_flatMap] at h
  obtain ⟨item, hitem, huse⟩ := h
  cases item with
  | use use' =>
      obtain ⟨rfl, _, hvisible⟩ := Use.mem_escaping_iff.mp huse
      obtain ⟨hown, hshadows⟩ := List.forall_mem_cons.mp hvisible
      exact ⟨.here hitem (Shadow.hides_ofFunction_eq_false.mp hown), hshadows⟩
  | function g =>
      have := g.sizeOf_item hitem
      obtain ⟨hg, hvisible⟩ := g.free_of_mem_uses huse
      obtain ⟨hown, hshadows⟩ := List.forall_mem_cons.mp hvisible
      exact ⟨.inside hitem hg (Shadow.hides_ofFunction_eq_false.mp hown), hshadows⟩
termination_by sizeOf f

/-- By induction on how a use is free: no shadow on the way out hides it. -/
theorem Function.Free.mem_uses {f : Function} {use : Use} (h : f.Free use) :
    ∀ shadows : List Shadow, (∀ s ∈ shadows, s.hides use = false) → use ∈ f.uses shadows := by
  induction h with
  | here hitem hfree =>
      intro shadows hshadows
      rw [Function.uses_eq, List.mem_flatMap]
      have hown := Shadow.hides_ofFunction_eq_false.mpr hfree
      exact ⟨_, hitem, Use.mem_escaping (by simp) (List.forall_mem_cons.mpr ⟨hown, hshadows⟩)⟩
  | inside hitem _ hfree ih =>
      intro shadows hshadows
      rw [Function.uses_eq, List.mem_flatMap]
      have hown := Shadow.hides_ofFunction_eq_false.mpr hfree
      exact ⟨_, hitem, ih _ (List.forall_mem_cons.mpr ⟨hown, hshadows⟩)⟩

/-- The search finds the uses that are free in a nested function, and no others. -/
theorem mem_escapingUses {body : List Stmt} {use : Use} :
    use ∈ escapingUses body ↔ FreeInside body use := by
  rw [escapingUses, usesOf_eq, List.mem_flatMap]
  constructor
  · rintro ⟨item, hitem, huse⟩
    cases item with
    | use use' => exact absurd rfl (Use.mem_escaping_iff.mp huse).2.1
    | function f => exact ⟨f, hitem, (f.free_of_mem_uses huse).1⟩
  · rintro ⟨f, hitem, hfree⟩
    exact ⟨_, hitem, hfree.mem_uses [] (by simp)⟩

/-! First occurrences. -/

/-- In the list the first name occurs before the other one does. -/
def FirstBefore (names : List String) (a b : String) : Prop := names.idxOf a < names.idxOf b

/-- To leave names out does not change the order of the others. -/
theorem FirstBefore.of_filter {names : List String} {keep : String → Bool} {a b : String}
    (ha : keep a = true) (hb : keep b = true) (h : FirstBefore (names.filter keep) a b) :
    FirstBefore names a b := by
  induction names with
  | nil => exact h
  | cons name names ih =>
      simp only [FirstBefore, List.filter_cons, List.idxOf_cons] at h ih ⊢
      by_cases hname : keep name = true
      · rw [if_pos hname] at h
        simp only [List.idxOf_cons] at h
        grind
      · have hne : ∀ c, keep c = true → (name == c) = false := by
          intro c hc
          exact beq_eq_false_iff_ne.mpr fun heq => hname (heq ▸ hc)
        rw [if_neg hname] at h
        rw [hne a ha, hne b hb]
        exact Nat.succ_lt_succ (ih h)

/-- Removing repetitions leaves the names in the order of their first occurrences. -/
theorem pairwise_eraseDups : (names : List String) → names.eraseDups.Pairwise (FirstBefore names)
  | [] => List.Pairwise.nil
  | name :: rest => by
    rw [List.eraseDups_cons, List.pairwise_cons]
    have hne : ∀ b ∈ (rest.filter fun b => !b == name).eraseDups, b ≠ name := by
      intro b hb
      simpa using (List.mem_filter.mp (List.mem_eraseDups.mp hb)).2
    constructor
    · intro b hb
      have hb := hne b hb
      simp only [FirstBefore, List.idxOf_cons]
      grind
    · -- the recursion is on what the first name leaves over
      refine (pairwise_eraseDups (rest.filter fun b => !b == name)).imp_of_mem ?_
      intro a b ha hb hbefore
      have hrest : FirstBefore rest a b :=
        hbefore.of_filter (by simpa using hne a ha) (by simpa using hne b hb)
      have ha := hne a ha
      have hb := hne b hb
      simp only [FirstBefore, List.idxOf_cons] at hrest ⊢
      grind
termination_by names => names.length
decreasing_by
  rw [List.length_cons]
  exact Nat.lt_succ_of_le (List.length_filter_le _ rest)

/-! The scope of a function. -/

/-- The number of a slot. -/
def Storage.slot? : Storage → Option Nat
  | localVar => none
  | slot index => some index

namespace Scope

/-- The declared names. -/
def names (scope : Scope) : List String := scope.storage.map Prod.fst

/-- The slots of the declared names, in the order of the names, and last that of the function itself. -/
def slots (scope : Scope) : List Nat :=
  scope.storage.filterMap (fun s => s.2.slot?) ++ scope.ownSlot.toList

/-- The scope of a function with the given own name, parameters and body, by what the function declares and
what the functions in it leave free. -/
structure IsAnalysis (scope : Scope) (ownName : Option String) (params : List String) (body : List Stmt) :
    Prop where
  params_eq : scope.params = params
  mem_vars (name : String) : name ∈ scope.vars ↔ name ∈ varNames body ∧ name ∉ params
  vars_order : scope.vars.Pairwise (FirstBefore (varNames body))
  mem_names (name : String) : name ∈ scope.names ↔ name ∈ params ++ scope.vars ++ functionNames body
  names_order : scope.names.Pairwise (FirstBefore (params ++ scope.vars ++ functionNames body))
  ownName_iff (name : String) : scope.ownName = some name ↔ ownName = some name ∧ name ∉ scope.names
  slot_iff (name : String) (storage : Storage) (h : (name, storage) ∈ scope.storage) :
    (∃ index, storage = .slot index) ↔ ∃ access, FreeInside body ⟨access, name⟩
  ownSlot_iff : (∃ index, scope.ownSlot = some index) ↔
    ∃ name, scope.ownName = some name ∧ FreeInside body ⟨.read, name⟩
  slots_eq : scope.slots = List.range scope.contextSize

section Slots

variable (chosen : String → Bool)

/-- Every name is stored somewhere. -/
theorem map_fst_assignSlots (names : List String) (next : Nat) :
    (assignSlots chosen next names).map Prod.fst = names := by
  induction names generalizing next with
  | nil => rfl
  | cons name names ih =>
      rw [assignSlots]
      split <;> rw [List.map_cons, ih]

/-- The names that are chosen get a slot, and they alone. -/
theorem mem_assignSlots {names : List String} {next : Nat} {name : String} {storage : Storage}
    (h : (name, storage) ∈ assignSlots chosen next names) :
    (∃ index, storage = .slot index) ↔ chosen name = true := by
  induction names generalizing next with
  | nil => cases h
  | cons head names ih =>
      rw [assignSlots] at h
      split at h
      · next hhead =>
          rcases List.mem_cons.mp h with h | h
          · cases h
            simp [hhead]
          · exact ih h
      · next hhead =>
          rcases List.mem_cons.mp h with h | h
          · cases h
            simp [hhead]
          · exact ih h

/-- The slots are numbered without a gap. -/
theorem filterMap_slot?_assignSlots (names : List String) (next : Nat) :
    (assignSlots chosen next names).filterMap (fun s => s.2.slot?) =
      List.range' next (names.countP chosen) := by
  induction names generalizing next with
  | nil => rfl
  | cons name names ih =>
      rw [assignSlots]
      split
      · next h => rw [List.countP_cons_of_pos h, List.range'_succ, List.filterMap_cons, ih]; rfl
      · next h => rw [List.countP_cons_of_neg h, List.filterMap_cons, ih]; rfl

end Slots

end Scope

namespace Frame

variable (f : Frame)

theorem scope_names : f.scope.names = f.declaredOnce := Scope.map_fst_assignSlots _ _ _

theorem scope_vars : f.scope.vars = (hoistedVars f.body).filter fun name => !f.params.contains name := rfl

theorem declaredOnce_eq :
    f.declaredOnce = (f.params ++ f.scope.vars ++ functionNames f.body).eraseDups := by
  rw [declaredOnce, hoistedFunctions_eq, scope_vars]

theorem mem_scope_vars {name : String} :
    name ∈ f.scope.vars ↔ name ∈ varNames f.body ∧ name ∉ f.params := by
  rw [scope_vars, List.mem_filter, mem_hoistedVars]
  simp

theorem scope_vars_order : f.scope.vars.Pairwise (FirstBefore (varNames f.body)) := by
  rw [scope_vars, hoistedVars_eq]
  exact (pairwise_eraseDups _).sublist List.filter_sublist

/-- The own name counts only if no declaration hides it. -/
theorem scope_ownName_iff {name : String} :
    f.scope.ownName = some name ↔ f.ownName = some name ∧ name ∉ f.scope.names := by
  rw [scope_ownName, scope_names, Option.filter_eq_some_iff]
  simp

/-- A variable needs a slot if a nested function uses it freely, be it to read or to write. -/
theorem captures_iff {name : String} :
    f.captures name = true ↔ ∃ access, FreeInside f.body ⟨access, name⟩ := by
  rw [captures, List.any_eq_true]
  constructor
  · rintro ⟨use, huse, hname⟩
    obtain rfl : use.name = name := by simpa using hname
    exact ⟨use.access, mem_escapingUses.mp huse⟩
  · rintro ⟨access, hfree⟩
    exact ⟨_, mem_escapingUses.mpr hfree, by simp⟩

/-- The function itself needs a slot if a nested function reads its name, for no write can mean it. -/
theorem scope_ownSlot_iff :
    (∃ index, f.scope.ownSlot = some index) ↔
      ∃ name, f.scope.ownName = some name ∧ FreeInside f.body ⟨.read, name⟩ := by
  rw [scope_ownSlot]
  cases f.scope.ownName with
  | none => simp
  | some name => simp [← mem_escapingUses]

/-- The own slot follows those of the declared names. -/
theorem scope_slots : f.scope.slots = List.range f.scope.contextSize := by
  rw [Scope.slots, scope_storage, Scope.filterMap_slot?_assignSlots, contextSize_eq, scope_ownSlot,
    ← List.range_eq_range']
  split <;> simp [List.range_succ]

/-- The scope that is computed has all the properties that define the analysis. -/
theorem scope_isAnalysis : f.scope.IsAnalysis f.ownName f.params f.body where
  params_eq := rfl
  mem_vars _ := f.mem_scope_vars
  vars_order := f.scope_vars_order
  mem_names _ := by rw [scope_names, declaredOnce_eq, List.mem_eraseDups]
  names_order := by
    rw [scope_names, declaredOnce_eq]
    exact pairwise_eraseDups _
  ownName_iff _ := f.scope_ownName_iff
  slot_iff _ _ h := (Scope.mem_assignSlots f.captures h).trans f.captures_iff
  ownSlot_iff := f.scope_ownSlot_iff
  slots_eq := f.scope_slots

end Frame

/-- The scope that is computed for a function with identifier parameters holds what the function declares, in
the order of first occurrences, and gives slots to what the functions in it leave free. -/
theorem scope_follows_free_names (ownName : Option String) (params : List String) (body : List Stmt) :
    ∃ scope, Scope.ofFunction ownName (params.map Expr.ident) body = .ok scope ∧
      scope.IsAnalysis ownName params body := by
  refine ⟨_, Scope.ofFunction_idents ownName params body, ?_⟩
  exact (Frame.mk ownName params body).scope_isAnalysis

end ScriptSsa
