import Mathlib.Tactic.ByContra
import Mathlib.Tactic.Tauto
import ScriptSsa.Proofs.Occurrence
import ScriptSsa.Scope.Resolution

/-!
Lexical scoping, read off the nesting of functions.

A name means what the innermost enclosing function says that declares it, and a function's own name is
declared for reads alone. `meaning` is that walk over the functions themselves; it knows nothing of slots.
The scopes that lowering looks into were computed one function at a time, each by a search through the
function's whole body. `resolve_means` says that looking a name up in them gives the lexical answer wherever
the name is used: a name that is found outside the function that uses it has a slot there, because the
search of that outer function has met the same use.
-/

namespace ScriptSsa

namespace Scope

variable (chosen : String → Bool)

theorem find?_assignSlots_of_not_mem {name : String} {names : List String} (next : Nat)
    (h : name ∉ names) :
    (assignSlots chosen next names).find? (fun s => s.1 = name) = none := by
  induction names generalizing next with
  | nil => rfl
  | cons head names ih =>
      obtain ⟨hhead, hnames⟩ := not_or.mp (mt List.mem_cons.mpr h)
      rw [assignSlots]
      split <;> simp [Ne.symm hhead, ih _ hnames]

theorem find?_assignSlots_of_not_chosen {name : String} {names : List String} (next : Nat)
    (h : name ∈ names) (hchosen : chosen name = false) :
    (assignSlots chosen next names).find? (fun s => s.1 = name) = some (name, .localVar) := by
  induction names generalizing next with
  | nil => cases h
  | cons head names ih =>
      rw [assignSlots]
      by_cases hhead : head = name
      · simp [hhead, hchosen]
      · have hmem : name ∈ names := (List.mem_cons.mp h).resolve_left (Ne.symm hhead)
        split <;> simp [hhead, ih _ hmem]

/-- A chosen name gets one of the slots that the chosen names before it leave. -/
theorem find?_assignSlots_of_chosen {name : String} {names : List String} (next : Nat)
    (h : name ∈ names) (hchosen : chosen name = true) :
    ∃ index, index < next + names.countP chosen ∧
      (assignSlots chosen next names).find? (fun s => s.1 = name) = some (name, .slot index) := by
  induction names generalizing next with
  | nil => cases h
  | cons head names ih =>
      rw [assignSlots, List.countP_cons]
      by_cases hhead : head = name
      · exact ⟨next, by simp [hhead, hchosen], by simp [hhead, hchosen]⟩
      · have hmem : name ∈ names := (List.mem_cons.mp h).resolve_left (Ne.symm hhead)
        split
        · obtain ⟨index, hlt, hfind⟩ := ih (next + 1) hmem
          exact ⟨index, by omega, by simp [hhead, hfind]⟩
        · obtain ⟨index, hlt, hfind⟩ := ih next hmem
          exact ⟨index, by omega, by simp [hhead, hfind]⟩

theorem countP_assignSlots (names : List String) (next : Nat) :
    (assignSlots chosen next names).countP (fun s => s.2 ≠ .localVar) = names.countP chosen := by
  induction names generalizing next with
  | nil => rfl
  | cons head names ih =>
      rw [assignSlots, List.countP_cons]
      split
      · rw [List.countP_cons, ih]
        rfl
      · rw [List.countP_cons, ih]
        rfl

end Scope

/-- A function as far as the names in it go: its own name, its parameters and its body. -/
structure Frame where
  ownName : Option String
  params : List String
  body : List Stmt

namespace Frame

def scope (f : Frame) : Scope := Scope.ofBody f.ownName f.params f.body

/-- The names that the function declares, by a parameter, a hoisted variable or a hoisted function. -/
def declared (f : Frame) : List String :=
  f.params ++ hoistedVars f.body ++ (hoistedFunctions f.body).filterMap id

/-- The shadow that the function casts on the uses inside it. -/
def shadow (f : Frame) : Shadow :=
  ⟨hoistedVars f.body ++ f.params ++ (hoistedFunctions f.body).filterMap id, f.ownName⟩

/-- The body uses the name, or the function gives it its first value on entry. -/
def Looks (f : Frame) (access : Access) (name : String) : Prop :=
  Item.use ⟨access, name⟩ ∈ itemsOf f.body ∨ access = .write ∧ name ∈ f.declared

variable (f : Frame) {name : String}

theorem hides_shadow {access : Access} :
    f.shadow.hides ⟨access, name⟩ = true ↔
      name ∈ f.declared ∨ access = .read ∧ f.ownName = some name := by
  rw [Shadow.hides, Bool.or_eq_true, Bool.and_eq_true, List.contains_iff_mem, decide_eq_true_eq,
    decide_eq_true_eq]
  simp only [shadow, declared, List.mem_append]
  tauto

/-- Whether a nested function uses the name. -/
def captures (name : String) : Bool := (escapingUses f.body).any fun use => use.name = name

/-- The declared names in the order of their slots. -/
def declaredOnce : List String :=
  (f.params ++ (hoistedVars f.body).filter (fun name => !f.params.contains name) ++
    (hoistedFunctions f.body).filterMap id).eraseDups

theorem mem_declaredOnce : name ∈ f.declaredOnce ↔ name ∈ f.declared := by
  simp only [declaredOnce, declared, List.mem_eraseDups, List.mem_append, List.mem_filter,
    Bool.not_eq_true', List.contains_eq_mem, decide_eq_false_iff_not]
  tauto

theorem scope_storage : f.scope.storage = Scope.assignSlots f.captures 0 f.declaredOnce := rfl

theorem scope_ownName : f.scope.ownName = f.ownName.filter fun name => !f.declaredOnce.contains name := rfl

theorem scope_ownSlot :
    f.scope.ownSlot =
      if f.scope.ownName.any fun name => (escapingUses f.body).contains ⟨.read, name⟩ then
        some (f.declaredOnce.countP f.captures)
      else none := rfl

theorem contextSize_eq :
    f.scope.contextSize =
      f.declaredOnce.countP f.captures + if f.scope.ownSlot.isSome then 1 else 0 := by
  rw [Scope.contextSize, scope_storage, Scope.countP_assignSlots]

theorem storage?_of_not_declared (h : name ∉ f.declared) : f.scope.storage? name = none := by
  rw [Scope.storage?, scope_storage,
    Scope.find?_assignSlots_of_not_mem _ _ (mt f.mem_declaredOnce.mp h), Option.map_none]

theorem storage?_of_captured (h : name ∈ f.declared) (hcaptured : f.captures name = true) :
    ∃ index, f.scope.storage? name = some (.slot index) ∧ index < f.scope.contextSize := by
  obtain ⟨index, hlt, hfind⟩ :=
    Scope.find?_assignSlots_of_chosen f.captures 0 (f.mem_declaredOnce.mpr h) hcaptured
  refine ⟨index, ?_, ?_⟩
  · rw [Scope.storage?, scope_storage, hfind, Option.map_some]
  · rw [contextSize_eq]
    omega

theorem storage?_of_not_captured (h : name ∈ f.declared) (hcaptured : f.captures name = false) :
    f.scope.storage? name = some .localVar := by
  rw [Scope.storage?, scope_storage,
    Scope.find?_assignSlots_of_not_chosen _ _ (f.mem_declaredOnce.mpr h) hcaptured, Option.map_some]

theorem isOwn_iff (h : name ∉ f.declared) : f.scope.isOwn name = true ↔ f.ownName = some name := by
  have hnot : f.declaredOnce.contains name = false := by
    simpa [List.contains_eq_mem] using mt f.mem_declaredOnce.mp h
  rw [Scope.isOwn, scope_ownName, decide_eq_true_eq, Option.filter_eq_some_iff]
  exact ⟨fun hown => hown.1, fun hown => ⟨hown, by rw [hnot]; rfl⟩⟩

theorem ownSlot_of_read (h : name ∉ f.declared) (hown : f.ownName = some name)
    (hread : ⟨.read, name⟩ ∈ escapingUses f.body) :
    ∃ index, f.scope.ownSlot = some index ∧ index < f.scope.contextSize := by
  have hname : f.scope.ownName = some name := by
    simpa [Scope.isOwn] using (f.isOwn_iff h).mpr hown
  have hslot : f.scope.ownSlot = some (f.declaredOnce.countP f.captures) := by
    rw [scope_ownSlot, hname, if_pos]
    simpa using hread
  refine ⟨_, hslot, ?_⟩
  rw [contextSize_eq, hslot]
  simp

end Frame

/-- Where the walk over the enclosing functions stops. -/
inductive Meaning where
  /-- At a function that declares the name, so many functions further out. -/
  | declared (depth : Nat) (frame : Frame)
  /-- At a function whose own name it is. -/
  | own (depth : Nat) (frame : Frame)
  | global

/-- The lexical meaning of a name inside the given functions, the innermost first, the first of them
being `depth` functions out. -/
def meaning (access : Access) (name : String) : (depth : Nat) → List Frame → Meaning
  | _, [] => .global
  | depth, f :: outer =>
    if name ∈ f.declared then .declared depth f
    else if access = .read ∧ f.ownName = some name then .own depth f
    else meaning access name (depth + 1) outer

/-- The answers that carry a meaning out. A local variable is reached from its own function only; from
inside other functions it takes a slot of the declaring function's context, and so does a function that is
read by its own name. -/
def Meaning.IsAnswer (name : String) : Meaning → Resolution → Prop
  | declared depth f, .localVar => depth = 0 ∧ f.scope.storage? name = some .localVar
  | declared depth f, .slot d index =>
    d = depth ∧ f.scope.storage? name = some (.slot index) ∧ index < f.scope.contextSize
  | own depth _, .own => depth = 0
  | own depth f, .slot d index =>
    d = depth ∧ 0 < depth ∧ f.scope.ownSlot = some index ∧ index < f.scope.contextSize
  | global, .global => True
  | _, _ => False

/-- The functions around a place of a script, the innermost first, down from the top level. -/
inductive Nest (p : Program) : List Frame → Prop where
  | top : Nest p [⟨none, [], p.body⟩]
  | inside {outer : Frame} {rest : List Frame} {f : Function} {params : List String}
      (hrest : Nest p (outer :: rest)) (hitem : Item.function f ∈ itemsOf outer.body)
      (hparams : f.params = params.map Expr.ident) :
      Nest p (⟨f.name, params, f.body⟩ :: outer :: rest)

theorem shadow_ofFunction {f : Function} {params : List String} (h : f.params = params.map Expr.ident) :
    Shadow.ofFunction f = (Frame.mk f.name params f.body).shadow := by
  have hident : (params.map Expr.ident).filterMap Expr.ident? = params := by
    rw [List.filterMap_map]
    exact List.filterMap_some
  rw [Shadow.ofFunction, h, hident, Frame.shadow]

/-- What a nested function uses from outside itself, its outer function's search meets. -/
theorem usesOf_subset_of_item {f : Function} {params : List String} {body : List Stmt}
    (hitem : Item.function f ∈ itemsOf body) (hparams : f.params = params.map Expr.ident)
    (shadows : List Shadow) :
    usesOf ((Frame.mk f.name params f.body).shadow :: shadows) f.body ⊆ usesOf shadows body := by
  intro use huse
  rw [usesOf_eq shadows body, List.mem_flatMap]
  refine ⟨_, hitem, ?_⟩
  obtain ⟨name, ps, fbody, isGenerator, isAsync⟩ := f
  rw [Item.uses, Function.uses, shadow_ofFunction hparams]
  exact List.mem_append_right _ huse

theorem Use.mem_escaping {shadows : List Shadow} {use : Use} (hne : shadows ≠ [])
    (h : ∀ s ∈ shadows, s.hides use = false) : use ∈ use.escaping shadows := by
  have hany : shadows.any (·.hides use) = false := by
    simpa using h
  simp [Use.escaping, hne, hany]

section Resolution

variable {p : Program} {access : Access} {name : String}

/-- The walk through the scopes follows the walk through the functions. `shadows` are those of the functions
already left, none of which hides the use; under them, each function still to come has met the use. -/
theorem resolveFrom_means {fs : List Frame} (hnest : Nest p fs) :
    ∀ shadows : List Shadow, (∀ s ∈ shadows, s.hides ⟨access, name⟩ = false) →
      (∀ f ∈ fs.head?, ∀ under, Use.escaping (shadows ++ under) ⟨access, name⟩ ⊆ usesOf under f.body) →
      ∃ r, Scope.resolveFrom access name shadows.length (fs.map Frame.scope) = .ok r ∧
        (meaning access name shadows.length fs).IsAnswer name r := by
  induction fs with
  | nil => cases hnest
  | cons f outer ih =>
      intro shadows hvisible hmet
      -- Away from its own function, the use is among those that the search of `f` reports.
      have hescapes : shadows ≠ [] → ⟨access, name⟩ ∈ escapingUses f.body := by
        intro hne
        have hsub := hmet f rfl []
        rw [List.append_nil] at hsub
        exact hsub (Use.mem_escaping hne hvisible)
      rw [List.map_cons, Scope.resolveFrom, meaning]
      by_cases hdeclared : name ∈ f.declared
      · rw [if_pos hdeclared]
        cases hcaptured : f.captures name with
        | true =>
            obtain ⟨index, hstorage, hlt⟩ := f.storage?_of_captured hdeclared hcaptured
            exact ⟨.slot shadows.length index, by rw [hstorage], rfl, hstorage, hlt⟩
        | false =>
            have hstorage := f.storage?_of_not_captured hdeclared hcaptured
            have hnil : shadows = [] := by
              by_contra hne
              have hany : f.captures name = true :=
                List.any_eq_true.mpr ⟨_, hescapes hne, decide_eq_true rfl⟩
              rw [hcaptured] at hany
              cases hany
            exact ⟨.localVar, by rw [hstorage, hnil]; rfl, by rw [hnil]; rfl, hstorage⟩
      · rw [if_neg hdeclared, f.storage?_of_not_declared hdeclared]
        by_cases hown : access = .read ∧ f.ownName = some name
        · rw [if_pos hown]
          simp only [hown.1, (f.isOwn_iff hdeclared).mpr hown.2, and_self, if_true]
          by_cases hnil : shadows = []
          · exact ⟨.own, by simp [hnil], by rw [hnil]; rfl⟩
          · have hread : ⟨.read, name⟩ ∈ escapingUses f.body := hown.1 ▸ hescapes hnil
            obtain ⟨index, hslot, hlt⟩ := f.ownSlot_of_read hdeclared hown.2 hread
            have hpos : 0 < shadows.length := List.length_pos_iff.mpr hnil
            refine ⟨.slot shadows.length index, ?_, rfl, hpos, hslot, hlt⟩
            rw [if_neg (by omega), hslot]
        · rw [if_neg hown]
          have hscope : ¬(access = .read ∧ f.scope.isOwn name = true) :=
            fun h => hown ⟨h.1, (f.isOwn_iff hdeclared).mp h.2⟩
          simp only [if_neg hscope]
          cases hnest with
          | top => exact ⟨.global, rfl, trivial⟩
          | @inside g rest fn params hrest hitem hparams =>
              have hnothidden : (Frame.mk fn.name params fn.body).shadow.hides ⟨access, name⟩ = false := by
                rw [Bool.eq_false_iff]
                exact fun h => ((Frame.hides_shadow _).mp h).elim hdeclared hown
              have hlength :
                  (shadows ++ [(Frame.mk fn.name params fn.body).shadow]).length = shadows.length + 1 := by
                simp
              rw [← hlength]
              refine ih hrest _ ?_ ?_
              · intro s hs
                rcases List.mem_append.mp hs with hs | hs
                · exact hvisible s hs
                · rw [List.mem_singleton.mp hs]
                  exact hnothidden
              · intro outer' houter under
                obtain rfl : g = outer' := Option.some.inj houter
                rw [List.append_assoc]
                exact List.Subset.trans (hmet _ rfl _) (usesOf_subset_of_item hitem hparams under)

/-- A name resolves lexically wherever the innermost function looks it up. -/
theorem resolve_means {f : Frame} {outer : List Frame} (hnest : Nest p (f :: outer))
    (hlooks : f.Looks access name) :
    ∃ r, Scope.resolve ((f :: outer).map Frame.scope) access name = .ok r ∧
      (meaning access name 0 (f :: outer)).IsAnswer name r := by
  rcases hlooks with hitem | ⟨_, hdeclared⟩
  · refine resolveFrom_means hnest [] (by simp) ?_
    intro g hg under use huse
    obtain rfl : f = g := Option.some.inj hg
    rw [usesOf_eq, List.mem_flatMap]
    exact ⟨_, hitem, huse⟩
  · rw [Scope.resolve, List.map_cons, Scope.resolveFrom, meaning, if_pos hdeclared]
    cases hcaptured : f.captures name with
    | true =>
        obtain ⟨index, hstorage, hlt⟩ := f.storage?_of_captured hdeclared hcaptured
        exact ⟨.slot 0 index, by rw [hstorage], rfl, hstorage, hlt⟩
    | false =>
        have hstorage := f.storage?_of_not_captured hdeclared hcaptured
        exact ⟨.localVar, by rw [hstorage]; rfl, rfl, hstorage⟩

end Resolution

namespace Frame

variable {f : Frame} {name : String}

theorem mem_declared_of_var (h : .var name ∈ declarationsOf f.body) : name ∈ f.declared := by
  have hvar : name ∈ hoistedVars f.body := by
    rw [hoistedVars, List.mem_eraseDups, List.mem_filterMap]
    exact ⟨_, h, rfl⟩
  simp only [declared, List.mem_append]
  exact .inl (.inr hvar)

theorem mem_declared_of_function (h : .function (some name) ∈ declarationsOf f.body) : name ∈ f.declared := by
  have hfunction : some name ∈ hoistedFunctions f.body := by
    rw [hoistedFunctions, List.mem_filterMap]
    exact ⟨_, h, rfl⟩
  simp only [declared, List.mem_append, List.mem_filterMap]
  exact .inr ⟨_, hfunction, rfl⟩

theorem mem_declared_of_param (h : name ∈ f.params) : name ∈ f.declared := by
  simp only [declared, List.mem_append]
  exact .inl (.inl h)

end Frame

/-- A function has a scope unless one of its parameters is no identifier. -/
theorem Scope.ofFunction_cases (ownName : Option String) (params : List Expr) (body : List Stmt) :
    (∃ names, params = names.map Expr.ident ∧
      Scope.ofFunction ownName params body = .ok (Frame.mk ownName names body).scope) ∨
    (params.all fun param => param.ident?.isSome) = false ∧
      ∃ what, Scope.ofFunction ownName params body = .error (.unsupported what) := by
  have hparams : (∃ names, params = names.map Expr.ident ∧ params.mapM Scope.paramName = .ok names) ∨
      (params.all fun param => param.ident?.isSome) = false ∧
        ∃ what, params.mapM Scope.paramName = .error (.unsupported what) := by
    induction params with
    | nil => exact .inl ⟨[], rfl, rfl⟩
    | cons param rest ih =>
        rw [List.mapM_cons, List.all_cons]
        cases param with
        | ident name =>
            rcases ih with ⟨names, hrest, hmap⟩ | ⟨hall, what, hmap⟩
            · refine .inl ⟨name :: names, by rw [hrest, List.map_cons], ?_⟩
              rw [hmap]
              rfl
            · refine .inr ⟨by rw [hall, Bool.and_false], what, ?_⟩
              rw [hmap]
              rfl
        | _ => exact .inr ⟨rfl, _, rfl⟩
  rw [Scope.ofFunction]
  rcases hparams with ⟨names, hnames, hmap⟩ | ⟨hall, what, hmap⟩
  · refine .inl ⟨names, hnames, ?_⟩
    rw [hmap]
    rfl
  · refine .inr ⟨hall, what, ?_⟩
    rw [hmap]
    rfl

theorem Scope.ofFunction_idents (ownName : Option String) (names : List String) (body : List Stmt) :
    Scope.ofFunction ownName (names.map Expr.ident) body = .ok (Frame.mk ownName names body).scope := by
  rcases Scope.ofFunction_cases ownName (names.map Expr.ident) body with ⟨idents, hidents, hscope⟩ | ⟨hall, _⟩
  · rw [hscope, (List.map_inj_right fun _ _ => Expr.ident.inj).mp hidents]
  · simp [Expr.ident?] at hall

end ScriptSsa
