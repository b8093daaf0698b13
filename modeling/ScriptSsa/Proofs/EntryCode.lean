import ScriptSsa.Proofs.LoweringSteps

/-!
The code on entry to a function.

Arguments are stored into the parameters, hoisted variables get their first value, and hoisted function
declarations are lowered and stored. All of this goes to the entry block and reads no local variable. It binds every
local variable that the function declares, and the hoisted variables that have a slot as well.
-/

namespace ScriptSsa

open Build

/-! Local variables belong to the innermost function. -/

/-- A variable of an outer function is never local. -/
theorem Scope.resolveFrom_ne_localVar {access : Access} {name : String} {scopes : List Scope} {depth : Nat}
    (hdepth : depth ≠ 0) : resolveFrom access name depth scopes ≠ .ok .localVar := by
  induction scopes generalizing depth with
  | nil => simp [resolveFrom]
  | cons scope outer ih =>
      have hrest : resolveFrom access name (depth + 1) outer ≠ .ok .localVar := ih (Nat.succ_ne_zero depth)
      simp only [resolveFrom, hdepth, if_false]
      split
      · simp
      · simp
      · split
        · split
          · simp
          · exact hrest
        · exact hrest

/-- A name is local exactly if its own scope stores it so. -/
theorem Scope.resolve_eq_localVar {scope : Scope} {outer : List Scope} {access : Access} {name : String} :
    resolve (scope :: outer) access name = .ok .localVar ↔ scope.storage? name = some .localVar := by
  have hrest : resolveFrom access name 1 outer ≠ .ok .localVar := resolveFrom_ne_localVar Nat.one_ne_zero
  rw [resolve, resolveFrom]
  cases hstorage : scope.storage? name with
  | none =>
      simp only [if_true]
      split
      · simp
      · simpa using hrest
  | some storage =>
      cases storage with
      | localVar => simp
      | slot index => simp

/-- The names that live in local variables of the function. -/
def Scope.IsLocal (scope : Scope) (name : String) : Prop := scope.storage? name = some .localVar

instance (scope : Scope) : DecidablePred scope.IsLocal := fun name =>
  inferInstanceAs (Decidable (scope.storage? name = some .localVar))

/-! The start of a function. -/

/-- The instruction reads no local variable. -/
def Instr.ReadsNoLocal (i : Instr) : Prop := ∀ name, .localVar name ∉ i.operands

/-- The instruction gives a hoisted variable its first value. -/
def Clears (name : String) (i : Instr) : Prop :=
  i.opcode = .literal ∧ i.operands = [.constant .undefined] ∧ i.binding = some name

/-- There is only the entry block so far, with the given instructions. -/
structure Builder.Starting (s : Builder) (entry : BlockId) (instrs : List Instr) : Prop where
  current : s.current = entry
  blocks : s.blocks = [⟨entry, instrs, []⟩]

namespace Builder.Starting

variable {s : Builder} {entry : BlockId} {instrs : List Instr}

theorem nested (s : Builder) : s.nested.Starting s.supply.nextBlock [] := ⟨rfl, rfl⟩

theorem at_entry (h : s.Starting entry instrs) : s.At ⟨entry, instrs, []⟩ := by
  rw [At, block?, h.current, h.blocks]
  simp

theorem nodup (h : s.Starting entry instrs) : s.ids.Nodup := by
  rw [ids, h.blocks]
  exact List.nodup_singleton _

theorem draw (h : s.Starting entry instrs) : s.draw.Starting entry instrs := ⟨h.current, h.blocks⟩

/-- Control has not left the first block, so all code goes there. -/
theorem emit {binding : Option String} {opcode : Opcode} {operands : List Operand} (h : s.Starting entry instrs) :
    (s.emit binding opcode operands).Starting entry
      (instrs ++ [⟨s.supply.nextInstr, opcode, operands, binding⟩]) := by
  refine ⟨h.current, ?_⟩
  change (s.blocks.map fun b => if b.id = s.current then _ else b) = _
  rw [h.blocks, h.current]
  simp

end Builder.Starting

/-- Instructions that read no local variable and bind the given names, one after the other. -/
structure Loads (bound : List String) (instrs : List Instr) : Prop where
  reads : ∀ i ∈ instrs, i.ReadsNoLocal
  binds : instrs.filterMap Instr.binding = bound

theorem Loads.append {bound bound' : List String} {instrs instrs' : List Instr} (h : Loads bound instrs)
    (h' : Loads bound' instrs') : Loads (bound ++ bound') (instrs ++ instrs') where
  reads := List.forall_mem_append.mpr ⟨h.reads, h'.reads⟩
  binds := by rw [List.filterMap_append, h.binds, h'.binds]

namespace Build

variable {α β : Type} {names : Names} {scope : Scope} {bound bound' : List String}

/-- On entry to a function, the run adds such instructions to the entry block. -/
def Prepares (m : Build α) (bound : List String) : Prop :=
  ∀ s entry instrs a t, s.Starting entry instrs → m s = .ok a t →
    ∃ more, t.Starting entry (instrs ++ more) ∧ Loads bound more

theorem Prepares.pure (a : α) : Prepares (Pure.pure a : Build α) [] := by
  rintro s entry instrs _ _ hs ⟨⟩
  exact ⟨[], by rwa [List.append_nil], nofun, rfl⟩

/-- The loads of the first part come first. -/
theorem Prepares.bind {m : Build α} {f : α → Build β} (hm : Prepares m bound) (hf : ∀ a, Prepares (f a) bound') :
    Prepares (m >>= f) (bound ++ bound') := by
  intro s entry instrs b u hs h
  obtain ⟨a, t, hrun, hrest⟩ := bind_eq_ok h
  obtain ⟨more, ht, hloads⟩ := hm s entry instrs a t hs hrun
  obtain ⟨more', hu, hloads'⟩ := hf a t entry _ b u ht hrest
  exact ⟨more ++ more', by rwa [← List.append_assoc], hloads.append hloads'⟩

/-- Writes look the names up as the scope says. -/
def WritesIn (names : Names) (scope : Scope) : Prop :=
  ∀ name, names.find .write name = .ok .localVar ↔ scope.IsLocal name

/-- A value that has just been produced is stored. The instruction that produced it takes the binding if the name is
a local variable; otherwise another instruction stores the value. -/
theorem writeName_starting (hnames : WritesIn names scope) {s t : Builder} {entry : BlockId}
    {instrs : List Instr} {name : String} {opcode : Opcode} {operands : List Operand} {v : Operand}
    (hs : s.Starting entry instrs) (hyields : opcode.yieldsValue = true) (hphi : opcode ≠ .phi)
    (hreads : ∀ name, .localVar name ∉ operands)
    (h : writeName names name (.instr s.supply.nextInstr) (s.emit none opcode operands) = .ok v t) :
    ∃ more, t.Starting entry (instrs ++ more) ∧ Loads ([name].filter fun name => scope.IsLocal name) more := by
  have hemit : (s.emit none opcode operands).Starting entry _ := hs.emit
  have hstored : ∀ (u : Builder) store keys,
      u.Starting entry (instrs ++ [⟨s.supply.nextInstr, opcode, operands, none⟩]) →
      (∀ name, .localVar name ∉ keys) → ¬scope.IsLocal name →
      ∃ more, (u.emit none store keys).Starting entry (instrs ++ more) ∧
        Loads ([name].filter fun name => scope.IsLocal name) more := by
    intro u store keys hu hkeys hlocal
    refine ⟨[_, _], (List.append_assoc _ _ _) ▸ hu.emit, fun i hi => ?_, by simp [hlocal]⟩
    rcases List.mem_pair.mp hi with rfl | rfl
    · exact hreads
    · exact hkeys
  obtain ⟨r, u, hresolve, h⟩ := bind_eq_ok h
  obtain ⟨hfind, rfl⟩ := resolve_eq_ok hresolve
  have hlocal : scope.IsLocal name ↔ r = .localVar := by
    rw [← hnames name, hfind, Except.ok.injEq]
  cases r with
  | localVar =>
      obtain ⟨_, u, hbind, hpure⟩ := bind_eq_ok h
      rw [bindLocal_eq hemit.at_entry, Builder.bindLocal_emit hs.nodup hs.at_entry hyields hphi] at hbind
      cases hbind
      cases hpure
      refine ⟨_, hs.emit, fun i hi => ?_, by simp [hlocal]⟩
      rw [List.mem_singleton.mp hi]
      exact hreads
  | slot depth index =>
      obtain ⟨_, u, hstore, hpure⟩ := bind_eq_ok h
      have hsteps : storeContext depth index (.instr s.supply.nextInstr) (s.emit none opcode operands) =
          perform .storeContext [.count depth, .count index, .instr s.supply.nextInstr]
            (s.emit none opcode operands).draw.draw := rfl
      rw [hsteps, perform_eq hemit.draw.draw.at_entry] at hstore
      cases hstore
      cases hpure
      exact hstored _ _ _ hemit.draw.draw (by simp) (by simp [hlocal])
  | global | own =>
      have hsteps : (perform .storeGlobal [.constant (.string name), .instr s.supply.nextInstr] >>= fun _ =>
          pure (Operand.instr s.supply.nextInstr) : Build Operand) (s.emit none opcode operands).draw = .ok v t := h
      obtain ⟨_, u, hstore, hpure⟩ := bind_eq_ok hsteps
      rw [perform_eq hemit.draw.at_entry] at hstore
      cases hstore
      cases hpure
      exact hstored _ _ _ hemit.draw (by simp) (by simp [hlocal])

/-- Parameters that are captured go to their slots and bind nothing. -/
theorem loadParams_prepares (hnames : WritesIn names scope) (params : List String) (position : Nat) :
    Prepares (loadParams names position params) (params.filter fun name => scope.IsLocal name) := by
  induction params generalizing position with
  | nil => exact Prepares.pure ()
  | cons name rest ih =>
      intro s entry instrs a t hs h
      have hsteps : (do
          let argument ← emit .loadArg [.count position]
          let _ ← writeName names name argument
          loadParams names (position + 1) rest : Build Unit) s.draw = .ok a t := h
      obtain ⟨argument, u, hemit, hsteps⟩ := bind_eq_ok hsteps
      rw [emit_eq hs.draw.at_entry] at hemit
      cases hemit
      obtain ⟨v, u, hwrite, hrest⟩ := bind_eq_ok hsteps
      obtain ⟨more, hu, hloads⟩ := writeName_starting hnames hs.draw rfl (by simp) (by simp) hwrite
      obtain ⟨more', ht, hloads'⟩ := ih (position + 1) u entry _ a t hu hrest
      refine ⟨more ++ more', by rwa [← List.append_assoc], ?_⟩
      rw [← List.singleton_append, List.filter_append]
      exact hloads.append hloads'

/-- The function itself is never a local variable. -/
theorem loadSelf_prepares (slot : Option Nat) : Prepares (loadSelf slot) [] := by
  cases slot with
  | none => exact Prepares.pure ()
  | some slot =>
      intro s entry instrs a t hs h
      obtain ⟨self, u, hemit, hstore⟩ := bind_eq_ok h
      rw [emit_eq hs.at_entry] at hemit
      cases hemit
      have hsteps : perform .storeContext [.count 0, .count slot, .instr s.supply.nextInstr]
          (s.emit none .self []).draw.draw = .ok a t := hstore
      rw [perform_eq hs.emit.draw.draw.at_entry] at hsteps
      cases hsteps
      refine ⟨[_, _], (List.append_assoc _ _ _) ▸ hs.emit.draw.draw.emit, ?_, rfl⟩
      simp [Instr.ReadsNoLocal]

/-- The hoisted variables are bound in their order. -/
theorem clearVars_starting {vars : List String} {s t : Builder} {entry : BlockId} {instrs : List Instr} {a : Unit}
    (hs : s.Starting entry instrs) (h : clearVars vars s = .ok a t) :
    ∃ hoisted, t.Starting entry (instrs ++ hoisted) ∧ List.Forall₂ Clears vars hoisted := by
  induction vars generalizing s instrs with
  | nil =>
      cases h
      exact ⟨[], by rwa [List.append_nil], .nil⟩
  | cons name rest ih =>
      have hsteps : (do
          let undefined ← emit .literal [.constant .undefined]
          bindLocal name undefined
          clearVars rest : Build Unit) s.draw = .ok a t := h
      obtain ⟨undefined, u, hemit, hsteps⟩ := bind_eq_ok hsteps
      rw [emit_eq hs.draw.at_entry] at hemit
      cases hemit
      obtain ⟨_, u, hbind, hrest⟩ := bind_eq_ok hsteps
      have hphi : Opcode.literal ≠ .phi := nofun
      rw [bindLocal_eq hs.draw.emit.at_entry, Builder.bindLocal_emit hs.draw.nodup hs.draw.at_entry rfl hphi] at hbind
      cases hbind
      obtain ⟨hoisted, ht, hclears⟩ := ih hs.draw.emit hrest
      exact ⟨_ :: hoisted, (List.append_assoc _ _ _) ▸ ht, .cons ⟨rfl, rfl, rfl⟩ hclears⟩

end Build

/-- The names of the function declarations among the given ones. -/
def declaredFunctions (ds : List Declaration) : List String := (ds.filterMap Declaration.function?).filterMap id

@[simp] theorem declaredFunctions_append (ds ds' : List Declaration) :
    declaredFunctions (ds ++ ds') = declaredFunctions ds ++ declaredFunctions ds' := by
  rw [declaredFunctions, List.filterMap_append, List.filterMap_append]
  rfl

@[simp] theorem declaredFunctions_vars (names : List String) : declaredFunctions (names.map .var) = [] := by
  rw [declaredFunctions, List.filterMap_map]
  induction names with
  | nil => rfl
  | cons name names ih => exact ih

@[simp] theorem declaredFunctions_init (init : Option ForInit) :
    declaredFunctions (ForInit.declarations init) = [] := by
  unfold ForInit.declarations
  split
  · exact declaredFunctions_vars _
  · rfl

namespace Build

variable {names : Names} {scope : Scope}

/-- A function declaration is lowered on the side, and the instruction that yields it is bound or its value stored. -/
theorem lowerFunction_prepares (hnames : WritesIn names scope) (fn : Function) :
    Prepares (lowerDeclaredIn names (.function fn))
      ((declaredFunctions [.function fn.name]).filter fun name => scope.IsLocal name) := by
  intro s entry instrs a u hs h
  rw [lowerDeclaredIn] at h
  obtain ⟨v, t, hfunction, h⟩ := bind_eq_ok h
  obtain ⟨b, g, t, _, hrun, rfl, rfl⟩ := lowerFunction_eq_ok hfunction
  have ht : (Builder.draw { t with finished := t.finished.push g }).Starting entry instrs := by
    obtain ⟨_, _, _, _, _, _, rfl⟩ := lowerGraph_eq_ok hrun
    exact ⟨hs.current, hs.blocks⟩
  cases hname : fn.name with
  | none =>
      rw [hname] at h
      cases h
      exact ⟨_, ht.emit, by simp [Instr.ReadsNoLocal], rfl⟩
  | some name =>
      rw [hname] at h
      obtain ⟨v, u, hwrite, hpure⟩ := bind_eq_ok h
      cases hpure
      exact writeName_starting hnames ht rfl (by simp) (by simp) hwrite

mutual

/-- Declared functions are stored in the order of the source. -/
theorem lowerDeclared_prepares (hnames : WritesIn names scope) : (body : List Stmt) →
    Prepares (lowerDeclared names body)
      ((declaredFunctions (declarationsOf body)).filter fun name => scope.IsLocal name)
  | [] => by
    rw [lowerDeclared]
    exact Prepares.pure ()
  | s :: ss => by
    have hhead := lowerDeclaredIn_prepares hnames s
    have htail := lowerDeclared_prepares hnames ss
    rw [lowerDeclared, declarationsOf, declaredFunctions_append, List.filter_append]
    exact hhead.bind fun _ => htail

theorem lowerDeclaredIn_prepares (hnames : WritesIn names scope) : (s : Stmt) →
    Prepares (lowerDeclaredIn names s) ((declaredFunctions s.declarations).filter fun name => scope.IsLocal name)
  | .function fn => by
    rw [Stmt.declarations]
    exact lowerFunction_prepares hnames fn
  | .block body => by
    rw [lowerDeclaredIn, Stmt.declarations]
    exact lowerDeclared_prepares hnames body
  | .branch test consequent alternate => by
    have hthen := lowerDeclaredIn_prepares hnames consequent
    have helse := lowerDeclaredInAlternate_prepares hnames alternate
    rw [lowerDeclaredIn, Stmt.declarations, declaredFunctions_append, List.filter_append]
    exact hthen.bind fun _ => helse
  | .whileLoop test body => by
    rw [lowerDeclaredIn, Stmt.declarations]
    exact lowerDeclaredIn_prepares hnames body
  | .doWhile body test => by
    rw [lowerDeclaredIn, Stmt.declarations]
    exact lowerDeclaredIn_prepares hnames body
  | .forLoop init test update body => by
    rw [lowerDeclaredIn, Stmt.declarations, declaredFunctions_append, declaredFunctions_init]
    exact lowerDeclaredIn_prepares hnames body
  | .labeled label body => by
    rw [lowerDeclaredIn, Stmt.declarations]
    exact lowerDeclaredIn_prepares hnames body
  | .var d => by
    rw [lowerDeclaredIn, Stmt.declarations, declaredFunctions_vars]
    exact Prepares.pure ()
  | .expr _ | .empty | .jump _ _ | .ret _ | .unsupported _ => by
    rw [lowerDeclaredIn, Stmt.declarations]
    exact Prepares.pure ()

theorem lowerDeclaredInAlternate_prepares (hnames : WritesIn names scope) : (s : Option Stmt) →
    Prepares (lowerDeclaredInAlternate names s)
      ((declaredFunctions (declarationsOfAlternate s)).filter fun name => scope.IsLocal name)
  | none => by
    rw [lowerDeclaredInAlternate]
    exact Prepares.pure ()
  | some s => by
    rw [lowerDeclaredInAlternate, declarationsOfAlternate]
    exact lowerDeclaredIn_prepares hnames s

end

end Build

/-- The code on entry, by its parts. -/
structure Scope.EntryCode (scope : Scope) (loads hoisted functions : List Instr) : Prop where
  params : Loads (scope.params.filter fun name => scope.IsLocal name) loads
  vars : List.Forall₂ Clears scope.vars hoisted
  functions : Loads ((scope.functions.filterMap id).filter fun name => scope.IsLocal name) functions

/-- A function starts with its parameters, its variables and its declared functions, in this order and in its first
block. -/
theorem lowerBody_starts {names : Names} {f : Frame} {s t : Builder} (hnames : WritesIn names f.scope)
    (h : lowerBody names f s.nested = .ok () t) :
    ∃ u loads hoisted functions, u.Starting s.supply.nextBlock (loads ++ hoisted ++ functions) ∧
      f.scope.EntryCode loads hoisted functions ∧ lowerStmts names f.body u = .ok () t := by
  obtain ⟨_, s₃, hprologue, h⟩ := bind_eq_ok h
  obtain ⟨_, s₁, hparams, hprologue⟩ := bind_eq_ok hprologue
  obtain ⟨_, s₂, hself, hvars⟩ := bind_eq_ok hprologue
  obtain ⟨_, s₄, hdeclared, hstmts⟩ := bind_eq_ok h
  obtain ⟨loads, hs₁, hloads⟩ := loadParams_prepares hnames _ _ _ _ _ _ _ (.nested s) hparams
  obtain ⟨more, hs₂, hmore⟩ := loadSelf_prepares _ _ _ _ _ _ hs₁ hself
  obtain ⟨hoisted, hs₃, hclears⟩ := clearVars_starting hs₂ hvars
  obtain ⟨functions, hs₄, hfunctions⟩ := lowerDeclared_prepares hnames f.body _ _ _ _ _ hs₃ hdeclared
  refine ⟨s₄, loads ++ more, hoisted, functions, hs₄, ⟨?_, hclears, hfunctions⟩, hstmts⟩
  rw [← List.append_nil (List.filter _ _)]
  exact hloads.append hmore

theorem Loads.exists_bound {bound : List String} {instrs : List Instr} {name : String} (h : Loads bound instrs) :
    (∃ i ∈ instrs, i.binding = some name) ↔ name ∈ bound := by
  rw [← h.binds, List.mem_filterMap]

theorem nodup_eraseDups : (names : List String) → names.eraseDups.Nodup
  | [] => List.nodup_nil
  | name :: names => by
    rw [List.eraseDups_cons, List.nodup_cons]
    exact ⟨by simp [List.mem_eraseDups], nodup_eraseDups _⟩
termination_by names => names.length
decreasing_by exact Nat.lt_succ_of_le (List.length_filter_le _ _)

theorem Frame.nodup_vars (f : Frame) : f.scope.vars.Nodup := (nodup_eraseDups _).filter _

theorem exists_left_of_forall₂ {α β : Type} {R : α → β → Prop} {xs : List α} {ys : List β} {y : β}
    (h : List.Forall₂ R xs ys) (hy : y ∈ ys) : ∃ x ∈ xs, R x y := by
  induction h with
  | nil => cases hy
  | @cons x _ _ _ hxy _ ih =>
      rcases List.mem_cons.mp hy with rfl | hy
      · exact ⟨x, List.mem_cons_self, hxy⟩
      · obtain ⟨x, hx, hxy⟩ := ih hy
        exact ⟨x, List.mem_cons_of_mem _ hx, hxy⟩

/-- As often as a name is among the variables, an instruction is bound to it. -/
theorem countP_hoisted {vars : List String} {hoisted : List Instr} (h : List.Forall₂ Clears vars hoisted)
    (name : String) : hoisted.countP (fun i => i.binding = some name) = vars.count name := by
  induction h with
  | nil => rfl
  | cons hclears _ ih => simp [List.countP_cons, List.count_cons, ih, hclears.2.2]

namespace Scope.EntryCode

variable {f : Frame} {loads hoisted functions : List Instr} {i : Instr} {name : String}

/-- No code on entry reads a local variable, so none is read before it is bound. -/
theorem readsNoLocal (h : f.scope.EntryCode loads hoisted functions) (hi : i ∈ loads ++ hoisted ++ functions) :
    i.ReadsNoLocal := by
  simp only [List.mem_append] at hi
  rcases hi with (hi | hi) | hi
  · exact h.params.reads i hi
  · obtain ⟨_, _, _, hoperands, _⟩ := exists_left_of_forall₂ h.vars hi
    simp [Instr.ReadsNoLocal, hoperands]
  · exact h.functions.reads i hi

/-- What is bound outside the hoisted variables is a local variable. -/
theorem isLocal_of_binding (h : f.scope.EntryCode loads hoisted functions) (hi : i ∈ loads ∨ i ∈ functions)
    (hbinding : i.binding = some name) : f.scope.IsLocal name := by
  rcases hi with hi | hi
  · have hbound := h.params.exists_bound.mp ⟨i, hi, hbinding⟩
    simpa using (List.mem_filter.mp hbound).2
  · have hbound := h.functions.exists_bound.mp ⟨i, hi, hbinding⟩
    simpa using (List.mem_filter.mp hbound).2

/-- And every local variable is bound there. -/
theorem exists_binding (h : f.scope.EntryCode loads hoisted functions) (hlocal : f.scope.IsLocal name) :
    ∃ i ∈ loads ++ hoisted ++ functions, i.binding = some name := by
  have hdeclared : name ∈ f.declared := by
    by_contra hnot
    rw [Scope.IsLocal, f.storage?_of_not_declared hnot] at hlocal
    cases hlocal
  simp only [List.mem_append]
  rcases List.mem_append.mp hdeclared with hdeclared | hfunction
  · by_cases hparam : name ∈ f.params
    · obtain ⟨i, hi, hbinding⟩ := h.params.exists_bound.mpr (List.mem_filter.mpr ⟨hparam, by simpa using hlocal⟩)
      exact ⟨i, .inl (.inl hi), hbinding⟩
    · have hvar : name ∈ f.scope.vars :=
        List.mem_filter.mpr ⟨(List.mem_append.mp hdeclared).resolve_left hparam, by simpa using hparam⟩
      have hpos : 0 < hoisted.countP fun i => i.binding = some name := by
        rw [countP_hoisted h.vars]
        exact List.count_pos_iff.mpr hvar
      obtain ⟨i, hi, hbinding⟩ := List.countP_pos_iff.mp hpos
      exact ⟨i, .inl (.inr hi), by simpa using hbinding⟩
  · obtain ⟨i, hi, hbinding⟩ := h.functions.exists_bound.mpr (List.mem_filter.mpr ⟨hfunction, by simpa using hlocal⟩)
    exact ⟨i, .inr hi, hbinding⟩

end Scope.EntryCode

end ScriptSsa
