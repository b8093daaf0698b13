import ScriptSsa.Proofs.EntryCode
import ScriptSsa.Proofs.IdSupply

/-!
Local variables have values before they are read.

Behind the code on entry to a function, steps add code at the end of blocks that binds and reads no names but those of
local variables. An instruction that is bound already stays as it is. So a local variable is bound at the start of
every path, and a name that has a slot is bound among the hoisted variables or not at all.
-/

namespace ScriptSsa

open Build

/-- The names that are bound or read are those of the given local variables. -/
structure Instr.KeepsTo (isLocal : String → Prop) (i : Instr) : Prop where
  reads : ∀ name, .localVar name ∈ i.operands → isLocal name
  binds : ∀ name, i.binding = some name → isLocal name

theorem Instr.keepsTo_of_unbound {isLocal : String → Prop} {i : Instr} (hunbound : i.binding = none)
    (hreads : ∀ name, .localVar name ∈ i.operands → isLocal name) : i.KeepsTo isLocal where
  reads := hreads
  binds name hname := by
    rw [hunbound] at hname
    cases hname

/-- The instruction stays as it is, or one of the local variables is bound to what it yields. -/
inductive Instr.Stays (isLocal : String → Prop) (i : Instr) : Instr → Prop where
  | same : Stays isLocal i i
  | bound {name : String} (hunbound : i.binding = none) (hname : isLocal name) :
      Stays isLocal i { i with binding := some name }

namespace Instr.Stays

variable {isLocal : String → Prop} {i j k : Instr} {name : String}

theorem trans (h : i.Stays isLocal j) (h' : j.Stays isLocal k) : i.Stays isLocal k := by
  cases h with
  | same => exact h'
  | bound hunbound hname =>
      cases h' with
      | same => exact .bound hunbound hname
      | bound hunbound' => cases hunbound'

theorem operands_eq (h : i.Stays isLocal j) : j.operands = i.operands := by
  cases h <;> rfl

/-- An instruction is bound once: a second binding goes to a `nop`. -/
theorem eq_of_bound (h : i.Stays isLocal j) (hbinding : i.binding = some name) : j = i := by
  cases h with
  | same => rfl
  | bound hunbound =>
      rw [hunbound] at hbinding
      cases hbinding

/-- A binding that is new is that of a local variable. -/
theorem binding_cases (h : i.Stays isLocal j) (hbinding : j.binding = some name) :
    i.binding = some name ∨ isLocal name := by
  cases h with
  | same => exact .inl hbinding
  | bound _ hname => exact .inr (Option.some.inj hbinding ▸ hname)

theorem keepsTo (h : i.Stays isLocal j) (hi : i.KeepsTo isLocal) : j.KeepsTo isLocal where
  reads name hname := hi.reads name (h.operands_eq ▸ hname)
  binds name hname := (h.binding_cases hname).elim (hi.binds name) fun hlocal => hlocal

/-- Code that is bound throughout does not change any more. -/
theorem eq_of_all_bound {instrs instrs' : List Instr} (h : List.Forall₂ (Stays isLocal) instrs instrs')
    (hbound : ∀ i ∈ instrs, i.binding.isSome) : instrs' = instrs := by
  induction h with
  | nil => rfl
  | cons hstays _ ih =>
      obtain ⟨hsome, hrest⟩ := List.forall_mem_cons.mp hbound
      obtain ⟨name, hbinding⟩ := Option.isSome_iff_exists.mp hsome
      rw [hstays.eq_of_bound hbinding, ih hrest]

end Instr.Stays

/-- Code grows at its end. -/
inductive Prolongs (isLocal : String → Prop) : List Instr → List Instr → Prop where
  | more {instrs : List Instr} (h : ∀ i ∈ instrs, i.KeepsTo isLocal) : Prolongs isLocal [] instrs
  | cons {i j : Instr} {instrs instrs' : List Instr} (h : i.Stays isLocal j) (rest : Prolongs isLocal instrs instrs') :
      Prolongs isLocal (i :: instrs) (j :: instrs')

namespace Prolongs

variable {isLocal : String → Prop} {instrs instrs' instrs'' : List Instr}

theorem append_left (init : List Instr) (h : Prolongs isLocal instrs instrs') :
    Prolongs isLocal (init ++ instrs) (init ++ instrs') := by
  induction init with
  | nil => exact h
  | cons i init ih => exact .cons .same ih

theorem refl (instrs : List Instr) : Prolongs isLocal instrs instrs := by
  have h : Prolongs isLocal (instrs ++ []) (instrs ++ []) := append_left instrs (.more (List.forall_mem_nil _))
  rwa [List.append_nil] at h

theorem concat {i : Instr} (hi : i.KeepsTo isLocal) (instrs : List Instr) :
    Prolongs isLocal instrs (instrs ++ [i]) := by
  have h : Prolongs isLocal (instrs ++ []) (instrs ++ [i]) := append_left instrs (.more (by simpa using hi))
  rwa [List.append_nil] at h

theorem keepsTo (h : Prolongs isLocal instrs instrs') (hinstrs : ∀ i ∈ instrs, i.KeepsTo isLocal) :
    ∀ i ∈ instrs', i.KeepsTo isLocal := by
  induction h with
  | more hmore => exact hmore
  | cons hstays _ ih =>
      obtain ⟨hi, hrest⟩ := List.forall_mem_cons.mp hinstrs
      exact List.forall_mem_cons.mpr ⟨hstays.keepsTo hi, ih hrest⟩

/-- Prolonged code may be prolonged again, though its last instruction may have been bound in between. -/
theorem trans (h : Prolongs isLocal instrs instrs') (h' : Prolongs isLocal instrs' instrs'') :
    Prolongs isLocal instrs instrs'' := by
  induction h generalizing instrs'' with
  | more hmore => exact .more (h'.keepsTo hmore)
  | cons hstays _ ih =>
      cases h' with
      | cons hstays' rest' => exact .cons (hstays.trans hstays') (ih rest')

/-- Where the code starts with two parts, so does what it grows to. -/
theorem append_inv {init : List Instr} (h : Prolongs isLocal (init ++ instrs) instrs') :
    ∃ init' rest, instrs' = init' ++ rest ∧ List.Forall₂ (Instr.Stays isLocal) init init' ∧
      Prolongs isLocal instrs rest := by
  induction init generalizing instrs' with
  | nil => exact ⟨[], instrs', rfl, .nil, h⟩
  | cons i init ih =>
      cases h with
      | @cons _ j _ _ hstays rest =>
          obtain ⟨init', more, rfl, hinit, hmore⟩ := ih rest
          exact ⟨j :: init', more, rfl, .cons hstays hinit, hmore⟩

/-- What stands in prolonged code was there before, or is new and keeps to the local variables. -/
theorem mem_cases (h : Prolongs isLocal instrs instrs') {i : Instr} (hi : i ∈ instrs') :
    (∃ j ∈ instrs, j.Stays isLocal i) ∨ i.KeepsTo isLocal := by
  induction h with
  | more hmore => exact .inr (hmore i hi)
  | @cons j k _ _ hstays _ ih =>
      rcases List.mem_cons.mp hi with rfl | hi
      · exact .inl ⟨j, List.mem_cons_self, hstays⟩
      · exact (ih hi).imp_left fun ⟨l, hl, hstays⟩ => ⟨l, List.mem_cons_of_mem _ hl, hstays⟩

end Prolongs

namespace Builder

variable {isLocal : String → Prop} {s : Builder} {id : BlockId}

/-- The code of the block, if it exists yet. -/
def code (s : Builder) (id : BlockId) : List Instr := ((s.block? id).map Block.instrs).getD []

theorem code_alloc : s.alloc.code id = s.code id := by
  rw [code, code]
  cases hb : s.block? id with
  | some b => rw [block?_alloc_of_some hb]
  | none =>
      by_cases hid : id = s.later 0
      · have hnew : s.later 0 ∉ s.ids := by
          intro hmem
          obtain ⟨b, hsome⟩ := exists_block? hmem
          rw [← hid, hb] at hsome
          cases hsome
        rw [hid, block?_alloc_self hnew]
        rfl
      · rw [block?_alloc_of_ne hid, hb]

theorem code_link {target : BlockId} {succs : List BlockId} : (s.link target succs).code id = s.code id := by
  rw [code, code, block?_link]
  split
  · next hid =>
    rw [hid, Option.map_map]
    rfl
  · rfl

/-- Code is prolonged at the end of the current block. -/
theorem prolongs_emit {binding : Option String} {opcode : Opcode} {operands : List Operand}
    (hnew : Instr.KeepsTo isLocal ⟨s.supply.nextInstr, opcode, operands, binding⟩) (id : BlockId) :
    Prolongs isLocal (s.code id) ((s.emit binding opcode operands).code id) := by
  rw [code, code, block?_emit]
  split
  · next hid =>
    rw [hid]
    cases s.block? s.current with
    | none => exact .refl _
    | some b => exact .concat hnew _
  · exact .refl _

/-- A binding is allowed for local variables alone. -/
theorem prolongs_bindLocal {name : String} {value : Operand} (hname : isLocal name) (hvalue : value.IsValue isLocal)
    (id : BlockId) : Prolongs isLocal (s.code id) ((s.bindLocal name value).code id) := by
  rw [bindLocal]
  cases hbound : (s.block? s.current).bind fun b => b.bindLast? name value with
  | none =>
      refine prolongs_emit ⟨fun read hread => ?_, fun bound hbinding => Option.some.inj hbinding ▸ hname⟩ id
      rw [← List.mem_singleton.mp hread] at hvalue
      exact hvalue
  | some bound =>
      obtain ⟨b, hat, hlast⟩ := Option.bind_eq_some_iff.mp hbound
      have hid : bound.id = s.current := (Block.bindLast?_id hlast).trans (block?_id hat)
      obtain ⟨init, last, hinstrs, _, hunbound, _, _, hb⟩ := Block.bindLast?_eq_some hlast
      change Prolongs isLocal _ ((s.replace bound).code id)
      rw [code, code, block?_replace hid]
      split
      · next hcurrent =>
        rw [hcurrent, hat, hb]
        change Prolongs isLocal b.instrs (init ++ [{ last with binding := some name }])
        rw [hinstrs]
        exact .append_left init (.cons (.bound hunbound hname) (.more (List.forall_mem_nil _)))
      · exact .refl _

theorem prolongs_place {b : Block} {phi : InstrId} {join : BlockId} (hjoin : s.block? join = some b)
    (hempty : b.instrs = []) (id : BlockId) : Prolongs isLocal (s.code id) ((s.place phi join).code id) := by
  rw [code, code, block?_place]
  split
  · next hid =>
    rw [hid, hjoin]
    change Prolongs isLocal b.instrs [⟨phi, .phi, [], none⟩]
    rw [hempty]
    exact .more (List.forall_mem_singleton.mpr (Instr.keepsTo_of_unbound rfl fun _ h => nomatch h))
  · exact .refl _

end Builder

/-- Steps add code at the end of blocks. -/
theorem Steps.prolongs {names : Names} {isLocal : String → Prop} {trees : List (FunctionTree Function)} {s t : Builder}
    (h : Steps names isLocal trees s t) (id : BlockId) : Prolongs isLocal (s.code id) (t.code id) := by
  induction h with
  | trans _ _ ih₁ ih₂ => exact ih₁.trans ih₂
  | emit hvalues => exact Builder.prolongs_emit (Instr.keepsTo_of_unbound rfl fun _ hname => hvalues _ hname) id
  | bind hname hvalue => exact Builder.prolongs_bindLocal hname hvalue id
  | place hjoin hempty => exact Builder.prolongs_place hjoin hempty id
  | @function s t b fn g hat hrun =>
      have hcode : t.code id = s.code id := by
        obtain ⟨_, _, _, _, _, _, rfl⟩ := lowerGraph_eq_ok hrun
        rfl
      rw [← hcode]
      refine Builder.prolongs_emit (s := Builder.draw { t with finished := t.finished.push g })
        (Instr.keepsTo_of_unbound rfl fun name hname => ?_) id
      cases List.mem_singleton.mp hname
  | alloc =>
      rw [Builder.code_alloc]
      exact .refl _
  | link =>
      rw [Builder.code_link]
      exact .refl _
  | refl | draw | enter | withPhis | withLoops => exact .refl _

/-! A local variable is bound where a function starts. -/

/-- The names that a graph binds, by the instructions that do. -/
def Graph.boundTo (g : Graph) (name : String) : List Instr := g.instrs.filter fun i => i.binding = some name

/-- On a way through the given blocks, and behind the given instructions of the next one, the name is bound. -/
def Graph.Binds (g : Graph) (name : String) (visited : List BlockId) (before : List Instr) : Prop :=
  (∃ i ∈ before, i.binding = some name) ∨
    ∃ b ∈ g.blocks, b.id ∈ visited ∧ ∃ i ∈ b.instrs, i.binding = some name

/-- The graph of a function with the given scope binds its local variables before it reads them. -/
structure Graph.AssignsLocals (scope : Scope) (g : Graph) : Prop where
  reads : ∀ name, .localVar name ∈ g.operands → scope.storage? name = some .localVar
  declares : ∀ i ∈ g.instrs, ∀ name, i.binding = some name → (scope.storage? name).isSome
  /-- In the entry block, the binding comes before all uses. -/
  entry : ∀ name, scope.storage? name = some .localVar → ∃ b ∈ g.blocks, b.id = g.entry ∧
    ∃ before i after, b.instrs = before ++ i :: after ∧ i.binding = some name ∧
      ∀ j ∈ before ++ [i], .localVar name ∉ j.operands
  paths : ∀ b ∈ g.blocks, ∀ before i after, b.instrs = before ++ i :: after → ∀ name, .localVar name ∈ i.operands →
    ∀ visited, g.Path visited b.id → g.Binds name visited before
  /-- What flows into a phi is read where the way leaves the block that it comes from. -/
  table : ∀ e ∈ g.phis.entries, ∀ input ∈ e.2.inputs, ∀ name, input.value = .localVar name →
    ∀ visited, g.Path visited input.source → g.Binds name (visited ++ [input.source]) []
  /-- A name that has a slot is bound once if it is hoisted, to `undefined`, and otherwise never. -/
  slots : ∃ b ∈ g.blocks, b.id = g.entry ∧ ∃ loads hoisted rest, b.instrs = loads ++ hoisted ++ rest ∧
    (∀ i ∈ loads, i.ReadsNoLocal) ∧ List.Forall₂ Clears scope.vars hoisted ∧
    ∀ name index, scope.storage? name = some (.slot index) → .localVar name ∉ g.operands ∧
      (∀ i ∈ g.boundTo name, i ∈ hoisted ∧ Clears name i) ∧
      (g.boundTo name).length = if name ∈ scope.vars then 1 else 0

/-- The graph starts with the given code, behind which it keeps to the local variables. -/
structure Graph.StartsWith (isLocal : String → Prop) (code : List Instr) (g : Graph) (b : Block)
    (others : List Block) : Prop where
  blocks : g.blocks = b :: others
  entry : b.id = g.entry
  prolongs : Prolongs isLocal code b.instrs
  others : ∀ c ∈ others, ∀ i ∈ c.instrs, i.KeepsTo isLocal

theorem Builder.Starting.code_eq {s : Builder} {entry : BlockId} {instrs : List Instr} (h : s.Starting entry instrs)
    (id : BlockId) : s.code id = if id = entry then instrs else [] := by
  rw [Builder.code, Builder.block?, h.blocks]
  by_cases hid : id = entry
  · simp [hid]
  · simp [hid, Ne.symm hid]

/-- The entry block of a finished graph starts with the code on entry, and every other block keeps to the local
variables. -/
theorem Graph.Lowers.startsWith {p : Program} {fn : Function} {g : Graph} (h : g.Lowers p Scope.resolve fn)
    (hbuilt : g.Built) :
    ∃ f : Frame, Scope.ofFunction fn.name fn.params fn.body = .ok f.scope ∧
      ∃ loads hoisted functions b others, f.scope.EntryCode loads hoisted functions ∧
        g.StartsWith f.scope.IsLocal (loads ++ hoisted ++ functions) b others := by
  obtain ⟨params, outer, s, u, hparams, _, hrun⟩ := h.run
  obtain ⟨t, hbody, _, hg, _⟩ := inNewGraph_eq_ok hrun
  generalize hf : Frame.mk fn.name params fn.body = f at hbody
  have hresolve : ∀ access name, (Names.inside Scope.resolve (f :: outer)).find access name = .ok .localVar ↔
      f.scope.IsLocal name := fun _ _ => Scope.resolve_eq_localVar
  obtain ⟨v, loads, hoisted, functions, hstart, hcode, hstmts⟩ := lowerBody_starts (hresolve .write) hbody
  have hsteps := (lowerStmts_steps (fun hfind => (hresolve _ _).mp hfind) f v () t hstmts).1
  have hblocks : g.blocks = t.blocks := congrArg Graph.blocks hg
  have hentry : g.entry = s.supply.nextBlock := congrArg Graph.entry hg
  have hprolongs : ∀ c ∈ g.blocks, Prolongs f.scope.IsLocal
      (if c.id = g.entry then loads ++ hoisted ++ functions else []) c.instrs := by
    intro c hc
    have hnodup : t.ids.Nodup := by
      rw [Builder.ids, ← hblocks]
      exact hbuilt.wellFormed.nodup
    have hgrown := hsteps.prolongs c.id
    rw [hstart.code_eq, Builder.code, Builder.block?_of_mem hnodup (hblocks ▸ hc)] at hgrown
    rwa [hentry]
  refine ⟨f, ?_, loads, hoisted, functions, ?_⟩
  · rw [hparams, Scope.ofFunction_idents, ← hf]
  · cases hall : g.blocks with
    | nil =>
        have hfirst := hbuilt.wellFormed.entryFirst
        rw [hall] at hfirst
        cases hfirst
    | cons b others =>
        have hfirst : b.id = g.entry := by
          have hfirst := hbuilt.wellFormed.entryFirst
          rw [hall] at hfirst
          exact Option.some.inj hfirst
        refine ⟨b, others, hcode, hall, hfirst, ?_, fun c hc => ?_⟩
        · have hb := hprolongs b (hall ▸ List.mem_cons_self)
          rwa [if_pos hfirst] at hb
        · have hne : c.id ≠ g.entry := by
            have hnodup := hbuilt.wellFormed.nodup
            rw [hall, List.map_cons, List.nodup_cons, hfirst] at hnodup
            exact fun hid => hnodup.1 (hid ▸ List.mem_map_of_mem hc)
          have hrest := hprolongs c (hall ▸ List.mem_cons_of_mem _ hc)
          rw [if_neg hne] at hrest
          exact hrest.keepsTo (List.forall_mem_nil _)

/-- Every declared name is stored somewhere. -/
theorem Frame.storage?_isSome (f : Frame) {name : String} (h : name ∈ f.declared) :
    (f.scope.storage? name).isSome := by
  cases hcaptured : f.captures name with
  | false => rw [f.storage?_of_not_captured h hcaptured, Option.isSome_some]
  | true =>
      obtain ⟨index, hstorage, _⟩ := f.storage?_of_captured h hcaptured
      rw [hstorage, Option.isSome_some]

/-- A path starts at the entry. -/
theorem Graph.Path.entry_cases {g : Graph} {visited : List BlockId} {id : BlockId} (h : g.Path visited id) :
    id = g.entry ∨ g.entry ∈ visited := by
  induction h with
  | entry => exact .inl rfl
  | @step visited id next _ _ ih =>
      refine .inr (List.mem_append.mpr (ih.symm.imp_right fun hid => ?_))
      rw [hid]
      exact List.mem_singleton.mpr rfl

namespace Graph.StartsWith

variable {f : Frame} {loads hoisted functions : List Instr} {g : Graph} {b : Block} {others : List Block}
  {name : String}

theorem mem_blocks {isLocal : String → Prop} {code : List Instr} (h : g.StartsWith isLocal code b others) :
    b ∈ g.blocks := by
  rw [h.blocks]
  exact List.mem_cons_self

theorem mem_cases {isLocal : String → Prop} {code : List Instr} (h : g.StartsWith isLocal code b others) {i : Instr}
    (hi : i ∈ g.instrs) : (∃ j ∈ code, j.Stays isLocal i) ∨ i.KeepsTo isLocal := by
  rw [Graph.instrs, h.blocks, List.flatMap_cons] at hi
  rcases List.mem_append.mp hi with hi | hi
  · exact h.prolongs.mem_cases hi
  · obtain ⟨c, hc, hi⟩ := List.mem_flatMap.mp hi
    exact .inr (h.others c hc i hi)

/-- Only local variables are read as such. -/
theorem isLocal_of_read (h : g.StartsWith f.scope.IsLocal (loads ++ hoisted ++ functions) b others)
    (hcode : f.scope.EntryCode loads hoisted functions) {i : Instr} (hi : i ∈ g.instrs)
    (hread : .localVar name ∈ i.operands) : f.scope.IsLocal name := by
  rcases h.mem_cases hi with ⟨j, hj, hstays⟩ | hkeeps
  · rw [hstays.operands_eq] at hread
    exact absurd hread (hcode.readsNoLocal hj name)
  · exact hkeeps.reads name hread

theorem declares (h : g.StartsWith f.scope.IsLocal (loads ++ hoisted ++ functions) b others)
    (hcode : f.scope.EntryCode loads hoisted functions) {i : Instr} (hi : i ∈ g.instrs)
    (hbinding : i.binding = some name) : (f.scope.storage? name).isSome := by
  have hlocal : f.scope.IsLocal name → (f.scope.storage? name).isSome := by
    intro hstorage
    rw [hstorage, Option.isSome_some]
  rcases h.mem_cases hi with ⟨j, hj, hstays⟩ | hkeeps
  · rcases hstays.binding_cases hbinding with hbound | hname
    · simp only [List.mem_append] at hj
      rcases hj with (hj | hj) | hj
      · exact hlocal (hcode.isLocal_of_binding (.inl hj) hbound)
      · obtain ⟨var, hvar, _, _, hclears⟩ := exists_left_of_forall₂ hcode.vars hj
        obtain rfl : var = name := Option.some.inj (hclears.symm.trans hbound)
        refine f.storage?_isSome (List.mem_append_left _ (List.mem_append_right _ ?_))
        exact (List.mem_filter.mp hvar).1
      · exact hlocal (hcode.isLocal_of_binding (.inr hj) hbound)
    · exact hlocal hname
  · exact hlocal (hkeeps.binds name hbinding)

/-- Every local variable is bound on entry, before anything reads it. -/
theorem assigned (h : g.StartsWith f.scope.IsLocal (loads ++ hoisted ++ functions) b others)
    (hcode : f.scope.EntryCode loads hoisted functions) (hlocal : f.scope.IsLocal name) :
    ∃ before i after, b.instrs = before ++ i :: after ∧ i.binding = some name ∧
      ∀ j ∈ before ++ [i], .localVar name ∉ j.operands := by
  obtain ⟨i, hi, hbinding⟩ := hcode.exists_binding hlocal
  obtain ⟨init, rest, hsplit⟩ := List.append_of_mem hi
  have hprolongs := h.prolongs
  rw [hsplit] at hprolongs
  obtain ⟨before, more, hinstrs, hstays, hmore⟩ := hprolongs.append_inv
  cases hmore with
  | @cons _ j _ after hstays' _ =>
      obtain rfl := hstays'.eq_of_bound hbinding
      refine ⟨before, j, after, hinstrs, hbinding, fun k hk => ?_⟩
      rcases List.mem_append.mp hk with hk | hk
      · obtain ⟨l, hl, hlk⟩ := exists_left_of_forall₂ hstays hk
        rw [hlk.operands_eq]
        exact hcode.readsNoLocal (hsplit ▸ List.mem_append_left _ hl) name
      · rw [List.mem_singleton.mp hk]
        exact hcode.readsNoLocal hi name

/-- A name that is no local variable is bound by the hoisted variables alone. -/
theorem slotted (h : g.StartsWith f.scope.IsLocal (loads ++ hoisted ++ functions) b others)
    (hcode : f.scope.EntryCode loads hoisted functions) :
    ∃ loads' rest, b.instrs = loads' ++ hoisted ++ rest ∧ (∀ i ∈ loads', i.ReadsNoLocal) ∧
      ∀ name, ¬f.scope.IsLocal name → g.boundTo name = hoisted.filter fun i => i.binding = some name := by
  have hprolongs := h.prolongs
  rw [List.append_assoc] at hprolongs
  obtain ⟨loads', more, hinstrs, hloads, hmore⟩ := hprolongs.append_inv
  obtain ⟨hoisted', rest, rfl, hhoisted, hrest⟩ := hmore.append_inv
  obtain rfl : hoisted' = hoisted := by
    refine Instr.Stays.eq_of_all_bound hhoisted fun i hi => ?_
    obtain ⟨name, _, _, _, hbinding⟩ := exists_left_of_forall₂ hcode.vars hi
    rw [hbinding, Option.isSome_some]
  rw [← List.append_assoc] at hinstrs
  refine ⟨loads', rest, hinstrs, fun i hi => ?_, fun name hslot => ?_⟩
  · obtain ⟨j, hj, hstays⟩ := exists_left_of_forall₂ hloads hi
    rw [Instr.ReadsNoLocal, hstays.operands_eq]
    exact hcode.params.reads j hj
  · have hstays : ∀ {i j : Instr}, j ∈ loads ∨ j ∈ functions → j.Stays f.scope.IsLocal i →
        i.binding ≠ some name := by
      intro i j hj hstays hbinding
      rcases hstays.binding_cases hbinding with hbound | hlocal
      · exact hslot (hcode.isLocal_of_binding hj hbound)
      · exact hslot hlocal
    have hbefore : loads'.filter (fun i => i.binding = some name) = [] := by
      refine List.filter_eq_nil_iff.mpr fun i hi => ?_
      obtain ⟨j, hj, hji⟩ := exists_left_of_forall₂ hloads hi
      simpa using hstays (.inl hj) hji
    have hbehind : rest.filter (fun i => i.binding = some name) = [] := by
      refine List.filter_eq_nil_iff.mpr fun i hi => ?_
      rcases hrest.mem_cases hi with ⟨j, hj, hji⟩ | hkeeps
      · simpa using hstays (.inr hj) hji
      · simpa using fun hbinding => hslot (hkeeps.binds name hbinding)
    have hothers : (others.flatMap Block.instrs).filter (fun i => i.binding = some name) = [] := by
      refine List.filter_eq_nil_iff.mpr fun i hi => ?_
      obtain ⟨c, hc, hi⟩ := List.mem_flatMap.mp hi
      simpa using fun hbinding => hslot ((h.others c hc i hi).binds name hbinding)
    rw [Graph.boundTo, Graph.instrs, h.blocks, List.flatMap_cons, hinstrs]
    simp only [List.filter_append, hbefore, hbehind, hothers, List.nil_append, List.append_nil]

/-- Where an instruction reads a local variable, every path has bound it before. -/
theorem binds (h : g.StartsWith f.scope.IsLocal (loads ++ hoisted ++ functions) b others)
    (hcode : f.scope.EntryCode loads hoisted functions) (hbuilt : g.Built) {c : Block} (hc : c ∈ g.blocks)
    {before after : List Instr} {i : Instr} (hinstrs : c.instrs = before ++ i :: after)
    (hread : .localVar name ∈ i.operands) {visited : List BlockId} (hpath : g.Path visited c.id) :
    g.Binds name visited before := by
  have hi : i ∈ g.instrs := by
    refine List.mem_flatMap.mpr ⟨c, hc, ?_⟩
    rw [hinstrs]
    exact List.mem_append_right _ List.mem_cons_self
  obtain ⟨init, j, rest, hsplit, hbinding, hreads⟩ := h.assigned hcode (h.isLocal_of_read hcode hi hread)
  rcases hpath.entry_cases with hentry | hentry
  · left
    obtain rfl : c = b := List.inj_on_of_nodup_map hbuilt.wellFormed.nodup hc h.mem_blocks (hentry.trans h.entry.symm)
    have hsame : (init ++ [j]) ++ rest = before ++ i :: after := by
      rw [← hinstrs, hsplit, List.append_assoc, List.singleton_append]
    rcases List.append_eq_append_iff.mp hsame with ⟨more, hbefore, _⟩ | ⟨more, hinit, hmore⟩
    · exact ⟨j, by simp [hbefore], hbinding⟩
    · cases more with
      | nil => exact ⟨j, by simpa using congrArg (j ∈ ·) hinit, hbinding⟩
      | cons k more =>
          obtain ⟨rfl, _⟩ := List.cons.inj hmore
          exact absurd hread (hreads i (by simp [hinit]))
  · refine .inr ⟨b, h.mem_blocks, h.entry ▸ hentry, j, ?_, hbinding⟩
    rw [hsplit]
    exact List.mem_append_right _ List.mem_cons_self

theorem assignsLocals (h : g.StartsWith f.scope.IsLocal (loads ++ hoisted ++ functions) b others)
    (hcode : f.scope.EntryCode loads hoisted functions) (hbuilt : g.Built) : g.AssignsLocals f.scope := by
  have hreads : ∀ name, .localVar name ∈ g.operands → f.scope.IsLocal name := by
    intro name hname
    obtain ⟨i, hi, hread⟩ := hbuilt.mem_operands hname
    exact h.isLocal_of_read hcode hi hread
  refine ⟨hreads, fun i hi name hbinding => h.declares hcode hi hbinding,
    fun name hlocal => ⟨b, h.mem_blocks, h.entry, h.assigned hcode hlocal⟩,
    fun c hc before i after hinstrs name hread visited hpath => h.binds hcode hbuilt hc hinstrs hread hpath, ?_, ?_⟩
  · rintro ⟨phi, e⟩ he input hinput name hvalue visited hpath
    obtain ⟨c, hc, hsource, _, init, last, hinstrs, _, hoperands⟩ := hbuilt.phisAgree.delivered phi e he input hinput
    have hread : .localVar name ∈ last.operands := by simp [hoperands, hvalue]
    rw [← hsource] at hpath ⊢
    rcases h.binds hcode hbuilt hc hinstrs hread hpath with ⟨i, hi, hbinding⟩ | ⟨d, hd, hvisited, hbound⟩
    · exact .inr ⟨c, hc, by simp, i, by simp [hinstrs, hi], hbinding⟩
    · exact .inr ⟨d, hd, List.mem_append_left _ hvisited, hbound⟩
  · obtain ⟨loads', rest, hinstrs, hloads, hbound⟩ := h.slotted hcode
    refine ⟨b, h.mem_blocks, h.entry, loads', hoisted, rest, hinstrs, hloads, hcode.vars, fun name index hslot => ?_⟩
    have hnot : ¬f.scope.IsLocal name := by
      intro hlocal
      rw [Scope.IsLocal, hslot] at hlocal
      cases hlocal
    refine ⟨fun hname => hnot (hreads name hname), fun i hi => ?_, ?_⟩
    · rw [hbound name hnot] at hi
      obtain ⟨hmem, hbinding⟩ := List.mem_filter.mp hi
      obtain ⟨var, _, hclears⟩ := exists_left_of_forall₂ hcode.vars hmem
      obtain rfl : var = name := Option.some.inj (hclears.2.2.symm.trans (by simpa using hbinding))
      exact ⟨hmem, hclears⟩
    · rw [hbound name hnot, ← List.countP_eq_length_filter, countP_hoisted hcode.vars]
      split
      · next hvar => exact List.count_eq_one_of_mem f.nodup_vars hvar
      · next hvar => exact List.count_eq_zero.mpr hvar

end Graph.StartsWith

/-- Local variables are bound before they are read, on every path, and captured names never live in one. -/
theorem locals_are_assigned (p : Program) (supply : Supply) (graphs : List Graph)
    (h : (constructWith p supply).1 = .ok graphs) :
    List.Forall₂ (fun fn g => ∃ scope, Scope.ofFunction fn.name fn.params fn.body = .ok scope ∧ g.AssignsLocals scope)
      p.functions graphs := by
  obtain ⟨_, hlowers⟩ := (constructUsing_settles p Scope.resolve supply).2.1 graphs h
  have hbuilt := built_of_constructUsing h
  refine List.forall₂_iff_get.mpr ⟨hlowers.length_eq, fun k hfn hg => ?_⟩
  have hgraph := hbuilt _ (List.get_mem graphs ⟨k, hg⟩)
  obtain ⟨f, hscope, loads, hoisted, functions, b, others, hcode, hstarts⟩ := (hlowers.get hfn hg).startsWith hgraph
  exact ⟨f.scope, hscope, hstarts.assignsLocals hcode hgraph⟩

/-- `function f(a, b) { var x = a, y = 1; function g() { y = b; } while (x) x = a ? x : g; return y; }` -/
def captureScript : Program :=
  ⟨[.function (.plain (some "f") ["a", "b"]
    [.var ⟨.var, [⟨.ident "x", some (.ident "a")⟩, ⟨.ident "y", some (.literal (.number (.ofNat 1)))⟩]⟩,
      .function (.plain (some "g") [] [.expr (.assign .assign (.ident "y") (.ident "b"))]),
      .whileLoop (.ident "x")
        (.expr (.assign .assign (.ident "x") (.conditional (.ident "a") (.ident "x") (.ident "g")))),
      .ret (some (.ident "y"))])]⟩

def captureGraphs : List Graph := (constructWith captureScript .fresh).1.toOption.getD []

/-- Here `b` and `y` have slots, and the values of `x` and `g` flow into a phi. -/
theorem locals_are_assigned_capture :
    (constructWith captureScript .fresh).1 = .ok captureGraphs ∧
    captureGraphs.map (fun g => g.phis.entries.flatMap fun e => e.2.inputs.map Phi.Input.value) =
      [[], [], [.localVar "x", .localVar "g"]] ∧
    captureGraphs.map (fun g => ["a", "b", "x", "y"].map fun name => (g.boundTo name).length) =
      [[0, 0, 0, 0], [0, 0, 0, 0], [1, 0, 3, 1]] ∧
    List.Forall₂ (fun fn g => ∃ scope, Scope.ofFunction fn.name fn.params fn.body = .ok scope ∧ g.AssignsLocals scope)
      captureScript.functions captureGraphs :=
  ⟨by decide +kernel, by decide +kernel, by decide +kernel,
    locals_are_assigned captureScript .fresh captureGraphs (by decide +kernel)⟩

end ScriptSsa
