import ScriptSsa.Proofs.NamedValues
import ScriptSsa.Proofs.Occurrence
import ScriptSsa.Proofs.Promises

/-!
What an expression binds.

Only a write to a local variable binds an instruction, and each of them binds one: the instruction that has just
produced the value, or a `nop`. So the instructions that are bound while an expression is lowered are told by the
writes that stand in it, the arms of its merges included and the bodies of its functions not.
-/

namespace ScriptSsa

open Build

namespace Builder

/-- The instructions that are bound to a variable. -/
def bound (s : Builder) : List Instr := s.instrs.filter fun i => i.binding.isSome

/-- Blocks are told apart by their ids. -/
def Distinct (s : Builder) : Prop := s.ids.Nodup ∧ s.Fresh

/-- From `s` to `t` one instruction has been bound for each of the names, and no other has changed its binding. -/
def Binds (writes : List String) (s t : Builder) : Prop :=
  ∃ new, t.bound.Perm (new ++ s.bound) ∧ (new.filterMap Instr.binding).Perm writes

variable {s t u : Builder} {writes writes' : List String}

/-- The names bound by two runs are those of the first and those of the second. -/
theorem Binds.trans (h : Binds writes s t) (h' : Binds writes' t u) : Binds (writes ++ writes') s u := by
  obtain ⟨new, hperm, hnames⟩ := h
  obtain ⟨new', hperm', hnames'⟩ := h'
  refine ⟨new' ++ new, ?_, ?_⟩
  · rw [List.append_assoc]
    exact hperm'.trans (hperm.append_left new')
  · rw [List.filterMap_append]
    exact (hnames'.append hnames).trans List.perm_append_comm

theorem Binds.of_bound_eq (h : t.bound = s.bound) : Binds [] s t := ⟨[], h ▸ List.Perm.refl _, List.Perm.refl _⟩

/-- Block by block, so that a change of one block is a change of its share. -/
theorem bound_eq_flatMap (s : Builder) :
    s.bound = s.blocks.flatMap fun b => b.instrs.filter fun i => i.binding.isSome :=
  List.filter_flatMap

theorem Distinct.of_ids_eq (h : s.Distinct) (hids : t.ids = s.ids) (hsupply : s.supply ≤ t.supply) : t.Distinct :=
  ⟨hids ▸ h.1, h.2.of_ids_eq hids hsupply⟩

theorem Distinct.alloc (h : s.Distinct) : s.alloc.Distinct := by
  refine ⟨?_, h.2.alloc⟩
  rw [ids_alloc]
  exact h.1.append (List.nodup_singleton _) (by simpa using h.2.later_notMem 0)

theorem binds_alloc : Binds [] s s.alloc := .of_bound_eq (by simp [bound, instrs, Builder.alloc, Block.empty])

theorem binds_link {id : BlockId} {succs : List BlockId} : Binds [] s (s.link id succs) := by
  refine .of_bound_eq ?_
  rw [bound_eq_flatMap, bound_eq_flatMap]
  exact flatMap_modifyBlock fun _ _ _ => rfl

theorem binds_emit {b : Block} {binding : Option String} {opcode : Opcode} {operands : List Operand}
    (hnodup : s.ids.Nodup) (hat : s.At b) : Binds binding.toList s (s.emit binding opcode operands) := by
  have hadded : (s.emit binding opcode operands).bound.Perm
      ([⟨s.supply.nextInstr, opcode, operands, binding⟩].filter (fun i => i.binding.isSome) ++ s.bound) := by
    rw [bound_eq_flatMap, bound_eq_flatMap]
    refine perm_flatMap_modifyBlock (s := s.draw) _ hnodup hat ?_
    rw [List.filter_append]
    exact List.perm_append_comm
  refine ⟨_, hadded, ?_⟩
  cases binding <;> rfl

/-- The join is empty when the phi is placed, so no binding is lost. -/
theorem binds_place {b : Block} {phi : InstrId} {join : BlockId} (h : s.block? join = some b) (hempty : b.instrs = [])
    (hnodup : s.ids.Nodup) : Binds [] s (s.place phi join) := by
  refine .of_bound_eq ?_
  rw [bound_eq_flatMap, bound_eq_flatMap]
  refine flatMap_modifyBlock (s := s.enter join) fun c hc hid => ?_
  obtain rfl : c = b := Option.some.inj ((hid ▸ block?_of_mem hnodup hc).symm.trans h)
  rw [hempty]
  rfl

/-- One instruction is bound, the last one or a `nop`. -/
theorem binds_bindLocal {b : Block} {name : String} {value : Operand} (hnodup : s.ids.Nodup) (hat : s.At b) :
    Binds [name] s (s.bindLocal name value) := by
  rw [bindLocal, hat, Option.bind_some]
  cases hbound : b.bindLast? name value with
  | none => exact binds_emit hnodup hat
  | some bound =>
      obtain ⟨init, last, hinstrs, _, hunbound, _, _, rfl⟩ := Block.bindLast?_eq_some hbound
      refine ⟨[{ last with binding := some name }], ?_, List.Perm.refl _⟩
      rw [bound_eq_flatMap, bound_eq_flatMap]
      refine perm_flatMap_modifyBlock _ hnodup hat ?_
      rw [hinstrs, List.filter_append, List.filter_append]
      simp only [List.filter_cons, hunbound, Option.isSome_none, Option.isSome_some, List.filter_nil, if_true,
        Bool.false_eq_true, if_false, List.append_nil]
      exact List.perm_append_comm

end Builder

namespace Build

variable {α β : Type} {names : Names}

/-- Code that binds one instruction for each of the names. -/
def BindsAll (writes : List String) (m : Build α) : Prop :=
  ∀ s a t, m s = .ok a t → s.Distinct → t.Distinct ∧ s.Binds writes t

namespace BindsAll

variable {m : Build α} {f : α → Build β} {writes writes' : List String}

theorem pure {a : α} : BindsAll [] (Pure.pure a : Build α) := by
  rintro s _ _ ⟨⟩ hs
  exact ⟨hs, .of_bound_eq rfl⟩

theorem fail {e : BuildError} : BindsAll writes (Build.fail e : Build α) := fun _ _ _ h => nomatch h

theorem bind (hm : BindsAll writes m) (hf : ∀ a, BindsAll writes' (f a)) : BindsAll (writes ++ writes') (m >>= f) := by
  intro s b u h hs
  obtain ⟨a, t, hrun, hrest⟩ := bind_eq_ok h
  obtain ⟨ht, hbinds⟩ := hm s a t hrun hs
  obtain ⟨hu, hbinds'⟩ := hf a t b u hrest ht
  exact ⟨hu, hbinds.trans hbinds'⟩

/-- The order in which names are bound does not matter here. -/
theorem perm (h : BindsAll writes m) (hperm : writes.Perm writes') : BindsAll writes' m := by
  intro s a t hrun hs
  obtain ⟨ht, new, hbound, hnames⟩ := h s a t hrun hs
  exact ⟨ht, new, hbound, hnames.trans hperm⟩

/-- Code that binds nothing, in front of other code. -/
theorem after (hm : BindsAll [] m) (hf : ∀ a, BindsAll writes (f a)) : BindsAll writes (m >>= f) := hm.bind hf

/-- Code that binds nothing, behind other code. -/
theorem before (hm : BindsAll writes m) (hf : ∀ a, BindsAll [] (f a)) : BindsAll writes (m >>= f) :=
  (hm.bind hf).perm (List.Perm.of_eq (List.append_nil writes))

/-- Code that leaves the blocks alone. -/
theorem of_blocks_eq (h : ∀ s a t, m s = .ok a t → t.blocks = s.blocks ∧ s.supply ≤ t.supply) : BindsAll [] m := by
  intro s a t hrun hs
  obtain ⟨hblocks, hsupply⟩ := h s a t hrun
  refine ⟨hs.of_ids_eq (congrArg (List.map Block.id) hblocks) hsupply, .of_bound_eq ?_⟩
  rw [Builder.bound_eq_flatMap, Builder.bound_eq_flatMap, hblocks]

end BindsAll

/-! The steps. -/

theorem bindsAll_freshInstr : BindsAll [] freshInstr := by
  refine .of_blocks_eq ?_
  rintro s _ _ ⟨⟩
  exact ⟨rfl, Supply.le_dropInstr _⟩

theorem bindsAll_constant (c : Constant) : BindsAll [] (constant c) := bindsAll_freshInstr.after fun _ => .pure

theorem bindsAll_count (n : Nat) : BindsAll [] (count n) := bindsAll_freshInstr.after fun _ => .pure

theorem bindsAll_lift (result : Except BuildError α) : BindsAll [] (lift result) := by
  cases result with
  | ok a => exact BindsAll.pure
  | error e => exact BindsAll.fail

theorem bindsAll_newBlock : BindsAll [] newBlock := by
  rintro s _ _ ⟨⟩ hs
  exact ⟨hs.alloc, Builder.binds_alloc⟩

theorem bindsAll_switchTo (id : BlockId) : BindsAll [] (switchTo id) := by
  refine .of_blocks_eq fun s a t h => ?_
  obtain ⟨_, rfl⟩ := switchTo_eq_ok h
  exact ⟨rfl, le_refl _⟩

theorem bindsAll_linkCurrent (succs : List BlockId) : BindsAll [] (linkCurrent succs) := by
  intro s a t h hs
  obtain ⟨_, _, rfl⟩ := linkCurrent_eq_ok h
  exact ⟨hs.of_ids_eq Builder.ids_link (le_refl _), Builder.binds_link⟩

theorem bindsAll_emitBound (opcode : Opcode) (operands : List Operand) :
    BindsAll [] (emitBound none opcode operands) := by
  intro s id t h hs
  obtain ⟨⟨b, hat⟩, _, rfl⟩ := emitBound_eq_ok h
  exact ⟨hs.of_ids_eq Builder.ids_emit (Supply.le_dropInstr _), Builder.binds_emit hs.1 hat⟩

theorem bindsAll_perform (opcode : Opcode) (operands : List Operand) : BindsAll [] (perform opcode operands) :=
  (bindsAll_emitBound opcode operands).after fun _ => .pure

theorem bindsAll_emit (opcode : Opcode) (operands : List Operand) : BindsAll [] (emit opcode operands) :=
  (bindsAll_emitBound opcode operands).after fun _ => .pure

theorem bindsAll_bindLocal (name : String) (value : Operand) : BindsAll [name] (bindLocal name value) := by
  intro s a t h hs
  have hfresh := ((evaluates_bindLocal name value).continues s a t hs.2 h).fresh
  obtain ⟨⟨b, hat⟩, rfl⟩ := bindLocal_eq_ok h
  refine ⟨⟨?_, hfresh⟩, Builder.binds_bindLocal hs.1 hat⟩
  rw [Builder.bindLocal]
  split
  · next bound hbound =>
    obtain ⟨c, hc, hlast⟩ := Option.bind_eq_some_iff.mp hbound
    rw [Builder.ids_replace_bound hc hlast]
    exact hs.1
  · rw [Builder.ids_emit]
    exact hs.1

/-! Merges. -/

/-- What is handed to a phi is not bound by it. -/
theorem bindsAll_contribute (phi : InstrId) (value : Operand) : BindsAll [] (contribute phi value) := by
  have hcurrent : BindsAll [] current := by
    refine .of_blocks_eq ?_
    rintro s _ _ ⟨⟩
    exact ⟨rfl, le_refl _⟩
  have hget : BindsAll [] (get : Build Builder) := by
    refine .of_blocks_eq ?_
    rintro s _ _ ⟨⟩
    exact ⟨rfl, le_refl _⟩
  have hrecord : ∀ recorder, BindsAll [] (modify fun s : Builder => s.withPhis recorder : Build Unit) := by
    refine fun recorder => .of_blocks_eq ?_
    rintro s _ _ ⟨⟩
    exact ⟨rfl, le_refl _⟩
  refine hcurrent.after fun _ => hget.after fun _ => (bindsAll_lift _).after fun recorder => ?_
  exact (hrecord recorder).after fun _ => bindsAll_perform _ _

theorem bindsAll_enterJoin (join : BlockId) (phi : InstrId) : BindsAll [] (enterJoin join phi) := by
  intro s a t h hs
  obtain ⟨b, hb, hempty, rfl⟩ := enterJoin_eq_ok h
  exact ⟨hs.of_ids_eq Builder.ids_place (le_refl _), Builder.binds_place hb hempty hs.1⟩

variable {writes writes' : List String}

theorem bindsAll_arm {phi : InstrId} {join block : BlockId} {value : Build Operand} (h : BindsAll writes value) :
    BindsAll writes (arm phi join block value) :=
  (bindsAll_switchTo block).after fun _ => h.before fun v => (bindsAll_contribute phi v).after fun _ =>
    bindsAll_linkCurrent _

/-- Both arms are lowered, so the writes of both count. -/
theorem bindsAll_merge {condition : Operand} {trueFirst : Bool} {first second : Build Operand}
    (hfirst : BindsAll writes first) (hsecond : BindsAll writes' second) :
    BindsAll (writes ++ writes') (merge condition trueFirst first second) := by
  have hopen : ∀ phi join, BindsAll [] (openPhi phi join) := by
    refine fun phi join => .of_blocks_eq ?_
    rintro s _ _ ⟨⟩
    exact ⟨rfl, le_refl _⟩
  refine bindsAll_freshInstr.after fun phi => (bindsAll_perform _ _).after fun _ => ?_
  refine bindsAll_newBlock.after fun _ => bindsAll_newBlock.after fun _ => bindsAll_newBlock.after fun join => ?_
  refine (hopen phi join).after fun _ => (bindsAll_linkCurrent _).after fun _ => ?_
  refine (bindsAll_arm hfirst).bind fun _ => (bindsAll_arm hsecond).before fun _ => ?_
  exact (bindsAll_enterJoin join phi).after fun _ => .pure

/-! Variables. -/

theorem bindsAll_resolve (access : Access) (name : String) : BindsAll [] (resolve names access name) := by
  refine .of_blocks_eq fun s r t h => ?_
  obtain ⟨_, rfl⟩ := resolve_eq_ok h
  exact ⟨rfl, le_refl _⟩

/-- A read binds nothing, wherever the variable is stored. -/
theorem bindsAll_readName (name : String) : BindsAll [] (readName names name) := by
  refine (bindsAll_resolve .read name).after fun r => ?_
  cases r with
  | own => exact bindsAll_emit _ _
  | localVar => exact bindsAll_freshInstr.after fun _ => .pure
  | slot depth index =>
      exact (bindsAll_count _).after fun _ => (bindsAll_count _).after fun _ => bindsAll_emit _ _
  | global => exact (bindsAll_constant _).after fun _ => bindsAll_emit _ _

/-- A write binds an instruction if the variable is local. -/
theorem bindsAll_writeName (name : String) (value : Operand) :
    BindsAll (localWrites names [.use ⟨.write, name⟩]) (writeName names name value) := by
  by_cases hlocal : names.find .write name = .ok .localVar
  · have hwrites : localWrites names [.use ⟨.write, name⟩] = [name] := by
      simp [localWrites, Item.localWrite?, hlocal]
    rw [writeName_of_local hlocal, hwrites]
    exact (bindsAll_bindLocal name value).before fun _ => .pure
  · have hwrites : localWrites names [.use ⟨.write, name⟩] = [] := by
      simp [localWrites, Item.localWrite?, hlocal]
    rw [hwrites]
    intro s v t h
    obtain ⟨r, s₁, hresolve, hrest⟩ := bind_eq_ok h
    obtain ⟨hfind, rfl⟩ := resolve_eq_ok hresolve
    have hstore : BindsAll [] (do
        let key ← constant (.string name)
        perform .storeGlobal [key, value]
        return value) :=
      (bindsAll_constant _).after fun _ => (bindsAll_perform _ _).after fun _ => .pure
    have hcontext : ∀ depth index, BindsAll [] (storeContext depth index value) := fun _ _ =>
      (bindsAll_count _).after fun _ => (bindsAll_count _).after fun _ => bindsAll_perform _ _
    cases r with
    | localVar => exact absurd hfind hlocal
    | slot depth index =>
        have hslot : BindsAll [] (storeContext depth index value >>= fun _ => pure value) :=
          (hcontext depth index).after fun _ => .pure
        exact hslot _ v t hrest
    | global | own => exact hstore _ v t hrest

/-! Calls. -/

theorem bindsAll_pushArgs (arguments : List Operand) : BindsAll [] (pushArgs arguments) := by
  rw [pushArgs]
  induction arguments.reverse with
  | nil => exact BindsAll.pure
  | cons argument rest ih => exact (bindsAll_perform _ _).after fun _ => ih

theorem bindsAll_call {function : Operand} {receiver : Build Operand} {arguments : List Operand}
    (hreceiver : BindsAll [] receiver) : BindsAll [] (call function receiver arguments) :=
  (bindsAll_pushArgs arguments).after fun _ => hreceiver.after fun _ => (bindsAll_count _).after fun _ =>
    bindsAll_emit _ _

theorem bindsAll_new (function : Operand) (arguments : List Operand) : BindsAll [] (new function arguments) :=
  (bindsAll_pushArgs arguments).after fun _ => (bindsAll_count _).after fun _ => bindsAll_emit _ _

end Build

/-- A nested function is built on the side. -/
theorem lowerFunction_bindsAll (names : Names) (fn : Function) : BindsAll [] (lowerFunction names fn) := by
  intro s v u h hs
  have hfresh := ((lowerFunction_evaluates names fn).continues s v u hs.2 h).fresh
  obtain ⟨b, g, t, hat, hgraph, _, rfl⟩ := lowerFunction_eq_ok h
  obtain ⟨_, body, _, _, _, _, rfl⟩ := lowerGraph_eq_ok hgraph
  have hbinds := @Builder.binds_emit
    (Builder.draw { s with supply := body.supply, finished := body.finished.push g }) b none .function [.block g.entry]
    hs.1 hat
  exact ⟨⟨Builder.ids_emit.symm ▸ hs.1, hfresh⟩, hbinds⟩

/-- Code binds what it writes. Statements are left aside. -/
abbrev bindings : Judgement where
  code _ _ _ _ m _ writes _ := BindsAll writes m
  inner _ _ _ _ := True
  flow _ _ _ _ := True

/-- Statements are left out: the judgement is about code inside expressions. -/
theorem bindings_isClosed : bindings.IsClosed where
  pure _ := .pure
  refuse _ := .fail
  bind hm hk := hm.bind hk
  weaken hm _ := hm
  perm hm hperm := hm.perm hperm
  constant hk := bindsAll_freshInstr.after fun _ => hk
  count hk := bindsAll_freshInstr.after fun _ => hk
  emit _ _ _ _ _ _ := bindsAll_emit _ _
  perform _ _ _ _ _ _ := bindsAll_perform _ _
  read _ := bindsAll_readName _
  write _ hm := hm.bind fun v => bindsAll_writeName _ v
  writeResult _ _ _ _ _ _ _ := (bindsAll_emit _ _).after fun v => bindsAll_writeName _ v
  merge _ hfirst hsecond := bindsAll_merge hfirst hsecond
  plainCall _ hfunction hvalues :=
    hfunction.bind fun _ => hvalues.before fun _ => bindsAll_call (bindsAll_emit _ _)
  methodCall hkey hobject hvalues := by
    rw [lowerExpr]
    refine hkey.bind fun _ => hobject.bind fun _ => (bindsAll_emit _ _).after fun _ => hvalues.before fun _ => ?_
    exact bindsAll_call .pure
  construct hfunction hvalues := by
    rw [lowerExpr]
    exact hfunction.bind fun _ => hvalues.before fun _ => bindsAll_new _ _
  function _ _ _ _ _ _ := lowerFunction_bindsAll _ _
  skip := trivial
  seq _ _ := trivial
  ensureOpen _ := trivial
  ofCode _ := trivial
  ofFlow _ := trivial
  after _ _ := trivial
  branch _ _ _ := trivial
  loop _ _ _ := trivial
  jump _ _ := trivial
  ret _ := trivial

/-- The writes that stand in an expression tell what it binds. -/
theorem lowerExpr_bindsAll (names : Names) (e : Expr) : BindsAll (localWrites names e.items) (lowerExpr names e) :=
  lowerExpr_judged (f := ⟨none, [], [.expr e]⟩) bindings_isClosed e (by simp [itemsOf, Stmt.items])

end ScriptSsa
