import ScriptSsa.Proofs.FunctionTree
import ScriptSsa.Proofs.Yields

/-!
What a run leaves behind in a builder.

`Steps names isLocal trees s t` leads from one builder to another by single changes. Operands that a change writes
are values, among which only the local variables of `isLocal` count, and those alone are bound. To lower a nested
function is one change; `trees` lists the functions of these changes. Nothing is asked of the builder, and nothing
is said about where the changes take place. `Takes` says that a run that succeeds is made of such changes, and that
what it gives is a value.
-/

namespace ScriptSsa

open Build

/-- The operand is a value, and a local variable only if it is one of the given ones. -/
def Operand.IsValue (isLocal : String → Prop) : Operand → Prop
  | localVar name => isLocal name
  | block _ => False
  | _ => True

/-- Lowers a function to its graph, before the graph is queued. -/
def lowerGraph (names : Names) (fn : Function) : Build Graph := do
  checkOrdinary fn.isGenerator fn.isAsync
  let scope ← lift (Scope.ofFunction fn.name fn.params fn.body)
  let inner := names.enter scope
  inNewGraph fn.name do
    prologue inner scope
    lowerDeclared inner fn.body
    lowerStmts inner fn.body

/-- To lower a function is to lower it to its graph, and then to queue the graph. -/
theorem lowerFunction_eq (names : Names) (fn : Function) :
    lowerFunction names fn = lowerGraph names fn >>= functionValue := by
  obtain ⟨name, params, body, isGenerator, isAsync⟩ := fn
  simp only [lowerFunction, lowerGraph, bind_assoc]

/-- The instruction that yields a nested function, whose graph is queued. -/
def Builder.closure (s : Builder) (g : Graph) : Builder :=
  Builder.emit (Builder.draw { s with finished := s.finished.push g }) none .function [.block g.entry]

inductive Steps (names : Names) (isLocal : String → Prop) :
    List (FunctionTree Function) → Builder → Builder → Prop where
  | refl {s : Builder} : Steps names isLocal [] s s
  | trans {trees trees' : List (FunctionTree Function)} {s t u : Builder} (h : Steps names isLocal trees s t)
      (h' : Steps names isLocal trees' t u) : Steps names isLocal (trees ++ trees') s u
  | draw {s : Builder} : Steps names isLocal [] s s.draw
  | alloc {s : Builder} : Steps names isLocal [] s s.alloc
  | enter {s : Builder} {id : BlockId} : Steps names isLocal [] s (s.enter id)
  | link {s : Builder} {id : BlockId} {succs : List BlockId} : Steps names isLocal [] s (s.link id succs)
  | emit {s : Builder} {opcode : Opcode} {operands : List Operand} (hvalues : ∀ o ∈ operands, o.IsValue isLocal) :
      Steps names isLocal [] s (s.emit none opcode operands)
  | bind {s : Builder} {name : String} {value : Operand} (hname : isLocal name) (hvalue : value.IsValue isLocal) :
      Steps names isLocal [] s (s.bindLocal name value)
  | place {s : Builder} {b : Block} {phi : InstrId} {join : BlockId} (hjoin : s.block? join = some b)
      (hempty : b.instrs = []) : Steps names isLocal [] s (s.place phi join)
  | withPhis {s : Builder} {phis : Phi.Recorder} : Steps names isLocal [] s (s.withPhis phis)
  | withLoops {s : Builder} {loops : List Loop} : Steps names isLocal [] s (s.withLoops loops)
  /-- A nested function is lowered on the side. -/
  | function {s t : Builder} {b : Block} {fn : Function} {g : Graph} (hat : s.At b)
      (hrun : lowerGraph names fn s = .ok g t) : Steps names isLocal [fn.tree] s (t.closure g)

/-- Only the given names can be looked up to local variables. -/
def Names.LocalsAre (names : Names) (isLocal : String → Prop) : Prop :=
  ∀ {access name}, names.find access name = .ok .localVar → isLocal name

namespace Build

variable {α β : Type} {names : Names} {isLocal : String → Prop} {trees trees' : List (FunctionTree Function)}

/-- A run that succeeds takes steps with the given nested functions, and its result is as `P` says. -/
def Takes (names : Names) (isLocal : String → Prop) (m : Build α) (trees : List (FunctionTree Function))
    (P : α → Prop) : Prop :=
  ∀ s a t, m s = .ok a t → Steps names isLocal trees s t ∧ P a

/-- Any result will do. -/
def Anything (_ : α) : Prop := True

def AreValues (isLocal : String → Prop) (os : List Operand) : Prop := ∀ o ∈ os, o.IsValue isLocal

theorem AreValues.nil : AreValues isLocal [] := fun _ h => nomatch h

theorem AreValues.cons {o : Operand} {os : List Operand} (ho : o.IsValue isLocal) (hos : AreValues isLocal os) :
    AreValues isLocal (o :: os) :=
  List.forall_mem_cons.mpr ⟨ho, hos⟩

namespace Takes

variable {m : Build α} {f : α → Build β} {P : α → Prop} {Q : β → Prop}

/-- No step is taken. -/
theorem pure {a : α} (h : P a) : Takes names isLocal (Pure.pure a : Build α) [] P := by
  rintro s _ _ ⟨⟩
  exact ⟨.refl, h⟩

/-- A run that fails takes whatever steps one likes. -/
theorem fail {e : BuildError} : Takes names isLocal (Build.fail e : Build α) trees P := fun _ _ _ h => nomatch h

/-- The functions of the first part come before those of the second. -/
theorem bind (hm : Takes names isLocal m trees P) (hf : ∀ a, P a → Takes names isLocal (f a) trees' Q) :
    Takes names isLocal (m >>= f) (trees ++ trees') Q := by
  intro s b u h
  obtain ⟨a, t, hrun, hrest⟩ := bind_eq_ok h
  obtain ⟨hsteps, ha⟩ := hm s a t hrun
  obtain ⟨hsteps', hb⟩ := hf a ha t b u hrest
  exact ⟨hsteps.trans hsteps', hb⟩

/-- Steps without nested functions before. -/
theorem before (hm : Takes names isLocal m [] P) (hf : ∀ a, P a → Takes names isLocal (f a) trees Q) :
    Takes names isLocal (m >>= f) trees Q :=
  hm.bind hf

/-- Steps without nested functions behind. -/
theorem behind (hm : Takes names isLocal m trees P) (hf : ∀ a, P a → Takes names isLocal (f a) [] Q) :
    Takes names isLocal (m >>= f) trees Q := by
  rw [← List.append_nil trees]
  exact hm.bind hf

theorem of_eq (hm : Takes names isLocal m trees P) (h : trees = trees') : Takes names isLocal m trees' P := h ▸ hm

end Takes

/-! The primitives. -/

theorem takes_freshInstr : Takes names isLocal freshInstr [] Anything := by
  rintro s _ _ ⟨⟩
  exact ⟨.draw, trivial⟩

theorem takes_newBlock : Takes names isLocal newBlock [] Anything := by
  rintro s _ _ ⟨⟩
  exact ⟨.alloc, trivial⟩

theorem takes_current : Takes names isLocal current [] Anything := by
  rintro s _ _ ⟨⟩
  exact ⟨.refl, trivial⟩

theorem takes_getBlock (id : BlockId) : Takes names isLocal (getBlock id) [] Anything := by
  intro s b t h
  unfold getBlock at h
  split at h
  · cases h
    exact ⟨.refl, trivial⟩
  · cases h

theorem takes_switchTo (id : BlockId) : Takes names isLocal (switchTo id) [] Anything := by
  intro s a t h
  obtain ⟨_, rfl⟩ := switchTo_eq_ok h
  exact ⟨.enter, trivial⟩

/-- A block is linked only if it exists and has no successors yet; here that does not matter. -/
theorem takes_link (id : BlockId) (succs : List BlockId) : Takes names isLocal (link id succs) [] Anything := by
  intro s a t h
  obtain ⟨_, _, rfl⟩ := link_eq_ok h
  exact ⟨.link, trivial⟩

theorem takes_linkCurrent (succs : List BlockId) : Takes names isLocal (linkCurrent succs) [] Anything :=
  takes_current.before fun id _ => takes_link id succs

theorem takes_isTerminated : Takes names isLocal isTerminated [] Anything :=
  takes_current.before fun id _ => (takes_getBlock id).before fun _ _ => .pure trivial

theorem takes_fallThrough (target : BlockId) : Takes names isLocal (fallThrough target) [] Anything := by
  refine takes_isTerminated.before fun terminated _ => ?_
  cases terminated with
  | true => exact .pure trivial
  | false => exact takes_linkCurrent [target]

/-- A block is opened only where control has left. -/
theorem takes_ensureOpen : Takes names isLocal ensureOpen [] Anything := by
  refine takes_isTerminated.before fun terminated _ => ?_
  cases terminated with
  | true => exact takes_newBlock.before fun id _ => takes_switchTo id
  | false => exact .pure trivial

/-- An instruction is appended in one step. -/
theorem takes_emitBound {opcode : Opcode} {operands : List Operand} (hvalues : AreValues isLocal operands) :
    Takes names isLocal (emitBound none opcode operands) [] Anything := by
  intro s id t h
  obtain ⟨_, _, rfl⟩ := emitBound_eq_ok h
  exact ⟨.emit hvalues, trivial⟩

theorem takes_perform {opcode : Opcode} {operands : List Operand} (hvalues : AreValues isLocal operands) :
    Takes names isLocal (perform opcode operands) [] Anything :=
  (takes_emitBound hvalues).before fun _ _ => .pure trivial

theorem takes_emit {opcode : Opcode} {operands : List Operand} (hvalues : AreValues isLocal operands) :
    Takes names isLocal (emit opcode operands) [] (Operand.IsValue isLocal) :=
  (takes_emitBound hvalues).before fun _ _ => .pure trivial

/-- A constant is a value that no instruction yields. -/
theorem takes_constant (c : Constant) : Takes names isLocal (constant c) [] (Operand.IsValue isLocal) :=
  takes_freshInstr.before fun _ _ => .pure trivial

theorem takes_count (n : Nat) : Takes names isLocal (count n) [] (Operand.IsValue isLocal) :=
  takes_freshInstr.before fun _ _ => .pure trivial

theorem takes_literal (c : Constant) : Takes names isLocal (literal c) [] (Operand.IsValue isLocal) :=
  (takes_constant c).before fun _ hc => takes_emit (.cons hc .nil)

/-- Only a variable of `isLocal` may be bound. -/
theorem takes_bindLocal {name : String} {value : Operand} (hname : isLocal name) (hvalue : value.IsValue isLocal) :
    Takes names isLocal (bindLocal name value) [] Anything := by
  intro s _ t h
  obtain ⟨_, rfl⟩ := bindLocal_eq_ok h
  exact ⟨.bind hname hvalue, trivial⟩

theorem takes_openPhi (phi : InstrId) (join : BlockId) : Takes names isLocal (openPhi phi join) [] Anything := by
  rintro s _ _ ⟨⟩
  exact ⟨.withPhis, trivial⟩

/-- The value goes to the table of phis and to an instruction. -/
theorem takes_contribute (phi : InstrId) {value : Operand} (hvalue : value.IsValue isLocal) :
    Takes names isLocal (contribute phi value) [] Anything := by
  intro s _ t h
  obtain ⟨recorder, rfl⟩ := contribute_eq_ok h
  exact ⟨(@Steps.withPhis names isLocal s recorder).trans (.emit (AreValues.cons trivial (.cons hvalue .nil))), trivial⟩

/-- The phi is placed in a block that has been empty until then. -/
theorem takes_enterJoin (join : BlockId) (phi : InstrId) : Takes names isLocal (enterJoin join phi) [] Anything := by
  intro s _ t h
  obtain ⟨b, hjoin, hempty, rfl⟩ := enterJoin_eq_ok h
  exact ⟨.place hjoin hempty, trivial⟩

theorem takes_pushLoop (loop : Loop) : Takes names isLocal (pushLoop loop) [] Anything := by
  rintro s _ _ ⟨⟩
  exact ⟨.withLoops, trivial⟩

theorem takes_popLoop : Takes names isLocal popLoop [] Anything := by
  intro s _ t h
  unfold popLoop at h
  split at h
  · cases h
    exact ⟨.withLoops, trivial⟩
  · cases h

theorem takes_setLoops (loops : List Loop) : Takes names isLocal (setLoops loops) [] Anything := by
  rintro s _ _ ⟨⟩
  exact ⟨.withLoops, trivial⟩

/-! The block patterns. -/

variable {first second value test : Build Operand}

/-- The functions of the test come first, then those of the arms. -/
theorem takes_branch {trees'' : List (FunctionTree Function)} {consequent alternate : Build Unit}
    (htest : Takes names isLocal test trees (Operand.IsValue isLocal))
    (hconsequent : Takes names isLocal consequent trees' Anything)
    (halternate : Takes names isLocal alternate trees'' Anything) :
    Takes names isLocal (branch test consequent alternate) (trees ++ (trees' ++ trees'')) Anything := by
  refine htest.bind fun v hv => (takes_perform (.cons hv .nil)).before fun _ _ => ?_
  refine takes_newBlock.before fun onTrue _ => takes_newBlock.before fun onFalse _ => ?_
  refine takes_newBlock.before fun join _ => (takes_linkCurrent _).before fun _ _ => ?_
  refine (takes_switchTo onTrue).before fun _ _ => hconsequent.bind fun _ _ => ?_
  refine (takes_fallThrough join).before fun _ _ => (takes_switchTo onFalse).before fun _ _ => ?_
  exact halternate.behind fun _ _ => (takes_fallThrough join).before fun _ _ => takes_switchTo join

theorem takes_arm (phi : InstrId) (join block : BlockId)
    (hvalue : Takes names isLocal value trees (Operand.IsValue isLocal)) :
    Takes names isLocal (arm phi join block value) trees Anything := by
  refine (takes_switchTo block).before fun _ _ => hvalue.behind fun _ hv => ?_
  exact (takes_contribute phi hv).before fun _ _ => takes_linkCurrent [join]

/-- The phi itself is a value. -/
theorem takes_merge {condition : Operand} (trueFirst : Bool) (hcondition : condition.IsValue isLocal)
    (hfirst : Takes names isLocal first trees (Operand.IsValue isLocal))
    (hsecond : Takes names isLocal second trees' (Operand.IsValue isLocal)) :
    Takes names isLocal (merge condition trueFirst first second) (trees ++ trees') (Operand.IsValue isLocal) := by
  refine takes_freshInstr.before fun phi _ => (takes_perform (.cons hcondition .nil)).before fun _ _ => ?_
  refine takes_newBlock.before fun onTrue _ => takes_newBlock.before fun onFalse _ => ?_
  refine takes_newBlock.before fun join _ => (takes_openPhi phi join).before fun _ _ => ?_
  refine (takes_linkCurrent _).before fun _ _ => (takes_arm phi join _ hfirst).bind fun _ _ => ?_
  refine (takes_arm phi join _ hsecond).behind fun _ _ => ?_
  exact (takes_enterJoin join phi).before fun _ _ => .pure trivial

theorem takes_closeContinues (loop : Loop) (header : BlockId) :
    Takes names isLocal (closeContinues loop header) [] Anything := by
  unfold closeContinues
  cases loop.continues with
  | nil => exact takes_linkCurrent [header]
  | cons first _ => exact (takes_linkCurrent [first]).before fun _ _ => takes_link _ _

/-- The body is lowered between the test and the update. -/
theorem takes_loop {trees'' : List (FunctionTree Function)} {labels : List String} {testFirst : Bool}
    {update body : Build Unit} (htest : Takes names isLocal test trees (Operand.IsValue isLocal))
    (hbody : Takes names isLocal body trees' Anything) (hupdate : Takes names isLocal update trees'' Anything) :
    Takes names isLocal (loop labels testFirst test update body) (trees ++ (trees' ++ trees'')) Anything := by
  refine takes_newBlock.before fun continueEntry _ => takes_newBlock.before fun breakEntry _ => ?_
  refine takes_newBlock.before fun header _ => takes_newBlock.before fun testBlock _ => ?_
  refine takes_newBlock.before fun bodyBlock _ => (takes_linkCurrent _).before fun _ _ => ?_
  refine (takes_link _ _).before fun _ _ => (takes_switchTo testBlock).before fun _ _ => ?_
  refine htest.bind fun _ hv => (takes_perform (.cons hv .nil)).before fun _ _ => ?_
  refine (takes_linkCurrent _).before fun _ _ => (takes_pushLoop _).before fun _ _ => ?_
  refine (takes_switchTo bodyBlock).before fun _ _ => hbody.bind fun _ _ => takes_popLoop.before fun loop _ => ?_
  refine (takes_fallThrough _).before fun _ _ => (takes_switchTo _).before fun _ _ => hupdate.behind fun _ _ => ?_
  refine (takes_closeContinues loop header).before fun _ _ => takes_newBlock.before fun after _ => ?_
  exact (takes_link _ _).before fun _ _ => takes_switchTo after

theorem takes_extendChain (kind : Jump) (loop : Loop) (join : BlockId) :
    Takes names isLocal (extendChain kind loop join) [] Anything := by
  rw [extendChain_eq_ite]
  split
  · exact (takes_link _ _).before fun _ _ => .pure trivial
  · split
    · exact .pure trivial
    · exact .fail

theorem takes_get : Takes names isLocal (get : Build Builder) [] Anything := by
  rintro s _ _ ⟨⟩
  exact ⟨.refl, trivial⟩

/-- A jump only adds blocks and links, and changes the loops around it. -/
theorem takes_jump (kind : Jump) (label : Option String) : Takes names isLocal (jump kind label) [] Anything := by
  refine takes_get.before fun s _ => ?_
  dsimp only
  split
  · exact .fail
  · refine takes_newBlock.before fun join _ => (takes_linkCurrent [join]).before fun _ _ => ?_
    exact (takes_extendChain _ _ _).before fun _ _ => takes_setLoops _

/-! Variables. -/

/-- A look-up leaves the builder as it is. -/
theorem resolve_eq_ok {access : Access} {name : String} {s t : Builder} {r : Resolution}
    (h : resolve names access name s = .ok r t) : names.find access name = .ok r ∧ t = s := by
  unfold resolve at h
  split at h
  · next hfind =>
    cases h
    exact ⟨hfind, rfl⟩
  · cases h

theorem takes_resolve (access : Access) (name : String) :
    Takes names isLocal (resolve names access name) [] fun r => names.find access name = .ok r := by
  intro s r t h
  obtain ⟨hfind, rfl⟩ := resolve_eq_ok h
  exact ⟨.refl, hfind⟩

/-- A read gives a local variable as it stands, and otherwise what an instruction yields. -/
theorem takes_readName (hnames : names.LocalsAre isLocal) (name : String) :
    Takes names isLocal (readName names name) [] (Operand.IsValue isLocal) := by
  refine (takes_resolve .read name).before fun r hfind => ?_
  cases r with
  | own => exact takes_emit .nil
  | localVar => exact takes_freshInstr.before fun _ _ => .pure (hnames hfind)
  | slot depth index =>
      exact (takes_count _).before fun _ hd => (takes_count _).before fun _ hi =>
        takes_emit (.cons hd (.cons hi .nil))
  | global => exact (takes_constant _).before fun _ hc => takes_emit (.cons hc .nil)

theorem takes_storeContext (depth index : Nat) {value : Operand} (hvalue : value.IsValue isLocal) :
    Takes names isLocal (storeContext depth index value) [] Anything :=
  (takes_count _).before fun _ hd => (takes_count _).before fun _ hi =>
    takes_perform (.cons hd (.cons hi (.cons hvalue .nil)))

/-- A write to a local variable gives that variable, any other the value. -/
theorem takes_writeName (hnames : names.LocalsAre isLocal) (name : String) {value : Operand}
    (hvalue : value.IsValue isLocal) :
    Takes names isLocal (writeName names name value) [] (Operand.IsValue isLocal) := by
  refine (takes_resolve .write name).before fun r hfind => ?_
  cases r with
  | localVar => exact (takes_bindLocal (hnames hfind) hvalue).before fun _ _ => .pure (hnames hfind)
  | slot depth index => exact (takes_storeContext _ _ hvalue).before fun _ _ => .pure hvalue
  | global | own =>
      exact (takes_constant _).before fun _ hc =>
        (takes_perform (.cons hc (.cons hvalue .nil))).before fun _ _ => .pure hvalue

theorem takes_loadParams (hnames : names.LocalsAre isLocal) (params : List String) (position : Nat) :
    Takes names isLocal (loadParams names position params) [] Anything := by
  induction params generalizing position with
  | nil => exact .pure trivial
  | cons name rest ih =>
      refine (takes_count _).before fun _ hp => (takes_emit (.cons hp .nil)).before fun _ hv => ?_
      exact (takes_writeName hnames name hv).before fun _ _ => ih _

/-- The variables that are cleared are local by assumption, however they would be looked up. -/
theorem takes_clearVars {vars : List String} (hvars : ∀ name ∈ vars, isLocal name) :
    Takes names isLocal (clearVars vars) [] Anything := by
  induction vars with
  | nil => exact .pure trivial
  | cons name rest ih =>
      rw [List.forall_mem_cons] at hvars
      exact (takes_literal _).before fun _ hv => (takes_bindLocal hvars.1 hv).before fun _ _ => ih hvars.2

/-- Parameters are stored by look-up, the function itself into its slot, and variables are cleared. -/
theorem takes_prologue (hnames : names.LocalsAre isLocal) {scope : Scope} (hvars : ∀ name ∈ scope.vars, isLocal name) :
    Takes names isLocal (prologue names scope) [] Anything := by
  have hself : Takes names isLocal (loadSelf scope.ownSlot) [] Anything := by
    cases scope.ownSlot with
    | none => exact .pure trivial
    | some slot => exact (takes_emit .nil).before fun _ hv => takes_storeContext _ _ hv
  refine (takes_loadParams hnames scope.params 0).before fun _ _ => ?_
  exact hself.before fun _ _ => takes_clearVars hvars

/-! Calls. -/

theorem takes_pushArgs {arguments : List Operand} (h : AreValues isLocal arguments) :
    Takes names isLocal (pushArgs arguments) [] Anything := by
  have hreverse : AreValues isLocal arguments.reverse := fun o ho => h o (List.mem_reverse.mp ho)
  rw [pushArgs]
  generalize arguments.reverse = reversed at hreverse
  induction reversed with
  | nil => exact Takes.pure trivial
  | cons argument rest ih =>
      obtain ⟨hargument, hrest⟩ := List.forall_mem_cons.mp hreverse
      exact (takes_perform (.cons hargument .nil)).before fun _ _ => ih hrest

/-- A call has as many pushes before it as arguments, all of them values. -/
theorem takes_call {function : Operand} {receiver : Build Operand} {arguments : List Operand}
    (hfunction : function.IsValue isLocal) (hreceiver : Takes names isLocal receiver [] (Operand.IsValue isLocal))
    (harguments : AreValues isLocal arguments) :
    Takes names isLocal (call function receiver arguments) [] (Operand.IsValue isLocal) :=
  (takes_pushArgs harguments).before fun _ _ => hreceiver.before fun _ hr => (takes_count _).before fun _ hn =>
    takes_emit (.cons hfunction (.cons hr (.cons hn .nil)))

theorem takes_new {function : Operand} {arguments : List Operand} (hfunction : function.IsValue isLocal)
    (harguments : AreValues isLocal arguments) :
    Takes names isLocal (new function arguments) [] (Operand.IsValue isLocal) :=
  (takes_pushArgs harguments).before fun _ _ => (takes_count _).before fun _ hn =>
    takes_emit (.cons hfunction (.cons hn .nil))

end Build

end ScriptSsa
