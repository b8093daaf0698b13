import ScriptSsa.Proofs.LoweringSteps

/-!
The course of a run: what its ids are drawn for, and where arguments are pushed and taken.

A constant, a count or a reference to a block is a handle: it takes an id of its own and waits for the instruction
that it is an operand of. `Course names owed draws calls s t` leads from `s` to `t` by changes that use up the handles
of `owed`, which were drawn before `s`, and all those that are drawn on the way. `draws` lists the ids of these, and
those of the reads of local variables; `calls` lists the calls that are made. The arguments of a call are pushed and
taken in one change, so that nothing comes between them. `Steers` says that a run that succeeds takes such a course.
-/

namespace ScriptSsa

open Build

/-- How a function is invoked. -/
inductive Invocation where
  /-- With the global object as the receiver. -/
  | plain
  | method (receiver : Operand)
  | construct

/-- The code of a call: its block, the id of its first instruction, and its operands. -/
structure CallCode where
  block : BlockId
  first : InstrId
  form : Invocation
  function : Operand
  arguments : List Operand

namespace Builder

/-- Pushes values in the given order. -/
def push (s : Builder) (values : List Operand) : Builder :=
  values.foldl (fun s value => s.emit none .pushArg [value]) s

/-- Pushes the arguments of a call, the last one first, and calls. -/
def invoke (s : Builder) (form : Invocation) (function : Operand) (arguments : List Operand) : Builder :=
  let pushed := s.push arguments.reverse
  match form with
  | .plain => (pushed.emit none .global []).draw.emit none .call
      [function, .instr pushed.supply.nextInstr, .count arguments.length]
  | .method receiver => pushed.draw.emit none .call [function, receiver, .count arguments.length]
  | .construct => pushed.draw.emit none .new [function, .count arguments.length]

/-- The id that a call draws for the number of its arguments. -/
def countId (s : Builder) (form : Invocation) (arguments : List Operand) : InstrId :=
  let pushed := s.push arguments.reverse
  match form with
  | .plain => (pushed.emit none .global []).supply.nextInstr
  | .method _ | .construct => pushed.supply.nextInstr

/-- The code of a call that is lowered here. -/
def callCode (s : Builder) (form : Invocation) (function : Operand) (arguments : List Operand) : CallCode :=
  ⟨s.current, s.supply.nextInstr, form, function, arguments⟩

/-- The instructions of each block. -/
def blockCode (s : Builder) : List (BlockId × List Instr) := s.blocks.map fun b => (b.id, b.instrs)

end Builder

/-- The code comes from the call: the callee was lowered, then the arguments, and where that ended the code stands.
A method is loaded from its object, which is the receiver. -/
inductive CallCode.Lowers (names : Names) : Expr → CallCode → Prop where
  | plain {callee : Expr} {arguments : List Expr} {function : Operand} {values : List Operand} {s t u : Builder}
      (hcallee : ∀ object property computed, callee ≠ .member object property computed)
      (hfunction : lowerExpr names callee s = .ok function t)
      (hvalues : lowerExprs names arguments t = .ok values u) :
      Lowers names (.call callee arguments) (u.callCode .plain function values)
  | method {inner property : Expr} {computed : Bool} {arguments : List Expr} {key object function : Operand}
      {values : List Operand} {s t u v w : Builder}
      (hkey : memberKey property computed (lowerExpr names property) s = .ok key t)
      (hobject : lowerExpr names inner t = .ok object u)
      (hfunction : loadProperty ⟨object, key⟩ u = .ok function v)
      (hvalues : lowerExprs names arguments v = .ok values w) :
      Lowers names (.call (.member inner property computed) arguments) (w.callCode (.method object) function values)
  | construct {callee : Expr} {arguments : List Expr} {function : Operand} {values : List Operand} {s t u : Builder}
      (hfunction : lowerExpr names callee s = .ok function t)
      (hvalues : lowerExprs names arguments t = .ok values u) :
      Lowers names (.new callee arguments) (u.callCode .construct function values)

/-- The operands of a call, its arguments and the count of them left out. -/
def Invocation.operands (function : Operand) : Invocation → List Operand
  | plain | construct => [function]
  | method receiver => [function, receiver]

def NoHandle (o : Operand) : Prop := o.isHandle = false

def NoHandles (os : List Operand) : Prop := ∀ o ∈ os, NoHandle o

theorem NoHandles.nil : NoHandles [] := fun _ h => absurd h List.not_mem_nil

theorem NoHandles.cons {o : Operand} {os : List Operand} (ho : NoHandle o) (hos : NoHandles os) :
    NoHandles (o :: os) :=
  List.forall_mem_cons.mpr ⟨ho, hos⟩

theorem NoHandles.filter_eq_nil {values : List Operand} (h : NoHandles values) :
    values.filter Operand.isHandle = [] :=
  List.filter_eq_nil_iff.mpr fun o ho => Bool.eq_false_iff.mp (h o ho)

/-- The handles of an instruction stand before its values. -/
theorem filter_isHandle {handles values : List Operand} (hhandles : handles.all Operand.isHandle = true)
    (hvalues : NoHandles values) : (handles ++ values).filter Operand.isHandle = handles := by
  rw [List.filter_append, hvalues.filter_eq_nil, List.append_nil, List.filter_eq_self]
  exact List.all_eq_true.mp hhandles

/-- The ids that are drawn for other things than instructions, in the order in which they are drawn. -/
structure Draws where
  /-- Each with the operand it is drawn for. -/
  handles : List (InstrId × Operand)
  /-- For reads of local variables. -/
  reads : List InstrId

namespace Draws

def none : Draws := ⟨[], []⟩

def handle (id : InstrId) (o : Operand) : Draws := ⟨[(id, o)], []⟩

def read (id : InstrId) : Draws := ⟨[], [id]⟩

instance : Append Draws where
  append d e := ⟨d.handles ++ e.handles, d.reads ++ e.reads⟩

@[simp] theorem reads_append (d e : Draws) : (d ++ e).reads = d.reads ++ e.reads := rfl

@[simp] theorem handles_append (d e : Draws) : (d ++ e).handles = d.handles ++ e.handles := rfl

end Draws

inductive Course : Names → List Operand → Draws → List Expr → Builder → Builder → Prop where
  | refl {names : Names} {s : Builder} : Course names [] .none [] s s
  | trans {names : Names} {owed owed' : List Operand} {draws draws' : Draws} {calls calls' : List Expr}
      {s t u : Builder} (h : Course names owed draws calls s t) (h' : Course names owed' draws' calls' t u) :
      Course names (owed ++ owed') (draws ++ draws') (calls ++ calls') s u
  /-- The id of a handle is drawn, which is used up on the way. -/
  | handle {names : Names} {owed : List Operand} {draws : Draws} {calls : List Expr} {o : Operand} {s t : Builder}
      (h : Course names (owed ++ [o]) draws calls s.draw t) :
      Course names owed (.handle s.supply.nextInstr o ++ draws) calls s t
  | read {names : Names} {s : Builder} : Course names [] (.read s.supply.nextInstr) [] s s.draw
  /-- The id of a phi is drawn, which is placed at the end of the way. -/
  | phi {names : Names} {owed : List Operand} {draws : Draws} {calls : List Expr} {b : Block} {join : BlockId}
      {s t : Builder} (h : Course names owed draws calls s.draw t) (hjoin : t.block? join = some b)
      (hempty : b.instrs = []) : Course names owed draws calls s (t.place s.supply.nextInstr join)
  | emit {names : Names} {b : Block} {opcode : Opcode} {operands : List Operand} {s : Builder} (hat : s.At b)
      (hopcode : opcode.passesArgs = false) :
      Course names (operands.filter Operand.isHandle) .none [] s (s.emit none opcode operands)
  | call {names : Names} {b : Block} {e : Expr} {form : Invocation} {function : Operand} {arguments : List Operand}
      {s : Builder} (hat : s.At b) (hlowers : (s.callCode form function arguments).Lowers names e)
      (hvalues : NoHandles (form.operands function ++ arguments)) :
      Course names [] (.handle (s.countId form arguments) (.count arguments.length)) [e] s
        (s.invoke form function arguments)
  | bind {names : Names} {b : Block} {name : String} {value : Operand} {s : Builder} (hat : s.At b)
      (hvalue : NoHandle value) : Course names [] .none [] s (s.bindLocal name value)
  | alloc {names : Names} {s : Builder} : Course names [] .none [] s s.alloc
  /-- Neither code nor ids change. -/
  | quiet {names : Names} {s t : Builder} (hcode : t.blockCode = s.blockCode) (hsupply : t.supply = s.supply)
      (hfinished : t.finished = s.finished) : Course names [] .none [] s t
  /-- A nested function is lowered on the side and queued; its calls are its own. -/
  | function {names inner : Names} {draws : Draws} {calls : List Expr} {g : Graph} {s t : Builder}
      (h : Course inner [] draws calls s.nested t) (hg : g.blocks = t.blocks) :
      Course names [] draws [] s (s.resume t g)

namespace Course

variable {names : Names} {s : Builder}

theorem enter {id : BlockId} : Course names [] .none [] s (s.enter id) := .quiet rfl rfl rfl

/-- Edges are no code: to link draws nothing and uses up nothing. -/
theorem link {id : BlockId} {succs : List BlockId} : Course names [] .none [] s (s.link id succs) := by
  refine .quiet ?_ rfl rfl
  simp only [Builder.blockCode, Builder.link, Builder.modifyBlock, List.map_map]
  apply List.map_congr_left
  intro b _
  simp only [Function.comp]
  split <;> rfl

theorem withPhis {phis : Phi.Recorder} : Course names [] .none [] s (s.withPhis phis) := .quiet rfl rfl rfl

theorem withLoops {loops : List Loop} : Course names [] .none [] s (s.withLoops loops) := .quiet rfl rfl rfl

end Course

namespace Build

variable {α β : Type} {names : Names} {owed owed' : List Operand} {reads reads' : Nat} {calls calls' : List Expr}

/-- A run that succeeds takes a course with so many reads, and its result is as `P` says. -/
def Steers (names : Names) (owed : List Operand) (m : Build α) (reads : Nat) (calls : List Expr) (P : α → Prop) :
    Prop :=
  ∀ s a t, m s = .ok a t → (∃ draws : Draws, draws.reads.length = reads ∧ Course names owed draws calls s t) ∧ P a

namespace Steers

variable {m : Build α} {f : α → Build β} {P : α → Prop} {Q : β → Prop}

theorem pure {a : α} (h : P a) : Steers names [] (Pure.pure a : Build α) 0 [] P := by
  rintro s _ _ ⟨⟩
  exact ⟨⟨_, rfl, .refl⟩, h⟩

theorem fail {e : BuildError} : Steers names owed (Build.fail e : Build α) reads calls P := by
  intro s a t h
  cases h

/-- Handles that were owed before are used up by the first part, or by the second. -/
theorem bind (hm : Steers names owed m reads calls P) (hf : ∀ a, P a → Steers names owed' (f a) reads' calls' Q) :
    Steers names (owed ++ owed') (m >>= f) (reads + reads') (calls ++ calls') Q := by
  intro s b u h
  obtain ⟨a, t, hrun, hrest⟩ := bind_eq_ok h
  obtain ⟨⟨draws, hreads, hcourse⟩, ha⟩ := hm s a t hrun
  obtain ⟨⟨draws', hreads', hcourse'⟩, hb⟩ := hf a ha t b u hrest
  refine ⟨⟨draws ++ draws', ?_, hcourse.trans hcourse'⟩, hb⟩
  rw [Draws.reads_append, List.length_append, hreads, hreads']

/-- A first part that reads no variable and makes no call. -/
theorem before (hm : Steers names [] m 0 [] P) (hf : ∀ a, P a → Steers names owed (f a) reads calls Q) :
    Steers names owed (m >>= f) reads calls Q := by
  rw [← Nat.zero_add reads]
  exact hm.bind hf

/-- What is owed is used up at once. -/
theorem first (hm : Steers names owed m 0 [] P) (hf : ∀ a, P a → Steers names [] (f a) reads calls Q) :
    Steers names owed (m >>= f) reads calls Q := by
  rw [← Nat.zero_add reads, ← List.append_nil owed]
  exact hm.bind hf

theorem behind (hm : Steers names [] m reads calls P) (hf : ∀ a, P a → Steers names owed (f a) 0 [] Q) :
    Steers names owed (m >>= f) reads calls Q := by
  rw [← List.append_nil calls]
  exact hm.bind hf

theorem of_eq (hm : Steers names owed m reads calls P) (hreads : reads = reads') (hcalls : calls = calls') :
    Steers names owed m reads' calls' P :=
  hreads ▸ hcalls ▸ hm

/-- An id is drawn for a handle, which is owed from there on. -/
theorem handle {o : Operand} {k : Build β} (h : Steers names (owed ++ [o]) k reads calls Q) :
    Steers names owed (freshInstr >>= fun _ => k) reads calls Q := by
  intro s b u hrun
  obtain ⟨⟨draws, hreads, hcourse⟩, hb⟩ := h s.draw b u hrun
  exact ⟨⟨Draws.handle s.supply.nextInstr o ++ draws, hreads, .handle hcourse⟩, hb⟩

/-- A constant is owed from where it is drawn until an instruction takes it. -/
theorem constant {c : Constant} {f : Operand → Build β}
    (h : Steers names (owed ++ [.constant c]) (f (.constant c)) reads calls Q) :
    Steers names owed (Build.constant c >>= f) reads calls Q :=
  handle h

theorem count {n : Nat} {f : Operand → Build β}
    (h : Steers names (owed ++ [.count n]) (f (.count n)) reads calls Q) :
    Steers names owed (Build.count n >>= f) reads calls Q :=
  handle h

/-- The rest may use what the name means. -/
theorem resolve {access : Access} {name : String} {f : Resolution → Build β}
    (h : ∀ r, names.find access name = .ok r → Steers names owed (f r) reads calls Q) :
    Steers names owed (Build.resolve names access name >>= f) reads calls Q := by
  intro s b u hrun
  obtain ⟨r, t, hresolve, hrest⟩ := bind_eq_ok hrun
  obtain ⟨hfind, rfl⟩ := resolve_eq_ok hresolve
  exact h r hfind t b u hrest

end Steers

/-! The primitives. -/

theorem steers_newBlock : Steers names [] newBlock 0 [] Anything := by
  rintro s _ _ ⟨⟩
  exact ⟨⟨_, rfl, .alloc⟩, trivial⟩

theorem steers_current : Steers names [] current 0 [] Anything := by
  rintro s _ _ ⟨⟩
  exact ⟨⟨_, rfl, .refl⟩, trivial⟩

theorem steers_getBlock (id : BlockId) : Steers names [] (getBlock id) 0 [] Anything := by
  intro s b t h
  unfold getBlock at h
  split at h
  · cases h
    exact ⟨⟨_, rfl, .refl⟩, trivial⟩
  · cases h

theorem steers_switchTo (id : BlockId) : Steers names [] (switchTo id) 0 [] Anything := by
  intro s a t h
  obtain ⟨_, rfl⟩ := switchTo_eq_ok h
  exact ⟨⟨_, rfl, .enter⟩, trivial⟩

theorem steers_link (id : BlockId) (succs : List BlockId) : Steers names [] (link id succs) 0 [] Anything := by
  intro s a t h
  obtain ⟨_, _, rfl⟩ := link_eq_ok h
  exact ⟨⟨_, rfl, .link⟩, trivial⟩

theorem steers_linkCurrent (succs : List BlockId) : Steers names [] (linkCurrent succs) 0 [] Anything :=
  steers_current.before fun id _ => steers_link id succs

theorem steers_isTerminated : Steers names [] isTerminated 0 [] Anything :=
  steers_current.before fun id _ => (steers_getBlock id).before fun _ _ => .pure trivial

theorem steers_fallThrough (target : BlockId) : Steers names [] (fallThrough target) 0 [] Anything := by
  refine steers_isTerminated.before fun terminated _ => ?_
  cases terminated with
  | true => exact .pure trivial
  | false => exact steers_linkCurrent [target]

theorem steers_ensureOpen : Steers names [] ensureOpen 0 [] Anything := by
  refine steers_isTerminated.before fun terminated _ => ?_
  cases terminated with
  | true => exact steers_newBlock.before fun id _ => steers_switchTo id
  | false => exact .pure trivial

/-- The handles among the operands come first, and they are what is owed. -/
theorem steers_emitBound {opcode : Opcode} {values : List Operand} (hopcode : opcode.passesArgs = false)
    (howed : owed.all Operand.isHandle = true) (hvalues : NoHandles values) :
    Steers names owed (emitBound none opcode (owed ++ values)) 0 [] Anything := by
  intro s id t h
  obtain ⟨⟨b, hat⟩, _, rfl⟩ := emitBound_eq_ok h
  have hcourse := @Course.emit names b opcode (owed ++ values) s hat hopcode
  rw [filter_isHandle howed hvalues] at hcourse
  exact ⟨⟨_, rfl, hcourse⟩, trivial⟩

/-- An instruction takes all that is owed, in the order in which it was drawn. -/
theorem steers_perform {opcode : Opcode} {values : List Operand} (hopcode : opcode.passesArgs = false)
    (howed : owed.all Operand.isHandle = true) (hvalues : NoHandles values) :
    Steers names owed (perform opcode (owed ++ values)) 0 [] Anything :=
  (steers_emitBound hopcode howed hvalues).first fun _ _ => .pure trivial

theorem steers_emit {opcode : Opcode} {values : List Operand} (hopcode : opcode.passesArgs = false)
    (howed : owed.all Operand.isHandle = true) (hvalues : NoHandles values) :
    Steers names owed (emit opcode (owed ++ values)) 0 [] NoHandle :=
  (steers_emitBound hopcode howed hvalues).first fun _ _ => .pure rfl

/-- The constant is drawn and taken at once, so nothing is owed behind a literal. -/
theorem steers_literal (c : Constant) : Steers names [] (literal c) 0 [] NoHandle :=
  .constant (steers_emit rfl rfl .nil)

theorem steers_bindLocal {name : String} {value : Operand} (hvalue : NoHandle value) :
    Steers names [] (bindLocal name value) 0 [] Anything := by
  intro s _ t h
  obtain ⟨⟨b, hat⟩, rfl⟩ := bindLocal_eq_ok h
  exact ⟨⟨_, rfl, .bind hat hvalue⟩, trivial⟩

theorem steers_openPhi (phi : InstrId) (join : BlockId) : Steers names [] (openPhi phi join) 0 [] Anything := by
  rintro s _ _ ⟨⟩
  exact ⟨⟨_, rfl, .withPhis⟩, trivial⟩

theorem steers_pushLoop (loop : Loop) : Steers names [] (pushLoop loop) 0 [] Anything := by
  rintro s _ _ ⟨⟩
  exact ⟨⟨_, rfl, .withLoops⟩, trivial⟩

theorem steers_popLoop : Steers names [] popLoop 0 [] Anything := by
  intro s _ t h
  unfold popLoop at h
  split at h
  · cases h
    exact ⟨⟨_, rfl, .withLoops⟩, trivial⟩
  · cases h

theorem steers_setLoops (loops : List Loop) : Steers names [] (setLoops loops) 0 [] Anything := by
  rintro s _ _ ⟨⟩
  exact ⟨⟨_, rfl, .withLoops⟩, trivial⟩

theorem steers_get : Steers names [] (get : Build Builder) 0 [] Anything := by
  rintro s _ _ ⟨⟩
  exact ⟨⟨_, rfl, .refl⟩, trivial⟩

theorem steers_lift (result : Except BuildError α) : Steers names [] (lift result) 0 [] Anything := by
  cases result with
  | ok a => exact Steers.pure trivial
  | error e => exact Steers.fail

/-- The phi is no handle: its id is that of an instruction to come. -/
theorem steers_contribute (phi : InstrId) {value : Operand} (hvalue : NoHandle value) :
    Steers names [] (contribute phi value) 0 [] Anything := by
  have hrecord : ∀ recorder, Steers names [] (modify fun s : Builder => s.withPhis recorder : Build Unit) 0 []
      Anything := by
    rintro recorder s _ _ ⟨⟩
    exact ⟨⟨_, rfl, .withPhis⟩, trivial⟩
  refine steers_current.before fun _ _ => steers_get.before fun _ _ => (steers_lift _).before fun recorder _ => ?_
  exact (hrecord recorder).before fun _ _ => steers_perform rfl rfl (.cons rfl (.cons hvalue .nil))

/-! The block patterns. -/

variable {first second value test : Build Operand} {reads'' : Nat} {calls'' : List Expr}

theorem steers_performBranch {condition : Operand} (hcondition : NoHandle condition) :
    Steers names [] (perform .branch [condition]) 0 [] Anything :=
  steers_perform rfl rfl (.cons hcondition .nil)

theorem steers_branch {consequent alternate : Build Unit} (htest : Steers names [] test reads calls NoHandle)
    (hconsequent : Steers names [] consequent reads' calls' Anything)
    (halternate : Steers names [] alternate reads'' calls'' Anything) :
    Steers names [] (branch test consequent alternate) (reads + (reads' + reads'')) (calls ++ (calls' ++ calls''))
      Anything := by
  refine htest.bind fun _ hv => (steers_performBranch hv).before fun _ _ => ?_
  refine steers_newBlock.before fun onTrue _ => steers_newBlock.before fun onFalse _ => ?_
  refine steers_newBlock.before fun join _ => (steers_linkCurrent _).before fun _ _ => ?_
  refine (steers_switchTo onTrue).before fun _ _ => hconsequent.bind fun _ _ => ?_
  refine (steers_fallThrough join).before fun _ _ => (steers_switchTo onFalse).before fun _ _ => ?_
  exact halternate.behind fun _ _ => (steers_fallThrough join).before fun _ _ => steers_switchTo join

theorem steers_arm (phi : InstrId) (join block : BlockId) (hvalue : Steers names [] value reads calls NoHandle) :
    Steers names [] (arm phi join block value) reads calls Anything := by
  refine (steers_switchTo block).before fun _ _ => hvalue.behind fun _ hv => ?_
  exact (steers_contribute phi hv).before fun _ _ => steers_linkCurrent [join]

/-- The part of a merge between the id of its phi and the place of it, which it gives. -/
def mergeArms (phi : InstrId) (condition : Operand) (trueFirst : Bool) (first second : Build Operand) :
    Build BlockId := do
  perform .branch [condition]
  let onTrue ← newBlock
  let onFalse ← newBlock
  let join ← newBlock
  openPhi phi join
  linkCurrent [onTrue, onFalse]
  arm phi join (if trueFirst then onTrue else onFalse) first
  arm phi join (if trueFirst then onFalse else onTrue) second
  return join

/-- The id of the phi is drawn before the arms, and the phi is placed behind them. -/
theorem merge_eq (condition : Operand) (trueFirst : Bool) (first second : Build Operand) :
    merge condition trueFirst first second = do
      let phi ← freshInstr
      let join ← mergeArms phi condition trueFirst first second
      enterJoin join phi
      return .instr phi := by
  simp only [merge, mergeArms, bind_assoc, pure_bind]

theorem steers_mergeArms (phi : InstrId) {condition : Operand} (trueFirst : Bool) (hcondition : NoHandle condition)
    (hfirst : Steers names [] first reads calls NoHandle) (hsecond : Steers names [] second reads' calls' NoHandle) :
    Steers names [] (mergeArms phi condition trueFirst first second) (reads + reads') (calls ++ calls') Anything := by
  refine (steers_performBranch hcondition).before fun _ _ => ?_
  refine steers_newBlock.before fun onTrue _ => steers_newBlock.before fun onFalse _ => ?_
  refine steers_newBlock.before fun join _ => (steers_openPhi phi join).before fun _ _ => ?_
  refine (steers_linkCurrent _).before fun _ _ => (steers_arm phi join _ hfirst).bind fun _ _ => ?_
  exact (steers_arm phi join _ hsecond).behind fun _ _ => .pure trivial

theorem steers_merge {condition : Operand} (trueFirst : Bool) (hcondition : NoHandle condition)
    (hfirst : Steers names [] first reads calls NoHandle) (hsecond : Steers names [] second reads' calls' NoHandle) :
    Steers names [] (merge condition trueFirst first second) (reads + reads') (calls ++ calls') NoHandle := by
  intro s v u h
  rw [merge_eq, bind_ok freshInstr_eq] at h
  obtain ⟨join, t, harms, h⟩ := bind_eq_ok h
  obtain ⟨_, t', henter, hpure⟩ := bind_eq_ok h
  obtain ⟨b, hjoin, hempty, rfl⟩ := enterJoin_eq_ok henter
  obtain ⟨⟨draws, hreads, hcourse⟩, _⟩ := steers_mergeArms _ trueFirst hcondition hfirst hsecond _ _ _ harms
  cases hpure
  exact ⟨⟨draws, hreads, hcourse.phi hjoin hempty⟩, rfl⟩

theorem steers_closeContinues (loop : Loop) (header : BlockId) :
    Steers names [] (closeContinues loop header) 0 [] Anything := by
  unfold closeContinues
  cases loop.continues with
  | nil => exact steers_linkCurrent [header]
  | cons first _ => exact (steers_linkCurrent [first]).before fun _ _ => steers_link _ _

/-- The test of a loop is lowered first, then its body and its update. -/
theorem steers_loop {labels : List String} {testFirst : Bool} {update body : Build Unit}
    (htest : Steers names [] test reads calls NoHandle) (hbody : Steers names [] body reads' calls' Anything)
    (hupdate : Steers names [] update reads'' calls'' Anything) :
    Steers names [] (loop labels testFirst test update body) (reads + (reads' + reads'')) (calls ++ (calls' ++ calls''))
      Anything := by
  refine steers_newBlock.before fun continueEntry _ => steers_newBlock.before fun breakEntry _ => ?_
  refine steers_newBlock.before fun header _ => steers_newBlock.before fun testBlock _ => ?_
  refine steers_newBlock.before fun bodyBlock _ => (steers_linkCurrent _).before fun _ _ => ?_
  refine (steers_link _ _).before fun _ _ => (steers_switchTo testBlock).before fun _ _ => ?_
  refine htest.bind fun _ hv => (steers_performBranch hv).before fun _ _ => ?_
  refine (steers_linkCurrent _).before fun _ _ => (steers_pushLoop _).before fun _ _ => ?_
  refine (steers_switchTo bodyBlock).before fun _ _ => hbody.bind fun _ _ => steers_popLoop.before fun loop _ => ?_
  refine (steers_fallThrough _).before fun _ _ => (steers_switchTo _).before fun _ _ => hupdate.behind fun _ _ => ?_
  refine (steers_closeContinues loop header).before fun _ _ => steers_newBlock.before fun after _ => ?_
  exact (steers_link _ _).before fun _ _ => steers_switchTo after

theorem steers_extendChain (kind : Jump) (loop : Loop) (join : BlockId) :
    Steers names [] (extendChain kind loop join) 0 [] Anything := by
  rw [extendChain_eq_ite]
  split
  · exact (steers_link _ _).before fun _ _ => .pure trivial
  · split
    · exact .pure trivial
    · exact .fail

theorem steers_jump (kind : Jump) (label : Option String) : Steers names [] (jump kind label) 0 [] Anything := by
  refine steers_get.before fun s _ => ?_
  dsimp only
  split
  · exact .fail
  · refine steers_newBlock.before fun join _ => (steers_linkCurrent [join]).before fun _ _ => ?_
    exact (steers_extendChain _ _ _).before fun _ _ => steers_setLoops _

/-! Variables. -/

/-- A read draws an id of its own if the variable is local. -/
theorem steers_readName (name : String) : Steers names [] (readName names name) (names.localRead name) [] NoHandle := by
  refine .resolve fun r hfind => ?_
  rw [Names.localRead, hfind]
  cases r with
  | own => exact steers_emit rfl rfl .nil
  | localVar =>
      rintro s _ _ ⟨⟩
      exact ⟨⟨_, rfl, .read⟩, rfl⟩
  | slot depth index => exact .count (.count (steers_emit rfl rfl .nil))
  | global => exact .constant (steers_emit rfl rfl .nil)

theorem steers_storeContext (depth index : Nat) {value : Operand} (hvalue : NoHandle value) :
    Steers names [] (storeContext depth index value) 0 [] Anything :=
  .count (.count (steers_perform rfl rfl (.cons hvalue .nil)))

/-- Writes are not counted, whatever the name means. -/
theorem steers_writeName (name : String) {value : Operand} (hvalue : NoHandle value) :
    Steers names [] (writeName names name value) 0 [] NoHandle := by
  refine .resolve fun r _ => ?_
  cases r with
  | localVar => exact (steers_bindLocal hvalue).before fun _ _ => .pure rfl
  | slot depth index => exact (steers_storeContext depth index hvalue).before fun _ _ => .pure hvalue
  | global | own => exact .constant ((steers_perform rfl rfl (.cons hvalue .nil)).first fun _ _ => .pure hvalue)

theorem steers_loadParams (params : List String) (position : Nat) :
    Steers names [] (loadParams names position params) 0 [] Anything := by
  induction params generalizing position with
  | nil => exact .pure trivial
  | cons name rest ih =>
      refine .count ((steers_emit rfl rfl .nil).first fun _ hv => ?_)
      exact (steers_writeName name hv).before fun _ _ => ih _

theorem steers_clearVars (vars : List String) : Steers names [] (clearVars vars) 0 [] Anything := by
  induction vars with
  | nil => exact .pure trivial
  | cons name rest ih => exact (steers_literal _).before fun _ hv => (steers_bindLocal hv).before fun _ _ => ih

/-- No local variable is read on entry. -/
theorem steers_prologue (scope : Scope) : Steers names [] (prologue names scope) 0 [] Anything := by
  have hself : Steers names [] (loadSelf scope.ownSlot) 0 [] Anything := by
    cases scope.ownSlot with
    | none => exact .pure trivial
    | some slot => exact (steers_emit rfl rfl .nil).before fun _ hv => steers_storeContext _ _ hv
  exact (steers_loadParams scope.params 0).before fun _ _ => hself.before fun _ _ => steers_clearVars scope.vars

end Build

/-! Calls. -/

namespace Builder

variable {s : Builder} {values : List Operand}

@[simp] theorem current_push : (s.push values).current = s.current := by
  induction values generalizing s with
  | nil => rfl
  | cons value rest ih => exact ih

@[simp] theorem ids_push : (s.push values).ids = s.ids := by
  induction values generalizing s with
  | nil => rfl
  | cons value rest ih => exact ih.trans ids_emit

theorem exists_at_push {b : Block} (h : s.At b) (values : List Operand) : ∃ c, (s.push values).At c := by
  apply exists_block?
  rw [current_push, ids_push]
  exact mem_ids_of_block? h

/-- Pushes do not open a block, so there was one before. -/
theorem exists_at_of_push {b : Block} (h : (s.push values).At b) : ∃ b, s.At b := by
  have hmem := mem_ids_of_block? h
  rw [current_push, ids_push] at hmem
  exact exists_block? hmem

end Builder

namespace Build

variable {s t : Builder} {function v : Operand} {arguments : List Operand}

/-- An instruction needs a current block, and yields the next id. -/
theorem emit_eq_ok {opcode : Opcode} {operands : List Operand} (h : emit opcode operands s = .ok v t) :
    (∃ b, s.At b) ∧ v = .instr s.supply.nextInstr ∧ t = s.emit none opcode operands := by
  obtain ⟨id, u, hbound, hpure⟩ := bind_eq_ok h
  obtain ⟨hat, rfl, rfl⟩ := emitBound_eq_ok hbound
  cases hpure
  exact ⟨hat, rfl, rfl⟩

theorem pushArgs_eq_ok {a : Unit} (h : pushArgs arguments s = .ok a t) : t = s.push arguments.reverse := by
  rw [pushArgs] at h
  generalize arguments.reverse = values at h ⊢
  induction values generalizing s with
  | nil =>
      cases h
      rfl
  | cons value rest ih =>
      obtain ⟨_, u, hperform, hrest⟩ := bind_eq_ok h
      obtain ⟨_, u', hbound, hpure⟩ := bind_eq_ok hperform
      obtain ⟨_, _, rfl⟩ := emitBound_eq_ok hbound
      cases hpure
      exact ih hrest

/-- A plain call fetches its receiver behind the arguments. -/
theorem call_global_eq_ok (h : call function (emit .global []) arguments s = .ok v t) :
    (∃ b, s.At b) ∧ NoHandle v ∧ t = s.invoke .plain function arguments := by
  obtain ⟨_, u, hpush, h⟩ := bind_eq_ok h
  obtain ⟨receiver, u', hreceiver, h⟩ := bind_eq_ok h
  obtain ⟨size, u'', hsize, hcall⟩ := bind_eq_ok h
  obtain rfl := pushArgs_eq_ok hpush
  obtain ⟨⟨b, hat⟩, rfl, rfl⟩ := emit_eq_ok hreceiver
  cases hsize
  obtain ⟨_, rfl, rfl⟩ := emit_eq_ok hcall
  exact ⟨Builder.exists_at_of_push hat, rfl, rfl⟩

/-- Where the receiver is at hand, the number of the arguments is all that is drawn behind them. -/
theorem emit_pushed_eq_ok (opcode : Opcode) (operands : Operand → List Operand)
    (h : (pushArgs arguments >>= fun _ => count arguments.length >>= fun size => emit opcode (operands size)) s =
      .ok v t) :
    (∃ b, s.At b) ∧ NoHandle v ∧
      t = (s.push arguments.reverse).draw.emit none opcode (operands (.count arguments.length)) := by
  obtain ⟨_, u, hpush, h⟩ := bind_eq_ok h
  obtain rfl := pushArgs_eq_ok hpush
  obtain ⟨size, u', hsize, hcall⟩ := bind_eq_ok h
  cases hsize
  obtain ⟨⟨b, hat⟩, rfl, rfl⟩ := emit_eq_ok hcall
  exact ⟨Builder.exists_at_of_push hat, rfl, rfl⟩

/-- A call of a method runs as the one change `invoke`, receiver and count included. -/
theorem call_method_eq_ok {object : Operand} (h : call function (return object) arguments s = .ok v t) :
    (∃ b, s.At b) ∧ NoHandle v ∧ t = s.invoke (.method object) function arguments :=
  emit_pushed_eq_ok .call (fun size => [function, object, size]) h

theorem new_eq_ok (h : new function arguments s = .ok v t) :
    (∃ b, s.At b) ∧ NoHandle v ∧ t = s.invoke .construct function arguments :=
  emit_pushed_eq_ok .new (fun size => [function, size]) h

end Build

end ScriptSsa
