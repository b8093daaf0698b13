import Mathlib.Data.Multiset.Bind
import ScriptSsa.Proofs.FunctionGraphs
import ScriptSsa.Proofs.LocalBindings
import ScriptSsa.Proofs.LoweringCourse

/-!
What the instruction ids of a construction are drawn for.

Every id that is drawn goes to an instruction, to a handle or to a read of a local variable, and to one of them
alone. Along a course this is kept in a ledger, which finds the instruction that uses each handle the course draws. The
uses of handles that were drawn before are left open; a course that owes nothing has no such uses. So each handle that
is drawn in a construction is an operand of exactly one instruction, which gets its id after it.
-/

namespace ScriptSsa

open Build

namespace Supply

variable {a b c : Supply}

/-- The instruction ids that are drawn between two supplies. -/
def instrsTo (a b : Supply) : List InstrId := (List.Ico a.instrs b.instrs).map InstrId.mk

theorem instrsTo_eq_nil (h : b.instrs = a.instrs) : a.instrsTo b = [] := by
  rw [instrsTo, h, List.Ico.self_empty, List.map_nil]

theorem instrsTo_append (h : a ≤ b) (h' : b ≤ c) : a.instrsTo b ++ b.instrsTo c = a.instrsTo c := by
  rw [instrsTo, instrsTo, ← List.map_append, List.Ico.append_consecutive h.1 h'.1, instrsTo]

theorem instrsTo_dropInstr : a.instrsTo a.dropInstr = [a.nextInstr] := by
  change (List.Ico a.instrs (a.instrs + 1)).map InstrId.mk = _
  rw [List.Ico.succ_singleton]
  rfl

/-- The id that is drawn first. -/
theorem instrsTo_cons (h : a.dropInstr ≤ b) : a.instrsTo b = a.nextInstr :: a.dropInstr.instrsTo b := by
  rw [← instrsTo_append a.le_dropInstr h, instrsTo_dropInstr]
  rfl

theorem nodup_instrsTo : (a.instrsTo b).Nodup := (List.Ico.nodup _ _).map fun _ _ hid => InstrId.mk.inj hid

theorem length_instrsTo : (a.instrsTo b).length = b.instrs - a.instrs := by
  rw [instrsTo, List.length_map, List.Ico.length]

end Supply

/-- An id that is drawn for a constant, a count or a reference to a block. -/
structure Handle where
  id : InstrId
  operand : Operand
  /-- The instruction that has it as an operand. -/
  user : InstrId

/-- How the handle is drawn. -/
def Handle.draw (h : Handle) : InstrId × Operand := (h.id, h.operand)

/-- Where the handle is used. -/
def Handle.use (h : Handle) : InstrId × Operand := (h.user, h.operand)

/-- The handles among the operands, with the id of the instruction. -/
def Instr.handleUses (i : Instr) : List (InstrId × Operand) :=
  (i.operands.filter Operand.isHandle).map fun o => (i.id, o)

def Graph.handleUses (g : Graph) : List (InstrId × Operand) := g.instrs.flatMap Instr.handleUses

/-- What comes of a course. -/
structure Ledger where
  /-- The new instructions, without their bindings. -/
  instrs : Multiset Instr
  /-- The handles that are drawn, each with its user. -/
  handles : List Handle
  /-- Uses of handles that were drawn before. -/
  uses : Multiset (InstrId × Operand)

/-- The ledger accounts for all that happens from `s` to `t`. -/
structure Ledger.Settles (l : Ledger) (owed : List Operand) (draws : Draws) (s t : Builder) : Prop where
  written : (t.bareAll : Multiset Instr) = s.bareAll + l.instrs
  drawn : (s.supply.instrsTo t.supply : Multiset InstrId) =
    l.instrs.map Instr.id + (draws.handles.map Prod.fst : List InstrId) + (draws.reads : Multiset InstrId)
  handed : l.handles.map Handle.draw = draws.handles
  used : (l.instrs.bind fun i => (i.handleUses : Multiset (InstrId × Operand))) =
    (l.handles.map Handle.use : List (InstrId × Operand)) + l.uses
  owed : l.uses.map Prod.snd = owed
  later : ∀ u ∈ l.uses, s.supply.instrs ≤ u.1.index
  order : ∀ h ∈ l.handles, h.id.index < h.user.index

/-- There is a ledger that accounts for all that happens, if blocks can be told apart. -/
def Accounts (owed : List Operand) (draws : Draws) (s t : Builder) : Prop :=
  s.Distinct → t.Distinct ∧ s.supply ≤ t.supply ∧ ∃ l : Ledger, l.Settles owed draws s t

namespace Accounts

variable {owed owed' : List Operand} {draws draws' : Draws} {s t u : Builder} {b : Block} {values : List Operand}

/-- Nothing is written and no instruction id is drawn. -/
theorem idle (hdistinct : s.Distinct → t.Distinct) (hsupply : s.supply ≤ t.supply)
    (hinstrs : t.supply.instrs = s.supply.instrs) (hbare : (t.bareAll : Multiset Instr) = s.bareAll) :
    Accounts [] .none s t := by
  intro hs
  refine ⟨hdistinct hs, hsupply, ⟨0, [], 0⟩, ?_, ?_, rfl, rfl, rfl, ?_, ?_⟩
  · rw [hbare, add_zero]
  · rw [Supply.instrsTo_eq_nil hinstrs]
    rfl
  · exact fun u hu => absurd hu (Multiset.notMem_zero u)
  · exact fun h hh => absurd hh List.not_mem_nil

theorem refl (s : Builder) : Accounts [] .none s s := idle id (le_refl _) rfl rfl

theorem trans (h : Accounts owed draws s t) (h' : Accounts owed' draws' t u) :
    Accounts (owed ++ owed') (draws ++ draws') s u := by
  intro hs
  obtain ⟨ht, hst, l, hl⟩ := h hs
  obtain ⟨hu, htu, l', hl'⟩ := h' ht
  refine ⟨hu, hst.trans htu, ⟨l.instrs + l'.instrs, l.handles ++ l'.handles, l.uses + l'.uses⟩,
    ?_, ?_, ?_, ?_, ?_, ?_, ?_⟩
  · rw [hl'.written, hl.written, add_assoc]
  · rw [← Supply.instrsTo_append hst htu, ← Multiset.coe_add, hl.drawn, hl'.drawn, Draws.handles_append,
      Draws.reads_append, List.map_append, ← Multiset.coe_add, ← Multiset.coe_add, Multiset.map_add,
      add_add_add_comm, add_add_add_comm (l.instrs.map Instr.id)]
  · rw [List.map_append, hl.handed, hl'.handed, Draws.handles_append]
  · rw [Multiset.add_bind, hl.used, hl'.used, List.map_append, ← Multiset.coe_add, add_add_add_comm]
  · rw [Multiset.map_add, hl.owed, hl'.owed, Multiset.coe_add]
  · intro v hv
    rcases Multiset.mem_add.mp hv with hv | hv
    · exact hl.later v hv
    · exact hst.1.trans (hl'.later v hv)
  · exact List.forall_mem_append.mpr ⟨hl.order, hl'.order⟩

/-- The handle goes to one of the uses that are still open. -/
theorem handle {o : Operand} (h : Accounts (owed ++ [o]) draws s.draw t) :
    Accounts owed (.handle s.supply.nextInstr o ++ draws) s t := by
  intro hs
  obtain ⟨ht, hsupply, l, hl⟩ := h (hs.of_ids_eq rfl s.supply.le_dropInstr)
  have hopen : l.uses.map Prod.snd = o ::ₘ (owed : Multiset Operand) := by
    rw [hl.owed, ← Multiset.coe_add, add_comm]
    rfl
  obtain ⟨use, hmem, rfl, hrest⟩ := (Multiset.map_eq_cons Prod.snd l.uses owed o).mpr hopen
  have hlater : s.supply.instrs + 1 ≤ use.1.index := hl.later use hmem
  refine ⟨ht, s.supply.le_dropInstr.trans hsupply,
    ⟨l.instrs, ⟨s.supply.nextInstr, use.2, use.1⟩ :: l.handles, l.uses.erase use⟩,
    hl.written, ?_, ?_, ?_, hrest, ?_, ?_⟩
  · have hdrawn : (s.supply.dropInstr.instrsTo t.supply : Multiset InstrId) = _ := hl.drawn
    rw [Supply.instrsTo_cons hsupply, ← Multiset.cons_coe, hdrawn, ← Multiset.cons_add, ← Multiset.add_cons]
    rfl
  · exact congrArg (List.cons _) hl.handed
  · rw [hl.used, List.map_cons, ← Multiset.cons_coe, Multiset.cons_add, ← Multiset.add_cons]
    exact congrArg _ (Multiset.cons_erase hmem).symm
  · intro v hv
    exact (Nat.le_succ _).trans (hl.later v (Multiset.mem_of_mem_erase hv))
  · exact List.forall_mem_cons.mpr ⟨hlater, hl.order⟩

theorem read : Accounts [] (.read s.supply.nextInstr) s s.draw := by
  intro hs
  refine ⟨hs.of_ids_eq rfl s.supply.le_dropInstr, s.supply.le_dropInstr, ⟨0, [], 0⟩, ?_, ?_, rfl, rfl, rfl, ?_, ?_⟩
  · rw [add_zero]
    rfl
  · change (s.supply.instrsTo s.supply.dropInstr : Multiset InstrId) = _
    rw [Supply.instrsTo_dropInstr]
    rfl
  · exact fun u hu => absurd hu (Multiset.notMem_zero u)
  · exact fun h hh => absurd hh List.not_mem_nil

/-- New instructions in the function at hand. -/
theorem written_of_perm {new : List Instr} (hbare : t.bare.Perm (new ++ s.bare)) (hfinished : t.finished = s.finished) :
    (t.bareAll : Multiset Instr) = s.bareAll + (new : Multiset Instr) := by
  rw [Builder.bareAll, Builder.bareAll, hfinished, Multiset.coe_add, Multiset.coe_eq_coe]
  refine (hbare.append_right _).trans ?_
  rw [List.append_assoc]
  exact List.perm_append_comm

theorem emit {binding : Option String} {opcode : Opcode} {operands : List Operand} (hat : s.At b) :
    Accounts (operands.filter Operand.isHandle) .none s (s.emit binding opcode operands) := by
  intro hs
  refine ⟨hs.of_ids_eq Builder.ids_emit s.supply.le_dropInstr, s.supply.le_dropInstr,
    ⟨{⟨s.supply.nextInstr, opcode, operands, none⟩}, [],
      (operands.filter Operand.isHandle).map fun o => (s.supply.nextInstr, o)⟩, ?_, ?_, rfl, ?_, ?_, ?_, ?_⟩
  · exact written_of_perm (Builder.perm_bare_emit hs.1 hat) rfl
  · change (s.supply.instrsTo s.supply.dropInstr : Multiset InstrId) = _
    rw [Supply.instrsTo_dropInstr]
    rfl
  · rw [Multiset.singleton_bind, List.map_nil, Multiset.coe_nil, zero_add]
    rfl
  · rw [Multiset.map_coe, List.map_map]
    exact congrArg _ (List.map_id _)
  · intro u hu
    obtain ⟨_, _, rfl⟩ := List.mem_map.mp (Multiset.mem_coe.mp hu)
    exact le_refl _
  · exact fun h hh => absurd hh List.not_mem_nil

/-- The id of a phi is drawn first and its place is the last thing that is written. -/
theorem phi {join : BlockId} (h : Accounts owed draws s.draw t) (hjoin : t.block? join = some b)
    (hempty : b.instrs = []) : Accounts owed draws s (t.place s.supply.nextInstr join) := by
  intro hs
  obtain ⟨ht, hsupply, l, hl⟩ := h (hs.of_ids_eq rfl s.supply.le_dropInstr)
  have hplaced : (t.place s.supply.nextInstr join).bare.Perm ([⟨s.supply.nextInstr, .phi, [], none⟩] ++ t.bare) := by
    refine Builder.perm_bare_modifyBlock (s := t.enter join) _ ht.1 hjoin ?_
    rw [hempty]
    exact .refl _
  refine ⟨ht.of_ids_eq Builder.ids_place (le_refl _), s.supply.le_dropInstr.trans hsupply,
    ⟨⟨s.supply.nextInstr, .phi, [], none⟩ ::ₘ l.instrs, l.handles, l.uses⟩,
    ?_, ?_, hl.handed, ?_, hl.owed, ?_, hl.order⟩
  · rw [written_of_perm hplaced rfl, hl.written, add_assoc, add_comm l.instrs]
    rfl
  · have hdrawn : (s.supply.dropInstr.instrsTo t.supply : Multiset InstrId) = _ := hl.drawn
    change (s.supply.instrsTo t.supply : Multiset InstrId) = _
    rw [Supply.instrsTo_cons hsupply, ← Multiset.cons_coe, hdrawn, Multiset.map_cons, Multiset.cons_add,
      Multiset.cons_add]
  · rw [Multiset.cons_bind, hl.used]
    exact zero_add _
  · exact fun v hv => (Nat.le_succ _).trans (hl.later v hv)

theorem emitValues {binding : Option String} {opcode : Opcode} (hat : s.At b) (hvalues : NoHandles values) :
    Accounts [] .none s (s.emit binding opcode values) := by
  rw [← hvalues.filter_eq_nil]
  exact emit hat

theorem bindLocal {name : String} {value : Operand} (hat : s.At b) (hvalue : NoHandle value) :
    Accounts [] .none s (s.bindLocal name value) := by
  cases hbound : b.bindLast? name value with
  | none =>
      rw [Builder.bindLocal_nop hat hbound]
      exact emitValues hat (.cons hvalue .nil)
  | some bound =>
      rw [Builder.bindLocal_replace hat hbound]
      intro hs
      have hids := Builder.ids_replace_bound hat hbound
      have hbare : ((s.replace bound).bareAll : Multiset Instr) = s.bareAll + (([] : List Instr) : Multiset Instr) :=
        written_of_perm (Builder.perm_bare_replace hs.1 hat hbound) rfl
      exact idle (fun hs => hs.of_ids_eq hids (le_refl _)) (le_refl _) rfl (hbare.trans (add_zero _)) hs

/-- What a nested function is accounted for goes over to the function around it. -/
theorem function {g : Graph} (h : Accounts [] draws s.nested t) (hg : g.blocks = t.blocks) :
    Accounts [] draws s (s.resume t g) := by
  intro hs
  obtain ⟨_, hsupply, l, hl⟩ := h ⟨List.nodup_singleton _, s.ordered_nested.fresh⟩
  have hgrown : s.supply ≤ t.supply := s.supply.le_dropBlock.trans hsupply
  refine ⟨hs.of_ids_eq rfl hgrown, hgrown, l, ?_, hl.drawn, hl.handed, hl.used, hl.owed, hl.later, hl.order⟩
  have hbare : g.bare = t.bare := by rw [Graph.bare, hg, Builder.bare]
  have hinner : (t.bareAll : Multiset Instr) = (s.finished.graphs.flatMap Graph.bare : Multiset Instr) + l.instrs :=
    hl.written
  calc ((s.resume t g).bareAll : Multiset Instr)
      = (s.bare : Multiset Instr) + t.bareAll := by
        rw [Builder.bareAll, Builder.bareAll, Multiset.coe_add, Multiset.coe_eq_coe]
        change (s.bare ++ (t.finished.graphs ++ [g]).flatMap Graph.bare).Perm _
        rw [List.flatMap_append, List.flatMap_singleton, hbare]
        exact List.perm_append_comm.append_left _
    _ = (s.bareAll : Multiset Instr) + l.instrs := by
        rw [hinner, ← add_assoc, Multiset.coe_add]
        rfl

theorem push (hat : s.At b) (hvalues : NoHandles values) : Accounts [] .none s (s.push values) := by
  induction values generalizing s b with
  | nil => exact refl s
  | cons value rest ih =>
      obtain ⟨hvalue, hrest⟩ := List.forall_mem_cons.mp hvalues
      have hpush : Accounts [] .none s (s.emit none .pushArg [value]) := emitValues hat (.cons hvalue .nil)
      exact hpush.trans (ih (Builder.At_emit hat) hrest)

/-- An instruction whose only handle is the count that stands last. -/
theorem counted {opcode : Opcode} {n : Nat} (hat : s.At b) (hvalues : NoHandles values) :
    Accounts [] (.handle s.supply.nextInstr (.count n)) s (s.draw.emit none opcode (values ++ [.count n])) := by
  have hat' : s.draw.At b := hat
  have hemit := @emit s.draw b none opcode (values ++ [.count n]) hat'
  rw [List.filter_append, hvalues.filter_eq_nil] at hemit
  exact handle hemit

/-- A call draws an id for each of its arguments, for the receiver if that is the global object, for the number of
arguments and for itself. -/
theorem invoke {form : Invocation} {function : Operand} {arguments : List Operand} (hat : s.At b)
    (hvalues : NoHandles (form.operands function ++ arguments)) :
    Accounts [] (.handle (s.countId form arguments) (.count arguments.length)) s
      (s.invoke form function arguments) := by
  obtain ⟨hoperands, harguments⟩ := List.forall_mem_append.mp hvalues
  obtain ⟨c, hpushed⟩ := Builder.exists_at_push hat arguments.reverse
  have hpush : Accounts [] .none s (s.push arguments.reverse) :=
    push hat fun o ho => harguments o (List.mem_reverse.mp ho)
  cases form with
  | plain =>
      have hglobal : Accounts [] .none (s.push arguments.reverse) ((s.push arguments.reverse).emit none .global []) :=
        emit hpushed
      have hcall : NoHandles [function, .instr (s.push arguments.reverse).supply.nextInstr] :=
        .cons (hoperands function List.mem_cons_self) (.cons rfl .nil)
      exact (hpush.trans hglobal).trans (counted (Builder.At_emit hpushed) hcall)
  | method receiver => exact hpush.trans (counted hpushed hoperands)
  | construct => exact hpush.trans (counted hpushed hoperands)

end Accounts

theorem Builder.ids_eq_of_blockCode {s t : Builder} (h : t.blockCode = s.blockCode) : t.ids = s.ids := by
  have hids := congrArg (List.map Prod.fst) h
  rw [blockCode, blockCode, List.map_map, List.map_map] at hids
  exact hids

theorem Builder.bare_eq_of_blockCode {s t : Builder} (h : t.blockCode = s.blockCode) : t.bare = s.bare := by
  have hbare := congrArg (List.flatMap fun c => c.2.map Instr.bare) h
  rw [blockCode, blockCode, List.flatMap_map, List.flatMap_map] at hbare
  exact hbare

/-- Every course is accounted for. -/
theorem Course.accounts {names : Names} {owed : List Operand} {draws : Draws} {calls : List Expr} {s t : Builder}
    (h : Course names owed draws calls s t) : Accounts owed draws s t := by
  induction h with
  | refl => exact .refl _
  | trans _ _ ih ih' => exact ih.trans ih'
  | handle _ ih => exact ih.handle
  | read => exact .read
  | phi _ hjoin hempty ih => exact ih.phi hjoin hempty
  | emit hat _ => exact .emit hat
  | call hat _ hvalues => exact .invoke hat hvalues
  | bind hat hvalue => exact .bindLocal hat hvalue
  | @alloc _ s =>
      refine .idle Builder.Distinct.alloc s.supply.le_dropBlock rfl ?_
      rw [Builder.bareAll, Builder.bare_alloc]
      rfl
  | @quiet _ s t hcode hsupply hfinished =>
      refine .idle (fun hs => hs.of_ids_eq (Builder.ids_eq_of_blockCode hcode) (le_of_eq hsupply.symm))
        (le_of_eq hsupply.symm) (by rw [hsupply]) ?_
      rw [Builder.bareAll, Builder.bare_eq_of_blockCode hcode, hfinished]
      rfl
  | function _ hg ih => exact ih.function hg

/-- How many identifiers in a script are read as local variables. -/
def Program.localReads (p : Program) : Nat :=
  localReadsOf (Names.outermost.enter (Scope.ofBody none [] p.body)) p.body

theorem Graph.instrIds_eq (g : Graph) : g.instrIds = g.instrs.map Instr.id := by
  rw [instrs, List.map_flatMap]
  rfl

theorem Graph.handleUses_eq (g : Graph) : g.handleUses = g.bare.flatMap Instr.handleUses := by
  rw [handleUses, instrs, bare, List.flatMap_assoc, List.flatMap_assoc]
  refine List.flatMap_congr fun b _ => ?_
  rw [List.flatMap_map]
  rfl

/-- The draws that are made while the body of the script is lowered. -/
def Program.Makes (p : Program) (supply : Supply) (draws : Draws) : Prop :=
  ∃ t, lowerBody (Names.outermost.enter (Scope.ofBody none [] p.body)) ⟨none, [], p.body⟩
      (Builder.start supply).nested = .ok () t ∧
    Course (Names.outermost.enter (Scope.ofBody none [] p.body)) [] draws (callsOf p.body)
      (Builder.start supply).nested t

/-- A construction lowers the body of the script, and where that ends all graphs are there. -/
theorem lowerBody_of_constructWith {p : Program} {supply : Supply} {graphs : List Graph}
    (h : (constructWith p supply).1 = .ok graphs) :
    ∃ t, lowerBody (Names.outermost.enter (Scope.ofBody none [] p.body)) ⟨none, [], p.body⟩
        (Builder.start supply).nested = .ok () t ∧
      graphs.flatMap Graph.bare = t.bareAll ∧ (constructWith p supply).2 = t.supply := by
  obtain ⟨main, u, hrun, rfl⟩ := lowerGraph_of_constructWith h
  have hsupply : (constructWith p supply).2 = u.supply := by
    have hlower : lowerProgram .outermost p = lowerGraph .outermost p.main := rfl
    rw [constructWith, constructUsing, hlower, hrun]
  obtain ⟨params, t, hparams, hbody, _, hmain, rfl⟩ := lowerGraph_eq_ok hrun
  obtain rfl : params = [] := List.map_eq_nil_iff.mp (Eq.symm hparams)
  refine ⟨t, hbody, ?_, hsupply⟩
  rw [List.flatMap_cons, Graph.bare, hmain]
  rfl

/-- What the instruction ids between two supplies are drawn for. -/
structure Spent (before after : Supply) (graphs : List Graph) (handles : List Handle) (reads : List InstrId) :
    Prop where
  /-- Each id that is drawn is that of an instruction, of a handle or of a read. -/
  drawn : (graphs.flatMap Graph.instrIds ++ (handles.map Handle.id ++ reads)).Perm (before.instrsTo after)
  /-- No id is that of two of them. -/
  nodup : (graphs.flatMap Graph.instrIds ++ (handles.map Handle.id ++ reads)).Nodup
  /-- Each handle is an operand of an instruction at one place, and at each place there is one. -/
  used : (handles.map Handle.use).Perm (graphs.flatMap Graph.handleUses)
  order : ∀ h ∈ handles, h.id.index < h.user.index

/-- All instruction ids of a construction are accounted for: by its instructions, by the handles that are drawn, each
of them a constant, count or reference to a block that is an operand of one instruction, and by the reads of local
variables in the script. -/
theorem drawn_ids_accounted_for (p : Program) (supply : Supply) (graphs : List Graph)
    (h : (constructWith p supply).1 = .ok graphs) :
    (constructWith p supply).2.instrs = supply.instrs + (graphs.flatMap Graph.instrs).length +
      (graphs.flatMap Graph.handleUses).length + p.localReads ∧
    ∃ handles reads, p.Makes supply ⟨handles.map Handle.draw, reads⟩ ∧
      Spent supply (constructWith p supply).2 graphs handles reads ∧ reads.length = p.localReads := by
  obtain ⟨t, hbody, hgraphs, hsupply⟩ := lowerBody_of_constructWith h
  obtain ⟨⟨draws, hreads, hcourse⟩, _⟩ := lowerBody_course _ _ _ _ _ hbody
  change draws.reads.length = p.localReads at hreads
  obtain ⟨_, hgrown, l, hl⟩ := hcourse.accounts ⟨List.nodup_singleton _, (Builder.start supply).ordered_nested.fresh⟩
  have hinstrs : (l.instrs : Multiset Instr) = (graphs.flatMap Graph.bare : List Instr) := by
    rw [hgraphs, hl.written]
    exact (zero_add _).symm
  have hnone : l.uses = 0 := Multiset.map_eq_zero.mp hl.owed
  have hhanded : l.handles.map Handle.id = draws.handles.map Prod.fst := by
    rw [← hl.handed, List.map_map]
    rfl
  have hdrawn : (graphs.flatMap Graph.instrIds ++ (l.handles.map Handle.id ++ draws.reads)).Perm
      (supply.instrsTo (constructWith p supply).2) := by
    have hids : (supply.instrsTo t.supply : Multiset InstrId) = _ := hl.drawn
    rw [hsupply, ← Multiset.coe_eq_coe, hids, hinstrs, hhanded, Multiset.map_coe, List.map_flatMap, ← Multiset.coe_add,
      ← Multiset.coe_add, add_assoc]
    simp only [Graph.map_bare_id]
  have hused : (l.handles.map Handle.use).Perm (graphs.flatMap Graph.handleUses) := by
    have huses := hl.used
    rw [hinstrs, hnone, add_zero, Multiset.coe_bind, List.flatMap_assoc] at huses
    rw [← Multiset.coe_eq_coe, ← huses]
    exact congrArg _ (List.flatMap_congr fun g _ => g.handleUses_eq.symm)
  refine ⟨?_, l.handles, draws.reads, ⟨t, hbody, hl.handed ▸ hcourse⟩,
    ⟨hdrawn, hdrawn.nodup_iff.mpr Supply.nodup_instrsTo, hused, hl.order⟩, hreads⟩
  have hlength := hdrawn.length_eq
  have hhandles := hused.length_eq
  have hcount : (graphs.flatMap Graph.instrIds).length = (graphs.flatMap Graph.instrs).length := by
    rw [List.flatMap_congr fun g _ => g.instrIds_eq, ← List.map_flatMap, List.length_map]
  have hle : supply.instrs ≤ t.supply.instrs := hgrown.1
  rw [List.length_append, List.length_append, List.length_map, Supply.length_instrsTo, hsupply] at hlength
  rw [List.length_map] at hhandles
  rw [hsupply]
  omega

/-- `var x; function f(a, b) { return function () { return a + this; }; } x = f(x, [1])(); x += x; delete x; x++;` -/
def countedScript : Program :=
  ⟨[.var (.plain "x" none),
    .function (.plain (some "f") ["a", "b"] [.ret (some (.function (.plain none []
      [.ret (some (.binary .add (.ident "a") .this))])))]),
    .expr (.assign .assign (.ident "x")
      (.call (.call (.ident "f") [.ident "x", .array [some (.literal (.number (.ofNat 1)))]]) [])),
    .expr (.assign .add (.ident "x") (.ident "x")), .expr (.unary .delete (.ident "x")),
    .expr (.update .increment false (.ident "x"))]⟩

/-- A supply that seven instructions and three blocks have been drawn from. -/
def usedSupply : Supply := ⟨7, 3⟩

def countedGraphs : List Graph := (constructWith countedScript usedSupply).1.toOption.getD []

theorem drawn_ids_accounted_for_counted :
    (constructWith countedScript usedSupply).1 = .ok countedGraphs ∧
    (constructWith countedScript usedSupply).2.instrs = 57 ∧ countedScript.localReads = 5 ∧
    (constructWith countedScript usedSupply).2.instrs =
      usedSupply.instrs + (countedGraphs.flatMap Graph.instrs).length +
        (countedGraphs.flatMap Graph.handleUses).length + countedScript.localReads ∧
    ∃ handles reads, countedScript.Makes usedSupply ⟨handles.map Handle.draw, reads⟩ ∧
      Spent usedSupply (constructWith countedScript usedSupply).2 countedGraphs handles reads ∧
      reads.length = countedScript.localReads :=
  ⟨by decide +kernel, by decide +kernel, by decide +kernel,
    drawn_ids_accounted_for countedScript usedSupply countedGraphs (by decide +kernel)⟩

end ScriptSsa
