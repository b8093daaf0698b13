import ScriptSsa.Proofs.IdAccounting
import ScriptSsa.Proofs.LoopLayout

/-!
How arguments are passed.

A call pushes its arguments, the last one first, fetches the global object if it has no receiver, and takes the
arguments again. The code of a block splits into such pieces and into instructions that leave the argument stack
alone. So the stack is empty wherever a piece starts, and each call finds its own arguments on it.
-/

namespace ScriptSsa

open Build

/-- Whether the instruction takes arguments. -/
def Opcode.takesArgs : Opcode → Bool
  | call | new => true
  | _ => false

theorem Opcode.takesArgs_of_not {opcode : Opcode} (h : opcode.passesArgs = false) : opcode.takesArgs = false := by
  cases opcode with
  | call | new => cases h
  | _ => rfl

/-- The argument stack after an instruction, the value that was pushed last on top. -/
def Instr.passArgs (stack : List Operand) (i : Instr) : Option (List Operand) :=
  match i.opcode, i.operands with
  | .pushArg, [value] => some (value :: stack)
  | .call, [_, _, .count n] => if n ≤ stack.length then some (stack.drop n) else none
  | .new, [_, .count n] => if n ≤ stack.length then some (stack.drop n) else none
  | .pushArg, _ | .call, _ | .new, _ => none
  | _, _ => some stack

/-- The argument stack after some instructions that find it empty. -/
def passArgs (is : List Instr) : Option (List Operand) := is.foldlM Instr.passArgs []

/-- Code that leaves nothing on the stack does not matter to what comes behind it. -/
theorem passArgs_append {is : List Instr} (h : passArgs is = some []) (js : List Instr) :
    passArgs (is ++ js) = passArgs js := by
  rw [passArgs] at h
  rw [passArgs, List.foldlM_append, h]
  rfl

/-- All other instructions leave the stack alone. -/
theorem Instr.passArgs_of_not {i : Instr} (h : i.opcode.passesArgs = false) (stack : List Operand) :
    i.passArgs stack = some stack := by
  obtain ⟨id, opcode, operands, binding⟩ := i
  cases opcode with
  | pushArg | call | new => cases h
  | _ => rfl

/-- Pushes of values, with ids from the given one on. -/
def pushesFrom (first : Nat) : List Operand → List Instr
  | [] => []
  | value :: rest => ⟨⟨first⟩, .pushArg, [value], none⟩ :: pushesFrom (first + 1) rest

/-- What is pushed last is on top. -/
theorem foldlM_pushesFrom (first : Nat) (values stack : List Operand) :
    (pushesFrom first values).foldlM Instr.passArgs stack = some (values.reverse ++ stack) := by
  induction values generalizing first stack with
  | nil => rfl
  | cons value rest ih =>
      rw [pushesFrom, List.foldlM_cons, List.reverse_cons, List.append_assoc]
      exact ih (first + 1) (value :: stack)

theorem filter_pushesFrom (first : Nat) (values : List Operand) :
    (pushesFrom first values).filter (fun i => i.opcode = .pushArg) = pushesFrom first values ∧
      (pushesFrom first values).filter (fun i => i.opcode.takesArgs) = [] := by
  induction values generalizing first with
  | nil => exact ⟨rfl, rfl⟩
  | cons value rest ih =>
      obtain ⟨hpush, htake⟩ := ih (first + 1)
      exact ⟨congrArg (List.cons _) hpush, htake⟩

namespace CallCode

variable (c : CallCode)

/-- The pushes of the arguments, the last one first. -/
def pushes : List Instr := pushesFrom c.first.index c.arguments.reverse

/-- The id that is drawn next after the pushes. -/
def next : Nat := c.first.index + c.arguments.length

/-- The instruction that fetches the receiver, unless it is at hand. -/
def receiver : List Instr :=
  match c.form with
  | .plain => [⟨⟨c.next⟩, .global, [], none⟩]
  | .method _ | .construct => []

/-- The instruction that takes the arguments. The id before its own is that of the count. -/
def taker : Instr :=
  match c.form with
  | .plain => ⟨⟨c.next + 2⟩, .call, [c.function, .instr ⟨c.next⟩, .count c.arguments.length], none⟩
  | .method receiver => ⟨⟨c.next + 1⟩, .call, [c.function, receiver, .count c.arguments.length], none⟩
  | .construct => ⟨⟨c.next + 1⟩, .new, [c.function, .count c.arguments.length], none⟩

/-- What comes before the taker. -/
def setup : List Instr := c.pushes ++ c.receiver

def instrs : List Instr := c.setup ++ [c.taker]

theorem setup_of_receiver (h : c.receiver = []) : c.setup = c.pushes := by rw [setup, h, List.append_nil]

/-- Before the call its arguments are on top, the first one first. -/
theorem foldlM_setup (stack : List Operand) :
    c.setup.foldlM Instr.passArgs stack = some (c.arguments ++ stack) := by
  rw [setup, List.foldlM_append, pushes, foldlM_pushesFrom, List.reverse_reverse, receiver]
  cases c.form <;> rfl

/-- The call takes as many as its count says, which are its own. -/
theorem taker_passArgs (stack : List Operand) : c.taker.passArgs (c.arguments ++ stack) = some stack := by
  have hle : c.arguments.length ≤ (c.arguments ++ stack).length := by
    rw [List.length_append]
    exact Nat.le_add_right _ _
  rw [taker]
  cases c.form with
  | plain | method | construct =>
      change (if _ then some (List.drop _ _) else none) = _
      rw [if_pos hle, List.drop_left]

/-- So the code of a call leaves the stack as it found it. -/
theorem foldlM_instrs (stack : List Operand) : c.instrs.foldlM Instr.passArgs stack = some stack := by
  rw [instrs, List.foldlM_append, foldlM_setup]
  change (c.taker.passArgs (c.arguments ++ stack)).bind pure = _
  rw [taker_passArgs]
  rfl

theorem filter_pushArg : c.instrs.filter (fun i => i.opcode = .pushArg) = c.pushes := by
  rw [instrs, setup, List.filter_append, List.filter_append, pushes, (filter_pushesFrom _ _).1, receiver, taker]
  cases c.form <;> exact (List.append_nil _).trans (List.append_nil _)

theorem filter_takesArgs : c.instrs.filter (fun i => i.opcode.takesArgs) = [c.taker] := by
  rw [instrs, setup, List.filter_append, List.filter_append, pushes, (filter_pushesFrom _ _).2, receiver, taker]
  cases c.form <;> rfl

theorem takesArgs_of_mem_setup {i : Instr} (h : i ∈ c.setup) : i.opcode.takesArgs = false := by
  have hnone : c.setup.filter (fun i => i.opcode.takesArgs) = [] := by
    rw [setup, List.filter_append, pushes, (filter_pushesFrom _ _).2, receiver]
    cases c.form <;> rfl
  exact Bool.eq_false_iff.mpr (List.filter_eq_nil_iff.mp hnone i h)

theorem map_bare : c.instrs.map Instr.bare = c.instrs := by
  have hpushes : ∀ first values, (pushesFrom first values).map Instr.bare = pushesFrom first values := by
    intro first values
    induction values generalizing first with
    | nil => rfl
    | cons value rest ih => exact congrArg (List.cons _) (ih (first + 1))
  rw [instrs, setup, List.map_append, List.map_append, pushes, hpushes, receiver, taker]
  cases c.form <;> rfl

end CallCode

/-- The instructions are the codes of the calls, in this order, and others between them that leave the argument stack
alone. -/
inductive Splits : List Instr → List CallCode → Prop where
  | nil : Splits [] []
  | other {is : List Instr} {codes : List CallCode} {i : Instr} (h : Splits is codes)
      (hi : i.opcode.passesArgs = false) : Splits (is ++ [i]) codes
  | call {is : List Instr} {codes : List CallCode} {c : CallCode} (h : Splits is codes) :
      Splits (is ++ c.instrs) (codes ++ [c])

namespace Splits

variable {is : List Instr} {codes : List CallCode}

/-- Between the pieces the stack is empty. -/
theorem passArgs_eq (h : Splits is codes) : passArgs is = some [] := by
  induction h with
  | nil => rfl
  | other _ hi ih =>
      rw [passArgs_append ih]
      change (Instr.passArgs [] _).bind pure = _
      rw [Instr.passArgs_of_not hi]
      rfl
  | call _ ih =>
      rw [passArgs_append ih]
      exact CallCode.foldlM_instrs _ []

/-- Every push belongs to a call. -/
theorem filter_pushArg (h : Splits is codes) :
    is.filter (fun i => i.opcode = .pushArg) = codes.flatMap CallCode.pushes := by
  induction h with
  | nil => rfl
  | @other _ _ i _ hi ih =>
      have hne : ¬ i.opcode = .pushArg := by
        intro heq
        rw [heq] at hi
        cases hi
      rw [List.filter_append, ih, List.filter_singleton, decide_eq_false hne]
      exact List.append_nil _
  | call _ ih =>
      rw [List.filter_append, ih, CallCode.filter_pushArg, List.flatMap_append, List.flatMap_singleton]

/-- And every call to a piece of its own. -/
theorem filter_takesArgs (h : Splits is codes) :
    is.filter (fun i => i.opcode.takesArgs) = codes.map CallCode.taker := by
  induction h with
  | nil => rfl
  | @other _ _ i _ hi ih =>
      rw [List.filter_append, ih, List.filter_singleton, Opcode.takesArgs_of_not hi]
      exact List.append_nil _
  | call _ ih =>
      rw [List.filter_append, ih, CallCode.filter_takesArgs, List.map_append]
      rfl

/-- Before an instruction that takes arguments stands the rest of the code of its call. -/
theorem exists_setup (h : Splits is codes) {before after : List Instr} {i : Instr} (his : is = before ++ i :: after)
    (hi : i.opcode.takesArgs = true) :
    ∃ c ∈ codes, i = c.taker ∧ ∃ rest, before = rest ++ c.setup ∧ passArgs rest = some [] := by
  induction h generalizing after with
  | nil => cases (List.append_eq_nil_iff.mp his.symm).2
  | @other is codes j _ hj ih =>
      rcases after.eq_nil_or_concat with rfl | ⟨after, last, rfl⟩
      · obtain ⟨_, hlast⟩ := List.append_inj' his rfl
        obtain rfl : j = i := List.singleton_inj.mp hlast
        rw [Opcode.takesArgs_of_not hj] at hi
        cases hi
      · rw [List.concat_eq_append, ← List.cons_append, ← List.append_assoc] at his
        exact ih (List.append_inj' his rfl).1
  | @call is codes c h ih =>
      rcases after.eq_nil_or_concat with rfl | ⟨after, last, rfl⟩
      · rw [CallCode.instrs, ← List.append_assoc] at his
        obtain ⟨hbefore, hlast⟩ := List.append_inj' his rfl
        exact ⟨c, List.mem_append_right _ List.mem_cons_self, (List.singleton_inj.mp hlast).symm, is, hbefore.symm,
          h.passArgs_eq⟩
      · rw [CallCode.instrs, ← List.append_assoc, List.concat_eq_append, ← List.cons_append, ← List.append_assoc] at his
        -- No instruction of the setup takes arguments, so the one at hand stands before it.
        have hnot : i ∉ c.setup := fun hmem => by
          rw [c.takesArgs_of_mem_setup hmem] at hi
          cases hi
        obtain ⟨heq, _⟩ := List.append_inj' his rfl
        rcases List.append_eq_append_iff.mp heq with ⟨rest, _, hsetup⟩ | ⟨rest, hearlier, hrest⟩
        · exact absurd (hsetup ▸ List.mem_append_right rest List.mem_cons_self) hnot
        · cases rest with
          | nil =>
              have hsetup : i :: after = c.setup := hrest
              exact absurd (hsetup ▸ List.mem_cons_self) hnot
          | cons j rest =>
              obtain ⟨rfl, _⟩ := List.cons.inj hrest
              obtain ⟨d, hd, hcall⟩ := ih hearlier
              exact ⟨d, List.mem_append_left _ hd, hcall⟩

end Splits

namespace Builder

variable {s t : Builder} {b : Block} {id : BlockId} {codes new : List CallCode}

/-! Pushes and the call behind them come down to code that is appended to the current block. -/

def append (s : Builder) (is : List Instr) : Builder :=
  s.modifyBlock s.current fun b => { b with instrs := b.instrs ++ is }

/-- Draws instruction ids. -/
def advance (s : Builder) (n : Nat) : Builder := { s with supply := ⟨s.supply.instrs + n, s.supply.blocks⟩ }

theorem append_append (is js : List Instr) : (s.append is).append js = s.append (is ++ js) := by
  have htwice : (s.append is).append js = s.modifyBlock s.current fun b => { b with instrs := b.instrs ++ is ++ js } :=
    modifyBlock_modifyBlock fun _ h => h
  rw [htwice, append]
  simp only [List.append_assoc]

theorem append_nil : s.append [] = s := by
  have hblocks : s.blocks.map (fun b => if b.id = s.current then { b with instrs := b.instrs ++ [] } else b) =
      s.blocks := by
    simp
  exact congrArg (fun blocks => { s with blocks }) hblocks

/-- Pushes go to the current block, one id each. -/
theorem push_eq (values : List Operand) :
    s.push values = (s.advance values.length).append (pushesFrom s.supply.instrs values) := by
  induction values generalizing s with
  | nil => exact append_nil.symm
  | cons value rest ih =>
      have hpush : s.push (value :: rest) =
          (s.draw.append [⟨⟨s.supply.instrs⟩, .pushArg, [value], none⟩]).push rest := rfl
      have hadvance : s.draw.advance rest.length = s.advance (value :: rest).length := by
        rw [advance, advance, List.length_cons, Nat.add_comm rest.length 1, ← Nat.add_assoc]
        rfl
      rw [hpush, ih, ← hadvance]
      exact @append_append (s.draw.advance rest.length) [⟨⟨s.supply.instrs⟩, .pushArg, [value], none⟩]
        (pushesFrom (s.supply.instrs + 1) rest)

/-- A call as a whole: ids are drawn and its code is appended. -/
theorem invoke_eq (form : Invocation) (function : Operand) (arguments : List Operand) :
    ∃ n, s.invoke form function arguments = (s.advance n).append (s.callCode form function arguments).instrs := by
  cases form with
  | plain =>
      refine ⟨arguments.length + 3, ?_⟩
      rw [invoke, push_eq, List.length_reverse, CallCode.instrs, CallCode.setup, ← append_append, ← append_append]
      rfl
  | method | construct =>
      refine ⟨arguments.length + 2, ?_⟩
      rw [invoke, push_eq, List.length_reverse, CallCode.instrs, CallCode.setup_of_receiver _ rfl, ← append_append]
      rfl

/-- The calls account for all that happens to the argument stack: the code of each block splits into the codes of
those that stand in it. -/
structure Serves (s : Builder) (codes : List CallCode) : Prop where
  splits : ∀ b ∈ s.blocks, Splits (b.instrs.map Instr.bare) (codes.filter fun c => c.block = b.id)
  blocks : ∀ c ∈ codes, c.block ∈ s.ids

theorem Serves.of_blocks_eq (h : s.Serves codes) (hblocks : t.blocks = s.blocks) : t.Serves codes := by
  obtain ⟨hsplits, hmem⟩ := h
  refine ⟨hblocks ▸ hsplits, fun c hc => ?_⟩
  rw [ids, hblocks]
  exact hmem c hc

/-- A change of one block that adds calls to it. -/
theorem Serves.modifyBlock {f : Block → Block} (h : s.Serves codes) (hnodup : s.ids.Nodup)
    (hb : s.block? id = some b) (hid : ∀ b, b.id = id → (f b).id = id) (hnew : ∀ c ∈ new, c.block = id)
    (hf : Splits (b.instrs.map Instr.bare) (codes.filter fun c => c.block = id) →
      Splits ((f b).instrs.map Instr.bare) ((codes.filter fun c => c.block = id) ++ new)) :
    (s.modifyBlock id f).Serves (codes ++ new) := by
  refine ⟨fun c hc => ?_, fun c hc => ?_⟩
  · obtain ⟨d, hd, rfl⟩ := List.mem_map.mp hc
    rw [List.filter_append]
    by_cases heq : d.id = id
    · obtain rfl : d = b := Option.some.inj ((heq ▸ block?_of_mem hnodup hd).symm.trans hb)
      have hall : new.filter (fun c => c.block = id) = new :=
        List.filter_eq_self.mpr fun c hc => decide_eq_true (hnew c hc)
      rw [if_pos heq, hid d heq, hall]
      exact hf (heq ▸ h.splits d hd)
    · have hnone : new.filter (fun c => c.block = d.id) = [] :=
        List.filter_eq_nil_iff.mpr fun c hc => by
          rw [hnew c hc, decide_eq_true_eq]
          exact Ne.symm heq
      rw [if_neg heq, hnone, List.append_nil]
      exact h.splits d hd
  · rw [ids_modifyBlock hid]
    rcases List.mem_append.mp hc with hc | hc
    · exact h.blocks c hc
    · rw [hnew c hc]
      exact mem_ids_of_block? hb

theorem Serves.emit {binding : Option String} {opcode : Opcode} {operands : List Operand} (h : s.Serves codes)
    (hnodup : s.ids.Nodup) (hat : s.At b) (hopcode : opcode.passesArgs = false) :
    (s.emit binding opcode operands).Serves codes := by
  have hdraw : s.draw.Serves codes := h.of_blocks_eq rfl
  rw [← List.append_nil codes]
  refine hdraw.modifyBlock hnodup hat (fun _ h => h) (fun _ hc => absurd hc List.not_mem_nil) fun hsplits => ?_
  rw [List.append_nil, List.map_append]
  exact hsplits.other hopcode

theorem Serves.place {phi : InstrId} (h : s.Serves codes) (hnodup : s.ids.Nodup) (hjoin : s.block? id = some b)
    (hempty : b.instrs = []) : (s.place phi id).Serves codes := by
  have henter : (s.enter id).Serves codes := h.of_blocks_eq rfl
  rw [← List.append_nil codes]
  refine henter.modifyBlock hnodup hjoin (fun _ h => h) (fun _ hc => absurd hc List.not_mem_nil) fun hsplits => ?_
  rw [hempty] at hsplits
  rw [List.append_nil]
  exact hsplits.other rfl

/-- A binding does not matter to the arguments. -/
theorem Serves.bindLocal {name : String} {value : Operand} (h : s.Serves codes) (hnodup : s.ids.Nodup)
    (hat : s.At b) : (s.bindLocal name value).Serves codes := by
  cases hbound : b.bindLast? name value with
  | none =>
      rw [bindLocal_nop hat hbound]
      exact h.emit hnodup hat rfl
  | some bound =>
      have hid : bound.id = s.current := (Block.bindLast?_id hbound).trans (block?_id hat)
      rw [bindLocal_replace hat hbound, ← List.append_nil codes]
      refine h.modifyBlock hnodup hat (fun _ _ => hid) (fun _ hc => absurd hc List.not_mem_nil) fun hsplits => ?_
      obtain ⟨init, last, hinstrs, _, _, _, _, rfl⟩ := Block.bindLast?_eq_some hbound
      rw [hinstrs, List.map_append] at hsplits
      rw [List.append_nil, List.map_append]
      exact hsplits

/-- One more piece at the end of the current block. -/
theorem Serves.invoke {form : Invocation} {function : Operand} {arguments : List Operand} (h : s.Serves codes)
    (hnodup : s.ids.Nodup) (hat : s.At b) :
    (s.invoke form function arguments).Serves (codes ++ [s.callCode form function arguments]) := by
  obtain ⟨n, heq⟩ := s.invoke_eq form function arguments
  have hadvance : (s.advance n).Serves codes := h.of_blocks_eq rfl
  rw [heq]
  refine hadvance.modifyBlock hnodup hat (fun _ h => h) (fun c hc => ?_) fun hsplits => ?_
  · rw [List.mem_singleton.mp hc]
    rfl
  · rw [List.map_append, CallCode.map_bare]
    exact hsplits.call

theorem Serves.alloc (h : s.Serves codes) (hfresh : s.Fresh) : s.alloc.Serves codes := by
  refine ⟨fun c hc => ?_, fun c hc => ?_⟩
  · rcases List.mem_append.mp hc with hc | hc
    · exact h.splits c hc
    · have hnone : codes.filter (fun d => d.block = s.later 0) = [] :=
        List.filter_eq_nil_iff.mpr fun d hd heq =>
          hfresh.later_notMem 0 (of_decide_eq_true heq ▸ h.blocks d hd)
      rw [List.mem_singleton.mp hc]
      change Splits [] (codes.filter fun d => d.block = s.later 0)
      rw [hnone]
      exact .nil
  · rw [ids_alloc]
    exact List.mem_append_left _ (h.blocks c hc)

theorem Serves.of_blockCode_eq (h : s.Serves codes) (hcode : t.blockCode = s.blockCode) : t.Serves codes := by
  refine ⟨fun b hb => ?_, fun c hc => ?_⟩
  · have hmem : (b.id, b.instrs) ∈ s.blockCode := by
      rw [← hcode]
      exact List.mem_map_of_mem hb
    obtain ⟨d, hd, heq⟩ := List.mem_map.mp hmem
    obtain ⟨hid, hinstrs⟩ := Prod.mk.inj heq
    rw [← hid, ← hinstrs]
    exact h.splits d hd
  · rw [ids_eq_of_blockCode hcode]
    exact h.blocks c hc

theorem Serves.exists_noCalls {names : Names} (h : s.Serves codes) :
    ∃ new, s.Serves (codes ++ new) ∧ List.Forall₂ (CallCode.Lowers names) [] new := by
  refine ⟨[], ?_, .nil⟩
  rwa [List.append_nil]

end Builder

/-- Along every course the calls that are made account for all that happens to the argument stack. -/
theorem Course.serves {names : Names} {owed : List Operand} {draws : Draws} {calls : List Expr} {s t : Builder}
    (h : Course names owed draws calls s t) (hs : s.Distinct) {codes : List CallCode} (hcodes : s.Serves codes) :
    ∃ new, t.Serves (codes ++ new) ∧ List.Forall₂ (CallCode.Lowers names) calls new := by
  induction h generalizing codes with
  | refl => exact hcodes.exists_noCalls
  | trans h _ ih ih' =>
      obtain ⟨new, hnew, hlowers⟩ := ih hs hcodes
      obtain ⟨new', hnew', hlowers'⟩ := ih' (h.accounts hs).1 hnew
      refine ⟨new ++ new', ?_, List.rel_append hlowers hlowers'⟩
      rwa [← List.append_assoc]
  | @handle _ _ _ _ _ s _ _ ih =>
      have hdraw : s.draw.Distinct := hs.of_ids_eq rfl s.supply.le_dropInstr
      exact ih hdraw (hcodes.of_blocks_eq rfl)
  | read => exact Builder.Serves.exists_noCalls (hcodes.of_blocks_eq rfl)
  | @phi _ _ _ _ _ _ s _ h hjoin hempty ih =>
      have hdraw : s.draw.Distinct := hs.of_ids_eq rfl s.supply.le_dropInstr
      obtain ⟨new, hnew, hlowers⟩ := ih hdraw (hcodes.of_blocks_eq rfl)
      exact ⟨new, hnew.place (h.accounts hdraw).1.1 hjoin hempty, hlowers⟩
  | emit hat hopcode => exact (hcodes.emit hs.1 hat hopcode).exists_noCalls
  | call hat hlowers _ => exact ⟨_, hcodes.invoke hs.1 hat, .cons hlowers .nil⟩
  | bind hat _ => exact (hcodes.bindLocal hs.1 hat).exists_noCalls
  | alloc => exact (hcodes.alloc hs.2).exists_noCalls
  | quiet hcode _ _ => exact (hcodes.of_blockCode_eq hcode).exists_noCalls
  | function _ _ _ => exact Builder.Serves.exists_noCalls (hcodes.of_blocks_eq rfl)

/-- The block passes arguments by the codes of the given calls and not otherwise. -/
structure Block.PassesArgs (b : Block) (codes : List CallCode) : Prop where
  /-- Each instruction that takes arguments is that of one of the calls. -/
  takers : (b.instrs.filter fun i => i.opcode.takesArgs).map Instr.bare = codes.map CallCode.taker
  /-- Each argument that is pushed is pushed by one of the calls. -/
  pushes : (b.instrs.filter fun i => i.opcode = .pushArg).map Instr.bare = codes.flatMap CallCode.pushes
  /-- Before an instruction that takes arguments stands the rest of the code of its call, which finds the stack empty.
  What is on the stack then are the arguments of the call, and it takes them all. -/
  own : ∀ before i after, b.instrs = before ++ i :: after → i.opcode.takesArgs = true →
    ∃ c ∈ codes, i.bare = c.taker ∧ (∃ rest, before.map Instr.bare = rest ++ c.setup ∧ passArgs rest = some []) ∧
      passArgs before = some c.arguments ∧ passArgs (before ++ [i]) = some []
  /-- Nothing is left on the stack. -/
  balanced : passArgs b.instrs = some []

theorem passArgs_map_bare (is : List Instr) : passArgs (is.map Instr.bare) = passArgs is := by
  rw [passArgs, List.foldlM_map]
  rfl

/-- From the pieces of a block to how it passes arguments. -/
theorem Splits.passesArgs {b : Block} {codes : List CallCode} (h : Splits (b.instrs.map Instr.bare) codes) :
    b.PassesArgs codes where
  takers := by
    rw [← h.filter_takesArgs, List.filter_map]
    rfl
  pushes := by
    rw [← h.filter_pushArg, List.filter_map]
    rfl
  own := by
    intro before i after hinstrs hi
    have hbare : b.instrs.map Instr.bare = before.map Instr.bare ++ i.bare :: after.map Instr.bare := by
      rw [hinstrs, List.map_append, List.map_cons]
    obtain ⟨c, hc, htaker, rest, hbefore, hrest⟩ := h.exists_setup hbare hi
    refine ⟨c, hc, htaker, ⟨rest, hbefore, hrest⟩, ?_, ?_⟩
    · rw [← passArgs_map_bare, hbefore, passArgs_append hrest, passArgs, c.foldlM_setup, List.append_nil]
    · rw [← passArgs_map_bare, List.map_append, hbefore, List.map_singleton, htaker, List.append_assoc,
        passArgs_append hrest]
      exact c.foldlM_instrs []
  balanced := by
    rw [← passArgs_map_bare]
    exact h.passArgs_eq

/-- The graph passes arguments by one code for each call in the function it comes from. -/
def Graph.PassesArgs (p : Program) (fn : Function) (g : Graph) : Prop :=
  ∃ params outer codes, fn.params = params.map Expr.ident ∧ Nest p (⟨fn.name, params, fn.body⟩ :: outer) ∧
    List.Forall₂ (CallCode.Lowers (Names.inside Scope.resolve (⟨fn.name, params, fn.body⟩ :: outer)))
      (callsOf fn.body) codes ∧
    (∀ c ∈ codes, c.block ∈ g.blockIds) ∧
    ∀ b ∈ g.blocks, b.PassesArgs (codes.filter fun c => c.block = b.id)

theorem Graph.Lowers.passesArgs {p : Program} {fn : Function} {g : Graph} (h : g.Lowers p Scope.resolve fn) :
    g.PassesArgs p fn := by
  obtain ⟨params, outer, s, u, hparams, hnest, hrun⟩ := h.run
  obtain ⟨t, hbody, _, hg, _⟩ := inNewGraph_eq_ok hrun
  obtain ⟨⟨_, _, hcourse⟩, _⟩ := lowerBody_course _ _ _ _ _ hbody
  have hnested : s.nested.Distinct := ⟨List.nodup_singleton _, s.ordered_nested.fresh⟩
  have hstart : s.nested.Serves [] := by
    refine ⟨fun b hb => ?_, fun c hc => absurd hc List.not_mem_nil⟩
    rw [List.mem_singleton.mp hb]
    exact .nil
  obtain ⟨codes, hserves, hlowers⟩ := hcourse.serves hnested hstart
  refine ⟨params, outer, codes, hparams, hnest, hlowers, ?_, ?_⟩
  · rw [hg]
    exact hserves.blocks
  · rw [hg]
    exact fun b hb => (hserves.splits b hb).passesArgs

/-- Whatever blocks are run through one after the other, the argument stack is empty between them. -/
theorem passArgs_flatMap {blocks : List Block} (h : ∀ b ∈ blocks, passArgs b.instrs = some []) :
    passArgs (blocks.flatMap Block.instrs) = some [] := by
  induction blocks with
  | nil => rfl
  | cons b rest ih =>
      obtain ⟨hb, hrest⟩ := List.forall_mem_cons.mp h
      rw [List.flatMap_cons, passArgs_append hb]
      exact ih hrest

/-- A call finds on the argument stack what was pushed for it and nothing else: in each graph the pushes and the
calls are those of one code for each call of the source, and along every path the stack is empty between blocks. -/
theorem arguments_pushed_for_own_call (p : Program) (supply : Supply) (graphs : List Graph)
    (h : (constructWith p supply).1 = .ok graphs) :
    List.Forall₂ (fun fn g => g.PassesArgs p fn ∧ ∀ path : List Block, (∀ b ∈ path, b ∈ g.blocks) →
      passArgs (path.flatMap Block.instrs) = some []) p.functions graphs := by
  obtain ⟨_, hlowers⟩ := (constructUsing_settles p Scope.resolve supply).2.1 graphs h
  refine hlowers.imp fun fn g hlower => ?_
  have hpasses := hlower.passesArgs
  refine ⟨hpasses, fun path hpath => passArgs_flatMap fun b hb => ?_⟩
  obtain ⟨_, _, codes, _, _, _, _, hblocks⟩ := hpasses
  exact (hblocks b (hpath b hb)).balanced

/-- `f(a, g(b)); o.m(x && y, new C(z), function () { h(); });` -/
def callScript : Program :=
  ⟨[.expr (.call (.ident "f") [.ident "a", .call (.ident "g") [.ident "b"]]),
    .expr (.call (.dot (.ident "o") "m") [.logical .and (.ident "x") (.ident "y"), .new (.ident "C") [.ident "z"],
      .function (.plain none [] [.expr (.call (.ident "h") [])])])]⟩

def callGraphs : List Graph := (constructWith callScript .fresh).1.toOption.getD []

theorem arguments_pushed_for_own_call_nested :
    (constructWith callScript .fresh).1 = .ok callGraphs ∧
    callScript.functions.map (fun fn => (callsOf fn.body).length) = [4, 1] ∧
    List.Forall₂ (fun fn g => g.PassesArgs callScript fn ∧ ∀ path : List Block, (∀ b ∈ path, b ∈ g.blocks) →
      passArgs (path.flatMap Block.instrs) = some []) callScript.functions callGraphs :=
  ⟨by decide +kernel, by decide +kernel, arguments_pushed_for_own_call callScript .fresh callGraphs (by decide +kernel)⟩

end ScriptSsa
