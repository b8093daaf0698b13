import ScriptSsa.Proofs.Trace
import ScriptSsa.Proofs.Yields

/-!
The traces that steps of lowering leave behind.

`IsCode E held m gives` says that `m` is code: started in an open block with the values of `held` in reach, it
leaves a code trace, and `gives` says what can be said of its result; or it fails with an error of `E`. `IsFlow`
says the same of statements. There is one rule for each step of lowering and for each way to put steps together.
-/

namespace ScriptSsa

namespace Build

variable {α β : Type} {E : BuildError → Prop} {held : Set InstrId}

def IsCode (E : BuildError → Prop) (held : Set InstrId) (m : Build α)
    (gives : α → Set InstrId → Prop) : Prop :=
  ∀ s, Stage.code.Ready s → m.Yields s E fun a t =>
    ∃ held', held ⊆ held' ∧ gives a held' ∧ Trace .code held s held' t

/-- Nothing is said of the result. -/
def Any (_ : α) (_ : Set InstrId) : Prop := True

/-- The result is a value in reach. -/
abbrev Value (o : Operand) (held : Set InstrId) : Prop := o.HeldIn held

/-- The results are values in reach. -/
def Values (os : List Operand) (held : Set InstrId) : Prop := ∀ o ∈ os, o.HeldIn held

theorem Values.nil : Values [] held := fun _ h => nomatch h

theorem Values.cons {o : Operand} {os : List Operand} (ho : o.HeldIn held) (hos : Values os held) :
    Values (o :: os) held :=
  List.forall_mem_cons.mpr ⟨ho, hos⟩

/-- Values in reach stay in reach. -/
theorem Values.mono {os : List Operand} {held' : Set InstrId} (hsub : held ⊆ held') (h : Values os held) :
    Values os held' :=
  fun o ho => (h o ho).mono hsub

/-- Statements: they start wherever the one before has ended. -/
def IsFlow (E : BuildError → Prop) (m : Build Unit) : Prop :=
  ∀ s, Stage.flow.Ready s → m.Yields s E fun _ t => Trace .flow ∅ s ∅ t

/-- What stands in a statement: it starts in an open block. -/
def IsOpenFlow (E : BuildError → Prop) (m : Build Unit) : Prop :=
  ∀ s, Stage.code.Ready s → m.Yields s E fun _ t => Trace .flow ∅ s ∅ t

namespace IsCode

variable {m : Build α} {f : α → Build β} {gives : α → Set InstrId → Prop} {gives' : β → Set InstrId → Prop}

theorem pure {a : α} (h : gives a held) : IsCode E held (Pure.pure a) gives :=
  fun _ _ => .pure ⟨held, subset_refl _, h, .refl⟩

/-- What is held at the end of the first part is held when the second starts. -/
theorem bind (hm : IsCode E held m gives)
    (hf : ∀ a held', held ⊆ held' → gives a held' → IsCode E held' (f a) gives') :
    IsCode E held (m >>= f) gives' := by
  intro s hs
  refine (hm s hs).bind ?_
  rintro a t ⟨held', hsub, hgives, htrace⟩
  refine (hf a held' hsub hgives t (htrace.ready hs)).mono ?_
  rintro b u ⟨held'', hsub', hgives', htrace'⟩
  exact ⟨held'', hsub.trans hsub', hgives', htrace.trans htrace'⟩

theorem mono {gives' : α → Set InstrId → Prop} (hm : IsCode E held m gives)
    (himp : ∀ a held', gives a held' → gives' a held') : IsCode E held m gives' := by
  intro s hs
  refine (hm s hs).mono ?_
  rintro a t ⟨held', hsub, hgives, htrace⟩
  exact ⟨held', hsub, himp a held' hgives, htrace⟩

theorem fail {e : BuildError} (h : E e) : IsCode E held (Build.fail e) gives :=
  fun s _ => .of_error (t := s) rfl h

end IsCode

/-- A step that draws an id and gives an operand that needs no value. -/
theorem isCode_draw {a : α} {m : Build α} {gives : α → Set InstrId → Prop} (hm : ∀ s, m s = .ok a s.draw)
    (ha : gives a held) : IsCode E held m gives :=
  fun s _ => .of_ok (hm s) ⟨held, subset_refl _, ha, .draw⟩

/-- A handle may be used by all that comes behind it. -/
theorem isCode_handle {o : Operand} {m : Build Operand} {k : Operand → Build β} {gives : β → Set InstrId → Prop}
    (hm : ∀ s, m s = .ok o s.draw) (hk : ∀ held', held ⊆ held' → IsCode E held' (k o) gives) :
    IsCode E held (m >>= k) gives := by
  have hdraw : IsCode E held m fun v _ => v = o := isCode_draw hm rfl
  refine hdraw.bind fun v held' hsub hv => ?_
  rw [hv]
  exact hk held' hsub

theorem isCode_constant (c : Constant) : IsCode E held (constant c) Value :=
  isCode_draw (fun _ => rfl) trivial

theorem isCode_count (n : Nat) : IsCode E held (count n) Value :=
  isCode_draw (fun _ => rfl) trivial

/-- What an instruction yields is in reach behind it. -/
theorem isCode_emit {opcode : Opcode} {operands : List Operand} (hplain : opcode.isPlain = true)
    (hyields : opcode.yieldsValue = true) (hoperands : Values operands held) :
    IsCode E held (emit opcode operands) Value := by
  intro s hs
  obtain ⟨b, hat, _⟩ := hs.1
  refine .of_ok (emit_eq hat) ⟨insert s.supply.nextInstr held, Set.subset_insert _ _, Set.mem_insert _ _, ?_⟩
  have htrace := @Trace.emit held s none opcode operands hs hplain fun o ho => .inl (hoperands o ho)
  rwa [if_pos hyields] at htrace

/-- An instruction without a value leaves the same values in reach. -/
theorem isCode_perform {opcode : Opcode} {operands : List Operand} (hplain : opcode.isPlain = true)
    (hyields : opcode.yieldsValue = false) (hoperands : Values operands held) :
    IsCode E held (perform opcode operands) Any := by
  intro s hs
  obtain ⟨b, hat, _⟩ := hs.1
  refine .of_ok (perform_eq hat) ⟨held, subset_refl _, trivial, ?_⟩
  have htrace := @Trace.emit held s none opcode operands hs hplain fun o ho => .inl (hoperands o ho)
  rwa [if_neg (by simp [hyields])] at htrace

theorem isCode_literal (c : Constant) : IsCode E held (literal c) Value :=
  (isCode_constant c).bind fun _ _ _ hc => isCode_emit rfl rfl (.cons hc .nil)

/-- If another value has come since, a `nop` is bound, which is held though nobody asks for it. -/
theorem isCode_bindLocal {name : String} {value : Operand} (hvalue : value.HeldIn held) :
    IsCode E held (bindLocal name value) Any := by
  intro s hs
  obtain ⟨b, hat, _⟩ := hs.1
  refine .of_ok (bindLocal_eq hat) ?_
  rw [Builder.bindLocal, hat, Option.bind_some]
  cases hbound : b.bindLast? name value with
  | some bound => exact ⟨held, subset_refl _, trivial, .rebind hs hat hbound⟩
  | none =>
      exact ⟨insert s.supply.nextInstr held, Set.subset_insert _ _, trivial,
        @Trace.emit held s (some name) .nop [value] hs rfl fun o ho => .inl (Values.cons hvalue .nil o ho)⟩

/-! Merges, branches, loops and jumps. -/

/-- The code has run from `s` to `t` and given a value in reach. -/
structure Ran (held : Set InstrId) (m : Build Operand) (s : Builder) (held' : Set InstrId) (v : Operand)
    (t : Builder) : Prop where
  eq : m s = .ok v t
  trace : Trace .code held s held' t
  value : v.HeldIn held'

/-- The run that succeeds is kept beside its trace. -/
theorem IsCode.ran {m : Build Operand} {s : Builder} (h : IsCode E held m Value) (hs : Stage.code.Ready s) :
    m.Yields s E fun v t => ∃ held', Ran held m s held' v t :=
  (h s hs).eq_ok.mono fun _ _ ⟨heq, held', _, hv, htrace⟩ => ⟨held', heq, htrace, hv⟩

/-- The runs of a merge: one arm after the other, each delivered to the phi, and the join still empty when the phi is
placed. -/
theorem merge_ran {condition : Operand} {trueFirst : Bool} {first second : Build Operand} {s : Builder}
    (hs : Stage.code.Ready s) (hfirst : IsCode E held first Value) (hsecond : IsCode E held second Value) :
    (merge condition trueFirst first second).Yields s E fun v t =>
      ∃ held₁ v₁ s₁ e₁ held₂ v₂ s₂ e₂, Ran held first (s.openMerge condition trueFirst) held₁ v₁ s₁ ∧
        s₁.phis.entries.find? s.supply.nextInstr = some e₁ ∧
        Ran held second ((s₁.deliver s.supply.nextInstr (s.later 2) e₁ v₁).enter (s.otherArm trueFirst))
          held₂ v₂ s₂ ∧
        s₂.phis.entries.find? s.supply.nextInstr = some e₂ ∧
        (s₂.deliver s.supply.nextInstr (s.later 2) e₂ v₂).block? (s.later 2) = some (.empty (s.later 2)) ∧
        v = .instr s.supply.nextInstr ∧
        t = (s₂.deliver s.supply.nextInstr (s.later 2) e₂ v₂).place s.supply.nextInstr (s.later 2) := by
  obtain ⟨hopen, pending, hsound⟩ := hs
  obtain ⟨hsound₀, hat₀⟩ := @Sound.openMerge _ _ condition trueFirst hsound hopen
  refine merge_yields hopen.unlinked ((hfirst.ran ⟨Builder.isOpen_of_empty hat₀, _ :: _ :: pending, hsound₀⟩).mono ?_)
  rintro v₁ s₁ ⟨held₁, hran₁⟩
  obtain ⟨hsound₁, hopen₁⟩ := hsound.firstArm hopen hran₁.trace.keeps
  obtain ⟨e₁, he₁⟩ := hran₁.trace.phis_keep.stays (Phi.Entries.find?_insert_self _ _ _)
  obtain ⟨hsound₁', hat₁⟩ := hsound₁.nextArm hopen₁
  have hother : s.otherArm trueFirst ∈ s₁.ids := hsound₁.mem_ids (by simp)
  have hlast : s.later 2 ∈ s₁.ids := hsound₁.mem_ids (by simp)
  refine ⟨e₁, hopen₁.unlinked, he₁, hother, hlast,
    (hsecond.ran ⟨Builder.isOpen_of_empty hat₁, _ :: pending, hsound₁'⟩).mono ?_⟩
  rintro v₂ s₂ ⟨held₂, hran₂⟩
  obtain ⟨hsound₂, hopen₂⟩ := hsound₁.secondArm hopen₁ hran₂.trace.keeps
  obtain ⟨e₂, he₂⟩ := hran₂.trace.phis_keep.stays (Phi.Entries.find?_insert_self _ _ _)
  obtain ⟨hsound₂', _⟩ := hsound₂.deliver hopen₂ (hsound₂.empty _ List.mem_cons_self).2
  have hjoin := (hsound₂'.empty _ List.mem_cons_self).1
  exact ⟨e₂, _, hopen₂.unlinked, he₂, hjoin, rfl, held₁, v₁, s₁, e₁, held₂, v₂, s₂, e₂, hran₁, he₁, hran₂, he₂,
    hjoin, rfl, rfl⟩

/-- What the arms have brought into reach is lost at the join; the phi is all that remains. -/
theorem isCode_merge {condition : Operand} {trueFirst : Bool} {first second : Build Operand}
    (hcondition : condition.HeldIn held) (hfirst : IsCode E held first Value)
    (hsecond : IsCode E held second Value) : IsCode E held (merge condition trueFirst first second) Value := by
  intro s hs
  refine (merge_ran hs hfirst hsecond).mono ?_
  rintro _ _ ⟨held₁, v₁, s₁, e₁, held₂, v₂, s₂, e₂, hran₁, he₁, hran₂, he₂, hjoin, rfl, rfl⟩
  obtain ⟨hopen, pending, hsound⟩ := hs
  obtain ⟨hsound₁, hopen₁⟩ := hsound.firstArm hopen hran₁.trace.keeps
  obtain ⟨hsound₂, hopen₂⟩ := hsound₁.secondArm hopen₁ hran₂.trace.keeps
  exact ⟨insert s.supply.nextInstr held, Set.subset_insert _ _, Set.mem_insert _ _,
    .merge ⟨hopen, pending, hsound⟩ hcondition hran₁.trace ⟨hopen₁, _ :: _ :: pending, hsound₁⟩ hran₁.value he₁
      hran₂.trace ⟨hopen₂, _ :: pending, hsound₂⟩ hran₂.value he₂ hjoin⟩

theorem IsFlow.skip : IsFlow E (pure ()) := fun _ _ => .pure .skip

/-- Statements hold nothing between them. -/
theorem IsFlow.seq {m m' : Build Unit} (hm : IsFlow E m) (hm' : IsFlow E m') :
    IsFlow E (m >>= fun _ => m') := by
  intro s hs
  refine (hm s hs).bind fun _ t htrace => ?_
  exact (hm' t (htrace.ready hs)).mono fun _ _ htrace' => htrace.seq htrace'

theorem IsOpenFlow.fail {e : BuildError} (h : E e) : IsOpenFlow E (Build.fail e) :=
  fun s _ => .of_error (t := s) rfl h

theorem IsFlow.isOpenFlow {m : Build Unit} (h : IsFlow E m) : IsOpenFlow E m :=
  fun s hs => h s (Stage.Ready.flow hs)

/-- Code is a statement of which nothing is used further. -/
theorem IsCode.isOpenFlow {m : Build Unit} (h : IsCode E ∅ m Any) : IsOpenFlow E m := by
  intro s hs
  refine (h s hs).mono ?_
  rintro _ t ⟨_, _, _, htrace⟩
  exact .code hs htrace

/-- Statements start by opening a block where control has left. -/
theorem IsOpenFlow.ensureOpen {m : Build Unit} (h : IsOpenFlow E m) :
    IsFlow E (ensureOpen >>= fun _ => m) := by
  rintro s ⟨hfits, pending, hsound⟩
  obtain ⟨b, hat⟩ := hsound.at_current
  obtain ⟨hsound', hopen⟩ := hsound.reopen hfits
  rw [← Builder.loopsWaiting_reopen] at hsound'
  refine .step (ensureOpen_eq hat) ((h _ ⟨hopen, pending, hsound'⟩).mono fun _ _ htrace => ?_)
  exact .seq .reopen htrace

/-- Code before a statement's own flow, as the initializer of a loop. -/
theorem IsOpenFlow.after {m m' : Build Unit} (hm : IsCode E ∅ m Any) (hm' : IsOpenFlow E m') :
    IsOpenFlow E (m >>= fun _ => m') := by
  intro s hs
  refine (hm s hs).bind ?_
  rintro _ t ⟨_, _, _, htrace⟩
  exact (hm' t (htrace.ready hs)).mono fun _ _ htrace' => .seq (.code hs htrace) htrace'

/-- A return is the one instruction that control does not go on behind. -/
theorem isOpenFlow_ret {result : Build Operand} (h : IsCode E ∅ result Value) :
    IsOpenFlow E (result >>= fun value => perform .ret [value]) := by
  intro s hs
  refine (h s hs).bind ?_
  rintro v t ⟨held', _, hv, htrace⟩
  have hready := htrace.ready hs
  obtain ⟨b, hat, _⟩ := hready.1
  exact .of_ok (perform_eq hat) (.ret hs htrace hready hv)

/-- The runs of a branch: each arm starts in an empty block and falls through to the join if control is still there. -/
theorem branch_ran {test : Build Operand} {consequent alternate : Build Unit} {s : Builder}
    (hs : Stage.code.Ready s) (htest : IsCode E ∅ test Value) (hconsequent : IsFlow E consequent)
    (halternate : IsFlow E alternate) :
    (branch test consequent alternate).Yields s E fun _ t => ∃ held v s₀ s₁ s₂, Ran ∅ test s held v s₀ ∧
      consequent ((s₀.split v).enter (s₀.later 0)) = .ok () s₁ ∧
      Trace .flow ∅ ((s₀.split v).enter (s₀.later 0)) ∅ s₁ ∧
      alternate ((s₁.fallTo (s₀.later 2)).enter (s₀.later 1)) = .ok () s₂ ∧
      Trace .flow ∅ ((s₁.fallTo (s₀.later 2)).enter (s₀.later 1)) ∅ s₂ ∧
      t = (s₂.fallTo (s₀.later 2)).enter (s₀.later 2) := by
  refine branch_yields ((htest.ran hs).mono ?_)
  rintro v s₀ ⟨held, hran⟩
  obtain ⟨hopen₀, pending, hsound₀⟩ := hran.trace.ready hs
  obtain ⟨hsound₀', hat₀⟩ := @Sound.openBranch _ _ v hsound₀ hopen₀
  have hready₀ : Stage.flow.Ready ((s₀.split v).enter (s₀.later 0)) :=
    ⟨.inl (Builder.isOpen_of_empty hat₀), _ :: _ :: pending, hsound₀'⟩
  refine ⟨hopen₀.unlinked, (hconsequent _ hready₀).eq_ok.mono fun _ s₁ ⟨heq₁, htrace₁⟩ => ?_⟩
  obtain ⟨hsound₁, hfits₁⟩ := hsound₀.consequent hopen₀ htrace₁.keeps
  have hmem₁ : s₀.later 1 ∈ s₁.ids := hsound₁.mem_ids (by simp)
  have hlast₁ : s₀.later 2 ∈ s₁.ids := hsound₁.mem_ids (by simp)
  obtain ⟨hsound₁', hat₁⟩ := hsound₁.fallThenEnter hfits₁ (List.mem_cons_of_mem _ List.mem_cons_self)
  rw [← Builder.loopsWaiting_fallTo] at hsound₁'
  have hready₁ : Stage.flow.Ready ((s₁.fallTo (s₀.later 2)).enter (s₀.later 1)) :=
    ⟨.inl (Builder.isOpen_of_empty hat₁), _ :: pending, hsound₁'⟩
  refine ⟨hsound₁.at_current, hmem₁, hlast₁, (halternate _ hready₁).eq_ok.mono fun _ s₂ ⟨heq₂, htrace₂⟩ => ?_⟩
  obtain ⟨hsound₂, _⟩ := hsound₁.alternate hfits₁ htrace₂.keeps
  have hmem₂ : s₀.later 2 ∈ s₂.ids := hsound₂.mem_ids (by simp)
  exact ⟨hsound₂.at_current, hmem₂, held, v, s₀, s₁, s₂, hran, heq₁, htrace₁, heq₂, htrace₂, rfl⟩

theorem isOpenFlow_branch {test : Build Operand} {consequent alternate : Build Unit}
    (htest : IsCode E ∅ test Value) (hconsequent : IsFlow E consequent) (halternate : IsFlow E alternate) :
    IsOpenFlow E (branch test consequent alternate) := by
  intro s hs
  refine (branch_ran hs htest hconsequent halternate).mono ?_
  rintro _ _ ⟨held, v, s₀, s₁, s₂, hran, _, htrace₁, _, htrace₂, rfl⟩
  exact .branch hs hran.trace (hran.trace.ready hs) hran.value htrace₁ htrace₂

/-- The runs of a loop: the test in front of the body, the update behind it, and the chain of `continue` blocks in
between. -/
theorem loop_ran {labels : List String} {testFirst : Bool} {test : Build Operand} {update body : Build Unit}
    {s : Builder} (hs : Stage.code.Ready s) (htest : IsCode E ∅ test Value) (hupdate : IsCode E ∅ update Any)
    (hbody : IsFlow E body) :
    (loop labels testFirst test update body).Yields s E fun _ t => ∃ held v s₁ s₂ frame outer held' s₃,
      Ran ∅ test (s.openLoop testFirst) held v s₁ ∧
      body (s₁.openBody v (s.later 4) (s.later 1) ⟨labels, s.later 0, s.later 0, [], s.later 1, []⟩) = .ok () s₂ ∧
      Trace .flow ∅ (s₁.openBody v (s.later 4) (s.later 1) ⟨labels, s.later 0, s.later 0, [], s.later 1, []⟩) ∅ s₂ ∧
      s₂.loops = frame :: outer ∧ update (s₂.openUpdate frame outer) = .ok () s₃ ∧
      Trace .code ∅ (s₂.openUpdate frame outer) held' s₃ ∧ t = s₃.closeLoop frame (s.later 2) := by
  obtain ⟨hopen, pending, hsound⟩ := hs
  obtain ⟨hsound₀, hat₀⟩ := @Sound.openLoop _ _ testFirst hsound hopen
  refine loop_yields hopen.unlinked hsound.fresh
    ((htest.ran ⟨Builder.isOpen_of_empty hat₀, _ :: _ :: _ :: pending, hsound₀⟩).mono ?_)
  rintro v s₁ ⟨held, hran⟩
  obtain ⟨hsound₁, hopen₁⟩ := hsound.loopTest hopen hran.trace.keeps
  obtain ⟨hsound₁', hat₁⟩ := @Sound.loopBody _ _ v labels _ _ _ hsound₁ hopen₁
  have hready₁ : Stage.flow.Ready
      (s₁.openBody v (s.later 4) (s.later 1) ⟨labels, s.later 0, s.later 0, [], s.later 1, []⟩) :=
    ⟨.inl (Builder.isOpen_of_empty hat₁), pending, hsound₁'⟩
  have hmem₁ : s.later 4 ∈ s₁.ids := hsound₁.mem_ids (by simp)
  have hbreak₁ : s.later 1 ∈ s₁.ids := hsound₁.mem_ids (by simp)
  refine ⟨hopen₁.unlinked, hmem₁, hbreak₁, (hbody _ hready₁).eq_ok.mono fun _ s₂ ⟨heq₂, htrace₂⟩ => ?_⟩
  obtain ⟨frame, outer, _, _, hloops⟩ := List.forall₂_cons_left_iff.mp htrace₂.loops_grow
  obtain ⟨hsound₂, hfits₂⟩ := htrace₂.keeps.sound hsound₁' hready₁.1
  obtain ⟨hsound₂', hat₂⟩ := hsound₂.loopUpdate hfits₂ hloops
  have hmem₂ : frame.continueEntry ∈ s₂.ids := by
    have hmem := Builder.mem_ids_of_block? hat₂
    rwa [Builder.ids_openUpdate] at hmem
  refine ⟨frame, outer, hloops, hsound₂.at_current, hmem₂,
    (hupdate _ ⟨Builder.isOpen_of_empty hat₂, _, hsound₂'⟩).eq_ok.mono ?_⟩
  rintro _ s₃ ⟨heq₃, held', _, _, htrace₃⟩
  have hend := hsound.loopEnd hopen hran.trace.keeps htrace₂.keeps hloops htrace₃.keeps
  refine ⟨hend.isOpen.unlinked, List.mem_of_mem_tail hend.header, fun first hfirst => ?_,
    ⟨_, hend.breakTarget_empty, rfl⟩, held, v, s₁, s₂, frame, outer, held', s₃, hran, heq₂, htrace₂, hloops, heq₃,
    htrace₃, rfl⟩
  have hcontinue := List.mem_of_mem_head? hfirst
  exact ⟨List.mem_of_mem_tail (hend.continues.mem first hcontinue), _,
    hend.continueTarget_empty (List.ne_nil_of_mem hcontinue), rfl⟩

theorem isOpenFlow_loop {labels : List String} {testFirst : Bool} {test : Build Operand}
    {update body : Build Unit} (htest : IsCode E ∅ test Value) (hupdate : IsCode E ∅ update Any)
    (hbody : IsFlow E body) : IsOpenFlow E (loop labels testFirst test update body) := by
  intro s hs
  refine (loop_ran hs htest hupdate hbody).mono ?_
  rintro _ _ ⟨held, v, s₁, s₂, frame, outer, held', s₃, hran, _, htrace₂, hloops, _, htrace₃, rfl⟩
  obtain ⟨hopen, pending, hsound⟩ := hs
  obtain ⟨hsound₁, hopen₁⟩ := hsound.loopTest hopen hran.trace.keeps
  exact .loop ⟨hopen, pending, hsound⟩ hran.trace ⟨hopen₁, _ :: _ :: _ :: pending, hsound₁⟩ hran.value htrace₂
    hloops htrace₃

/-- A jump goes to the innermost loop that accepts its label, or fails for want of one. -/
theorem jump_ran {kind : Jump} {label : Option String} {s : Builder} (hs : Stage.code.Ready s)
    (hE : E (.unresolvedJump kind label)) :
    (jump kind label).Yields s E fun _ t => ∃ inner frame outer, s.loops = inner ++ frame :: outer ∧
      (∀ l ∈ inner, l.accepts label = false) ∧ frame.accepts label = true ∧ t = s.jumpTo kind inner frame outer := by
  obtain ⟨hopen, pending, hsound⟩ := hs
  exact jump_yields hopen.unlinked (fun _ => hE) fun inner frame outer hloops hinner haccepts =>
    ⟨(hsound.loops frame (by simp [hloops])).chained, fun honce => ⟨_, hsound.chainEnd_empty hloops honce, rfl⟩,
      inner, frame, outer, hloops, hinner, haccepts, rfl⟩

theorem isOpenFlow_jump {kind : Jump} {label : Option String} (hE : E (.unresolvedJump kind label)) :
    IsOpenFlow E (jump kind label) := by
  intro s hs
  refine (jump_ran hs hE).mono ?_
  rintro _ _ ⟨inner, frame, outer, hloops, hinner, haccepts, rfl⟩
  exact .jump hs hloops hinner haccepts

/-! Names. -/

section Names

variable {names : Names}

/-- The fault of a failing lookup is an error of `E`. -/
def MayLookUp (E : BuildError → Prop) (names : Names) (access : Access) (name : String) : Prop :=
  ∀ fault, names.find access name = .error fault → E (.fault fault)

/-- A look-up fails only as the names allow. -/
theorem isCode_resolve {access : Access} {name : String} (h : MayLookUp E names access name) :
    IsCode E held (resolve names access name) Any := by
  intro s _
  cases hfind : names.find access name with
  | ok r =>
      refine .of_ok (a := r) (t := s) ?_ ⟨held, subset_refl _, trivial, .refl⟩
      rw [resolve, hfind]
  | error fault =>
      refine .of_error (e := .fault fault) (t := s) ?_ (h fault hfind)
      rw [resolve, hfind]

/-- Whatever a name means, its value is in reach behind the read. -/
theorem isCode_readName {name : String} (h : MayLookUp E names .read name) :
    IsCode E held (readName names name) Value := by
  refine (isCode_resolve h).bind fun r held' _ _ => ?_
  cases r with
  | own => exact isCode_emit rfl rfl .nil
  | localVar => exact isCode_draw (fun _ => rfl) trivial
  | slot depth index =>
      refine (isCode_count depth).bind fun _ _ _ hdepth => (isCode_count index).bind fun _ _ hsub hindex => ?_
      exact isCode_emit rfl rfl (.cons (hdepth.mono hsub) (.cons hindex .nil))
  | global => exact (isCode_constant _).bind fun _ _ _ hkey => isCode_emit rfl rfl (.cons hkey .nil)

theorem isCode_storeContext {depth index : Nat} {value : Operand} (hvalue : value.HeldIn held) :
    IsCode E held (storeContext depth index value) Any := by
  refine (isCode_count depth).bind fun _ _ hsub hdepth => (isCode_count index).bind fun _ _ hsub' hindex => ?_
  exact isCode_perform rfl rfl
    (.cons (hdepth.mono hsub') (.cons hindex (.cons (hvalue.mono (hsub.trans hsub')) .nil)))

/-- The value of an assignment is in reach behind the write, as the variable or as itself. -/
theorem isCode_writeName {name : String} {value : Operand} (h : MayLookUp E names .write name)
    (hvalue : value.HeldIn held) : IsCode E held (writeName names name value) Value := by
  have hglobal : ∀ {held' : Set InstrId}, held ⊆ held' → IsCode E held' (do
      let key ← constant (.string name)
      perform .storeGlobal [key, value]
      return value) Value := by
    intro held' hsub
    refine (isCode_constant _).bind fun _ _ hsub' hkey => ?_
    have hvalue' := hvalue.mono (hsub.trans hsub')
    exact (isCode_perform rfl rfl (.cons hkey (.cons hvalue' .nil))).bind fun _ _ hsub'' _ =>
      .pure (hvalue'.mono hsub'')
  refine (isCode_resolve h).bind fun r held' hsub _ => ?_
  cases r with
  | localVar => exact (isCode_bindLocal (hvalue.mono hsub)).bind fun _ _ _ _ => .pure trivial
  | slot depth index =>
      exact (isCode_storeContext (hvalue.mono hsub)).bind fun _ _ hsub' _ => .pure (hvalue.mono (hsub.trans hsub'))
  | global => exact hglobal hsub
  | own => exact hglobal hsub

theorem isCode_loadParams {params : List String} (h : ∀ name ∈ params, MayLookUp E names .write name)
    (position : Nat) : IsCode E held (loadParams names position params) Any := by
  induction params generalizing held position with
  | nil => exact .pure trivial
  | cons name rest ih =>
      obtain ⟨hname, hrest⟩ := List.forall_mem_cons.mp h
      refine (isCode_count position).bind fun _ _ _ hposition => ?_
      refine (isCode_emit rfl rfl (.cons hposition .nil)).bind fun _ _ _ hargument => ?_
      exact (isCode_writeName hname hargument).bind fun _ _ _ _ => ih hrest _

theorem isCode_loadSelf (slot : Option Nat) : IsCode E held (loadSelf slot) Any := by
  cases slot with
  | none => exact .pure trivial
  | some slot => exact (isCode_emit rfl rfl .nil).bind fun _ _ _ hself => isCode_storeContext hself

theorem isCode_clearVars (vars : List String) : IsCode E held (clearVars vars) Any := by
  induction vars generalizing held with
  | nil => exact .pure trivial
  | cons name rest ih =>
      refine (isCode_literal _).bind fun _ _ _ hundefined => ?_
      exact (isCode_bindLocal hundefined).bind fun _ _ _ _ => ih

/-- The prologue looks names up only for the parameters. -/
theorem isCode_prologue {scope : Scope} (h : ∀ name ∈ scope.params, MayLookUp E names .write name) :
    IsCode E held (prologue names scope) Any :=
  (isCode_loadParams h 0).bind fun _ _ _ _ =>
    (isCode_loadSelf _).bind fun _ _ _ _ => isCode_clearVars _

end Names

/-! Calls. -/

theorem isCode_pushArgs {arguments : List Operand} (h : Values arguments held) :
    IsCode E held (pushArgs arguments) Any := by
  have hpush : ∀ {args : List Operand} {held : Set InstrId}, Values args held →
      IsCode E held (args.forM fun argument => perform .pushArg [argument]) Any := by
    intro args
    induction args with
    | nil => exact fun _ => .pure trivial
    | cons argument rest ih =>
        intro held h
        obtain ⟨hargument, hrest⟩ := List.forall_mem_cons.mp h
        exact (isCode_perform rfl rfl (.cons hargument .nil)).bind fun _ _ hsub _ =>
          ih (Values.mono hsub hrest)
  exact hpush fun o ho => h o (List.mem_reverse.mp ho)

/-- The receiver is fetched behind the pushes, which keep what is in reach. -/
theorem isCode_call {function : Operand} {receiver : Build Operand} {arguments : List Operand}
    (hfunction : function.HeldIn held) (hreceiver : ∀ held', held ⊆ held' → IsCode E held' receiver Value)
    (harguments : Values arguments held) : IsCode E held (call function receiver arguments) Value := by
  refine (isCode_pushArgs harguments).bind fun _ _ hsub _ => (hreceiver _ hsub).bind fun _ _ hsub' hr => ?_
  refine (isCode_count _).bind fun _ _ hsub'' hsize => ?_
  exact isCode_emit rfl rfl
    (.cons (hfunction.mono (hsub.trans (hsub'.trans hsub''))) (.cons (hr.mono hsub'') (.cons hsize .nil)))

theorem isCode_new {function : Operand} {arguments : List Operand} (hfunction : function.HeldIn held)
    (harguments : Values arguments held) : IsCode E held (new function arguments) Value := by
  refine (isCode_pushArgs harguments).bind fun _ _ hsub _ => (isCode_count _).bind fun _ _ hsub' hsize => ?_
  exact isCode_emit rfl rfl (.cons (hfunction.mono (hsub.trans hsub')) (.cons hsize .nil))

end Build

end ScriptSsa
