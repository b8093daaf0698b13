import ScriptSsa.Proofs.Coherence
import ScriptSsa.Proofs.OpenBlocks

/-!
Where code inside expressions ends.

An expression adds code to the current block and may end in a new one. Blocks that existed before it, apart from the
current one, stay as they are, so the arms and the join of a merge are empty when their turn comes. It follows that
control can go on behind an expression if it could before it, wherever the expression stands.
-/

namespace ScriptSsa

open Build

/-- Control can go on from the current block: it has no successors and does not end in a return. -/
def Builder.GoesOn (s : Builder) : Prop :=
  ∃ b, s.At b ∧ b.succs = [] ∧ ∀ last ∈ b.instrs.getLast?, last.opcode ≠ .ret

/-- From `s` to `t`, only the current block and new ones have changed, and control can still go on. -/
structure Continues (s t : Builder) : Prop where
  fresh : t.Fresh
  ids : s.ids ⊆ t.ids
  current : t.current = s.current ∨ t.current ∉ s.ids
  others : ∀ id ∈ s.ids, id ≠ s.current → t.block? id = s.block? id
  goesOn : s.GoesOn → t.GoesOn

namespace Continues

variable {s t u : Builder} {b : Block}

/-- A change that leaves the blocks alone. -/
theorem aside (hs : s.Fresh) (hblocks : t.blocks = s.blocks) (hcurrent : t.current = s.current)
    (hsupply : s.supply ≤ t.supply) : Continues s t := by
  have hids : t.ids = s.ids := congrArg (List.map Block.id) hblocks
  have hblock : ∀ id, t.block? id = s.block? id := fun id => by rw [Builder.block?, hblocks, Builder.block?]
  refine ⟨hs.of_ids_eq hids hsupply, hids ▸ List.Subset.refl _, .inl hcurrent, fun id _ _ => hblock id, ?_⟩
  rintro ⟨b, hat, hb⟩
  refine ⟨b, ?_, hb⟩
  rw [Builder.At, hcurrent, hblock]
  exact hat

/-- An older block that was not the current one does not become it again. -/
theorem current_ne (h : Continues s t) {id : BlockId} (hid : id ∈ s.ids) (hne : id ≠ s.current) : id ≠ t.current := by
  rcases h.current with hcurrent | hnew
  · rwa [hcurrent]
  · exact fun heq => hnew (heq ▸ hid)

theorem trans (h : Continues s t) (h' : Continues t u) : Continues s u where
  fresh := h'.fresh
  ids := List.Subset.trans h.ids h'.ids
  current := by
    rcases h'.current with hcurrent | hnew
    · rw [hcurrent]
      exact h.current
    · exact .inr fun hmem => hnew (h.ids hmem)
  others id hid hne := by rw [h'.others id (h.ids hid) (h.current_ne hid hne), h.others id hid hne]
  goesOn hs := h'.goesOn (h.goesOn hs)

/-- Only a return or a branch would keep control from going on, and neither is plain. -/
theorem emit {opcode : Opcode} {binding : Option String} {operands : List Operand} (hs : s.Fresh)
    (hplain : opcode.isPlain = true) : Continues s (s.emit binding opcode operands) where
  fresh := hs.of_ids_eq Builder.ids_emit (Supply.le_dropInstr _)
  ids := by
    rw [Builder.ids_emit]
    exact List.Subset.refl _
  current := .inl rfl
  others id _ hne := by rw [Builder.block?_emit, if_neg hne]
  goesOn := by
    rintro ⟨b, hat, hsuccs, _⟩
    refine ⟨_, Builder.At_emit hat, hsuccs, fun last hlast => ?_⟩
    rw [List.getLast?_concat, Option.mem_some_iff] at hlast
    rw [← hlast]
    rintro rfl
    cases hplain

theorem bindLocal {name : String} {value : Operand} (hs : s.Fresh) : Continues s (s.bindLocal name value) := by
  rw [Builder.bindLocal]
  cases hbound : (s.block? s.current).bind fun b => b.bindLast? name value with
  | none => exact emit hs rfl
  | some bound =>
      obtain ⟨b, hat, hlast⟩ := Option.bind_eq_some_iff.mp hbound
      have hid : bound.id = s.current := (Block.bindLast?_id hlast).trans (Builder.block?_id hat)
      have hids : (s.replace bound).ids = s.ids := Builder.ids_replace hid
      refine ⟨hs.of_ids_eq hids (le_refl _), hids ▸ List.Subset.refl _, .inl rfl, fun id _ hne => ?_, ?_⟩
      · rw [Builder.block?_replace hid, if_neg hne]
      · rintro ⟨c, hc, hsuccs, hret⟩
        obtain rfl : c = b := Option.some.inj (hc.symm.trans hat)
        refine ⟨bound, Builder.At_replace hat hlast, (Block.bindLast?_succs hlast).trans hsuccs, ?_⟩
        obtain ⟨init, last, hinstrs, _, _, _, _, rfl⟩ := Block.bindLast?_eq_some hlast
        rw [hinstrs, List.getLast?_concat] at hret
        rw [List.getLast?_concat]
        rintro _ ⟨⟩
        exact hret last rfl

end Continues

namespace Build

variable {α β : Type}

/-- Code inside expressions. -/
structure Evaluates (m : Build α) : Prop where
  coheres : Coheres m
  continues : ∀ s a t, s.Fresh → m s = .ok a t → Continues s t

namespace Evaluates

variable {m : Build α} {f : α → Build β}

theorem pure {a : α} : Evaluates (Pure.pure a : Build α) where
  coheres := .pure
  continues := by
    rintro s _ _ hs ⟨⟩
    exact .aside hs rfl rfl (le_refl _)

theorem fail {e : BuildError} : Evaluates (Build.fail e : Build α) := ⟨.fail, fun _ _ _ _ h => nomatch h⟩

/-- Where the first part ends, the second can still go on. -/
theorem bind (hm : Evaluates m) (hf : ∀ a, Evaluates (f a)) : Evaluates (m >>= f) where
  coheres := hm.coheres.bind fun a => (hf a).coheres
  continues := by
    intro s b u hs h
    obtain ⟨a, t, hrun, hrest⟩ := bind_eq_ok h
    have hcontinues := hm.continues s a t hs hrun
    exact hcontinues.trans ((hf a).continues t b u hcontinues.fresh hrest)

end Evaluates

/-! The steps. -/

theorem evaluates_freshInstr : Evaluates freshInstr where
  coheres := coheres_freshInstr
  continues := by
    rintro s _ _ hs ⟨⟩
    exact .aside hs rfl rfl (Supply.le_dropInstr _)

theorem evaluates_constant (c : Constant) : Evaluates (constant c) := evaluates_freshInstr.bind fun _ => .pure

theorem evaluates_count (n : Nat) : Evaluates (count n) := evaluates_freshInstr.bind fun _ => .pure

theorem evaluates_emitBound {opcode : Opcode} {operands : List Operand} (hplain : opcode.isPlain = true) :
    Evaluates (emitBound none opcode operands) where
  coheres := coheres_emitBound
  continues s id t hs h := by
    obtain ⟨_, _, rfl⟩ := emitBound_eq_ok h
    exact .emit hs hplain

theorem evaluates_perform {opcode : Opcode} {operands : List Operand} (hplain : opcode.isPlain = true) :
    Evaluates (perform opcode operands) :=
  (evaluates_emitBound hplain).bind fun _ => .pure

theorem evaluates_emit {opcode : Opcode} {operands : List Operand} (hplain : opcode.isPlain = true) :
    Evaluates (emit opcode operands) :=
  (evaluates_emitBound hplain).bind fun _ => .pure

theorem evaluates_literal (c : Constant) : Evaluates (literal c) :=
  (evaluates_constant c).bind fun _ => evaluates_emit rfl

/-- To bind a variable gives the last instruction a name or adds a `nop`, and neither stops control. -/
theorem evaluates_bindLocal (name : String) (value : Operand) : Evaluates (bindLocal name value) where
  coheres := coheres_bindLocal name value
  continues s a t hs h := by
    obtain ⟨_, rfl⟩ := bindLocal_eq_ok h
    exact .bindLocal hs

theorem evaluates_lift (result : Except BuildError α) : Evaluates (lift result) := by
  cases result with
  | ok a => exact Evaluates.pure
  | error e => exact Evaluates.fail

/-! Merges. -/

/-- An arm leaves all blocks alone but the one it starts in. -/
theorem arm_others {phi : InstrId} {join block : BlockId} {value : Build Operand} {s t : Builder} {a : Unit}
    (hvalue : Evaluates value) (hs : s.Fresh) (h : arm phi join block value s = .ok a t) :
    t.Fresh ∧ s.ids ⊆ t.ids ∧ ∀ id ∈ s.ids, id ≠ block → t.block? id = s.block? id := by
  obtain ⟨_, s₁, hswitch, h⟩ := bind_eq_ok h
  obtain ⟨_, rfl⟩ := switchTo_eq_ok hswitch
  obtain ⟨v, s₂, hrun, h⟩ := bind_eq_ok h
  obtain ⟨_, s₃, hcontribute, hlink⟩ := bind_eq_ok h
  have henter : (s.enter block).Fresh := hs.of_ids_eq rfl (le_refl _)
  have hcontinues := hvalue.continues _ v s₂ henter hrun
  obtain ⟨recorder, hs₃⟩ := contribute_eq_ok hcontribute
  obtain ⟨_, _, ht⟩ := linkCurrent_eq_ok hlink
  have hids : t.ids = s₂.ids := by rw [ht, Builder.ids_link, hs₃, Builder.ids_emit, Builder.ids_withPhis]
  have hsupply : t.supply = s₂.supply.dropInstr := by rw [ht, hs₃]; rfl
  refine ⟨hcontinues.fresh.of_ids_eq hids (hsupply ▸ Supply.le_dropInstr _), hids ▸ hcontinues.ids, ?_⟩
  intro id hid hne
  have hcurrent : id ≠ (s₂.withPhis recorder).current := hcontinues.current_ne hid hne
  have hcurrent₃ : id ≠ s₃.current := by
    rw [hs₃]
    exact hcurrent
  rw [ht, Builder.block?_link, if_neg hcurrent₃, hs₃, Builder.block?_emit, if_neg hcurrent]
  exact hcontinues.others id hid hne

/-- The arms of a merge, one after the other. -/
theorem arms_others {phi : InstrId} {join : BlockId} {trueFirst : Bool} {first second : Build Operand}
    {s u t₁ t₂ : Builder} {a₁ a₂ : Unit} (hfirst : Evaluates first) (hsecond : Evaluates second) (hu : u.Fresh)
    (h₁ : arm phi join (s.firstArm trueFirst) first u = .ok a₁ t₁)
    (h₂ : arm phi join (s.otherArm trueFirst) second t₁ = .ok a₂ t₂) :
    t₂.Fresh ∧ u.ids ⊆ t₂.ids ∧
      ∀ id ∈ u.ids, id ≠ s.later 0 → id ≠ s.later 1 → t₂.block? id = u.block? id := by
  obtain ⟨hfresh₁, hids₁, hothers₁⟩ := arm_others hfirst hu h₁
  obtain ⟨hfresh₂, hids₂, hothers₂⟩ := arm_others hsecond hfresh₁ h₂
  refine ⟨hfresh₂, List.Subset.trans hids₁ hids₂, fun id hid hne₀ hne₁ => ?_⟩
  have hnot : id ≠ s.firstArm trueFirst ∧ id ≠ s.otherArm trueFirst := by
    cases trueFirst with
    | true => exact ⟨hne₀, hne₁⟩
    | false => exact ⟨hne₁, hne₀⟩
  rw [hothers₂ id (hids₁ hid) hnot.2, hothers₁ id hid hnot.1]

end Build

namespace Builder

variable {s : Builder} {condition : Operand} {id : BlockId}

theorem Fresh.split (h : s.Fresh) : (s.split condition).Fresh := by
  have hemit : (s.emit none .branch [condition]).Fresh := h.of_ids_eq ids_emit (Supply.le_dropInstr _)
  exact hemit.alloc.alloc.alloc.of_ids_eq ids_link (le_refl _)

/-- A branch fills the current block and leaves the older ones alone. -/
theorem Fresh.block?_split (h : s.Fresh) (hid : id ∈ s.ids) (hne : id ≠ s.current) :
    (s.split condition).block? id = s.block? id := by
  have hnew : ∀ k, id ≠ s.later k := fun k heq => h.later_notMem k (heq ▸ hid)
  rw [Builder.split, block?_link, if_neg hne]
  rw [block?_alloc_of_ne (s := (s.emit none .branch [condition]).alloc.alloc) (hnew 2),
    block?_alloc_of_ne (s := (s.emit none .branch [condition]).alloc) (hnew 1),
    block?_alloc_of_ne (s := s.emit none .branch [condition]) (hnew 0), block?_emit, if_neg hne]

/-- The join of a branch is still empty. -/
theorem Fresh.block?_split_join (h : s.Fresh) (hcurrent : s.current ∈ s.ids) :
    (s.split condition).block? (s.later 2) = some (.empty (s.later 2)) := by
  have hne : s.later 2 ≠ s.current := fun heq => h.later_notMem 2 (heq ▸ hcurrent)
  have hemit : (s.emit none .branch [condition]).Fresh := h.of_ids_eq ids_emit (Supply.le_dropInstr _)
  rw [Builder.split, block?_link, if_neg hne]
  exact block?_alloc_self (hemit.alloc.alloc.later_notMem 0)

end Builder

namespace Build

variable {α : Type}

/-- A merge that succeeds has run both of its arms. -/
theorem merge_eq_ok {condition v : Operand} {trueFirst : Bool} {first second : Build Operand} {s t : Builder}
    (h : merge condition trueFirst first second s = .ok v t) :
    s.current ∈ s.ids ∧ ∃ s₁ s₂,
      arm s.supply.nextInstr (s.later 2) (s.firstArm trueFirst) first
        ((s.draw.split condition).withPhis (s.phis.openPhi s.supply.nextInstr (s.later 2))) = .ok () s₁ ∧
      arm s.supply.nextInstr (s.later 2) (s.otherArm trueFirst) second s₁ = .ok () s₂ ∧
      v = .instr s.supply.nextInstr ∧ t = s₂.place s.supply.nextInstr (s.later 2) := by
  obtain ⟨phi, s₁, hdraw, h⟩ := bind_eq_ok h
  obtain ⟨rfl, rfl⟩ : phi = s.supply.nextInstr ∧ s₁ = s.draw := by
    cases hdraw
    exact ⟨rfl, rfl⟩
  obtain ⟨_, s₁, hperform, h⟩ := bind_eq_ok h
  obtain ⟨_, _, hemit, hpure⟩ := bind_eq_ok hperform
  obtain ⟨⟨b, hat⟩, _, rfl⟩ := emitBound_eq_ok hemit
  cases hpure
  obtain ⟨_, s₂, hnew, h⟩ := bind_eq_ok h
  cases hnew
  obtain ⟨_, s₂, hnew, h⟩ := bind_eq_ok h
  cases hnew
  obtain ⟨_, s₂, hnew, h⟩ := bind_eq_ok h
  cases hnew
  obtain ⟨_, s₂, hopen, h⟩ := bind_eq_ok h
  cases hopen
  obtain ⟨_, s₂, hlink, h⟩ := bind_eq_ok h
  obtain ⟨_, _, hs₂⟩ := linkCurrent_eq_ok hlink
  obtain ⟨_, s₃, hfirst, h⟩ := bind_eq_ok h
  obtain ⟨_, s₄, hsecond, h⟩ := bind_eq_ok h
  obtain ⟨_, s₅, henter, hpure⟩ := bind_eq_ok h
  obtain ⟨_, _, _, rfl⟩ := enterJoin_eq_ok henter
  cases hpure
  rw [hs₂] at hfirst
  exact ⟨Builder.mem_ids_of_block? hat, s₃, s₄, hfirst, hsecond, rfl, rfl⟩

/-- The arms change neither the join nor each other, so the phi is placed in an empty block and control goes on behind
it. -/
theorem evaluates_merge {condition : Operand} {trueFirst : Bool} {first second : Build Operand}
    (hfirst : Evaluates first) (hsecond : Evaluates second) : Evaluates (merge condition trueFirst first second) where
  coheres := coheres_merge hfirst.coheres hsecond.coheres
  continues := by
    intro s v t hs h
    obtain ⟨hcurrent, s₁, s₂, hrun₁, hrun₂, _, rfl⟩ := merge_eq_ok h
    have hdraw : s.draw.Fresh := hs.of_ids_eq rfl (Supply.le_dropInstr _)
    have hopen : ∀ recorder, ((s.draw.split condition).withPhis recorder).Fresh := fun _ =>
      hdraw.split.of_ids_eq rfl (le_refl _)
    obtain ⟨hfresh, hids, hothers⟩ := arms_others hfirst hsecond (hopen _) hrun₁ hrun₂
    have hmem : s.ids ⊆ (s.draw.split condition).ids := by
      rw [Builder.ids_split]
      simp
    have hjoin : s₂.block? (s.later 2) = some (.empty (s.later 2)) := by
      have hempty : (s.draw.split condition).block? (s.later 2) = some (.empty (s.later 2)) :=
        hdraw.block?_split_join hcurrent
      rw [hothers _ (Builder.mem_ids_of_block? hempty) (by simp [Builder.later]) (by simp [Builder.later])]
      exact hempty
    refine ⟨hfresh.of_ids_eq Builder.ids_place (le_refl _), ?_, .inr (hs.later_notMem 2), ?_, ?_⟩
    · rw [Builder.ids_place]
      exact List.Subset.trans hmem hids
    · intro id hid hne
      have hnew : ∀ k, id ≠ s.later k := fun k heq => hs.later_notMem k (heq ▸ hid)
      rw [Builder.block?_place, if_neg (hnew 2), hothers id (hmem hid) (hnew 0) (hnew 1)]
      exact hdraw.block?_split hid hne
    · refine fun _ => ⟨_, Builder.At_place hjoin, rfl, ?_⟩
      simp

/-! Variables. -/

variable {names : Names}

theorem evaluates_resolve (access : Access) (name : String) : Evaluates (resolve names access name) := by
  have hlift : resolve names access name = lift ((names.find access name).mapError .fault) := by
    funext s
    rw [resolve]
    cases names.find access name <;> rfl
  rw [hlift]
  exact evaluates_lift _

theorem evaluates_readName (name : String) : Evaluates (readName names name) := by
  refine (evaluates_resolve .read name).bind fun r => ?_
  cases r with
  | own => exact evaluates_emit rfl
  | localVar => exact evaluates_freshInstr.bind fun _ => .pure
  | slot depth index => exact (evaluates_count _).bind fun _ => (evaluates_count _).bind fun _ => evaluates_emit rfl
  | global => exact (evaluates_constant _).bind fun _ => evaluates_emit rfl

theorem evaluates_storeContext (depth index : Nat) (value : Operand) : Evaluates (storeContext depth index value) :=
  (evaluates_count _).bind fun _ => (evaluates_count _).bind fun _ => evaluates_perform rfl

theorem evaluates_writeName (name : String) (value : Operand) : Evaluates (writeName names name value) := by
  refine (evaluates_resolve .write name).bind fun r => ?_
  cases r with
  | localVar => exact (evaluates_bindLocal name value).bind fun _ => .pure
  | slot depth index => exact (evaluates_storeContext _ _ value).bind fun _ => .pure
  | global | own => exact (evaluates_constant _).bind fun _ => (evaluates_perform rfl).bind fun _ => .pure

theorem evaluates_loadParams (params : List String) (position : Nat) :
    Evaluates (loadParams names position params) := by
  induction params generalizing position with
  | nil => exact .pure
  | cons name rest ih =>
      refine (evaluates_count _).bind fun _ => (evaluates_emit rfl).bind fun v => ?_
      exact (evaluates_writeName name v).bind fun _ => ih _

theorem evaluates_clearVars (vars : List String) : Evaluates (clearVars vars) := by
  induction vars with
  | nil => exact .pure
  | cons name rest ih => exact (evaluates_literal _).bind fun v => (evaluates_bindLocal name v).bind fun _ => ih

/-- Control is in the first block all through the prologue. -/
theorem evaluates_prologue (scope : Scope) : Evaluates (prologue names scope) := by
  have hself : Evaluates (loadSelf scope.ownSlot) := by
    cases scope.ownSlot with
    | none => exact .pure
    | some slot => exact (evaluates_emit rfl).bind fun v => evaluates_storeContext _ _ v
  exact (evaluates_loadParams scope.params 0).bind fun _ => hself.bind fun _ => evaluates_clearVars scope.vars

/-! Calls. -/

theorem evaluates_pushArgs (arguments : List Operand) : Evaluates (pushArgs arguments) := by
  rw [pushArgs]
  induction arguments.reverse with
  | nil => exact Evaluates.pure
  | cons argument rest ih => exact (evaluates_perform rfl).bind fun _ => ih

theorem evaluates_call {function : Operand} {receiver : Build Operand} {arguments : List Operand}
    (hreceiver : Evaluates receiver) : Evaluates (call function receiver arguments) :=
  (evaluates_pushArgs arguments).bind fun _ => hreceiver.bind fun _ => (evaluates_count _).bind fun _ =>
    evaluates_emit rfl

theorem evaluates_new (function : Operand) (arguments : List Operand) : Evaluates (new function arguments) :=
  (evaluates_pushArgs arguments).bind fun _ => (evaluates_count _).bind fun _ => evaluates_emit rfl

/-! Nested functions. -/

/-- What is built on the side may have any form. -/
theorem evaluates_inNewGraph {name : Option String} {body : Build Unit} (h : Coheres body) :
    Evaluates (inNewGraph name body) where
  coheres := coheres_inNewGraph h
  continues := by
    intro s g u hs hrun
    obtain ⟨t, hbody, _, _, rfl⟩ := inNewGraph_eq_ok hrun
    obtain ⟨hlegal, _⟩ := (h s.nested s.coherent_nested (List.nil_subset _)).ok hbody
    exact .aside hs rfl rfl (le_trans (Supply.le_dropBlock _) (hlegal.stays s.coherent_nested).supply)

theorem evaluates_functionValue (graph : Graph) : Evaluates (functionValue graph) := by
  have hqueue : Evaluates (queue graph) := by
    refine ⟨.of_ok fun _ _ _ => ⟨(), _, rfl, .queue⟩, ?_⟩
    rintro s _ _ hs ⟨⟩
    exact .aside hs rfl rfl (le_refl _)
  exact hqueue.bind fun _ => (evaluates_freshInstr.bind fun _ => .pure).bind fun _ => evaluates_emit rfl

end Build

end ScriptSsa
