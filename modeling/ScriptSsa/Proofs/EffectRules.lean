import ScriptSsa.Proofs.EffectMachine
import ScriptSsa.Proofs.OpenEnds
import ScriptSsa.Proofs.Steps

/-!
Code performs effects.

`Performs I locals K code effect gives` says what `code` does when it is run: from any memory in which `K` holds, it
leaves the world as `effect` does and the stack as it was, and what it gives can be read as the value of `effect`.
What is known of a memory has to last, since code that follows keeps new values under new ids. The rules put code
together as the effects are put together. A merge has both arms in its code and the effects of one.
-/

namespace ScriptSsa

open Build

universe u

namespace Effects

variable {V W : Type u} {I : Effects V W}

namespace Memory

variable {m m' m'' : Memory V W} {n k : Nat} {K K' : Memory V W → Prop}

/-- The two memories hold the same values for the ids up to `n`, and for the local variables. -/
def AgreeBelow (n : Nat) (m m' : Memory V W) : Prop :=
  (∀ id : InstrId, id.index < n → m'.values id = m.values id) ∧ m'.locals = m.locals

theorem AgreeBelow.refl (n : Nat) (m : Memory V W) : m.AgreeBelow n m := ⟨fun _ _ => rfl, rfl⟩

theorem AgreeBelow.trans (h : m.AgreeBelow n m') (h' : m'.AgreeBelow n m'') : m.AgreeBelow n m'' :=
  ⟨fun id hid => (h'.1 id hid).trans (h.1 id hid), h'.2.trans h.2⟩

theorem AgreeBelow.mono (h : m.AgreeBelow k m') (hle : n ≤ k) : m.AgreeBelow n m' :=
  ⟨fun id hid => h.1 id (Nat.lt_of_lt_of_le hid hle), h.2⟩

/-- A new instruction keeps its value under a new id. -/
theorem AgreeBelow.keep {i : Instr} {r : V × W} (hbinding : i.binding = none) (hle : n ≤ i.id.index) :
    m.AgreeBelow n (m.keep i r) := by
  refine ⟨fun id hid => Function.update_of_ne ?_ _ _, by rw [Memory.keep, hbinding]; rfl⟩
  rintro rfl
  omega

/-- What holds of the memory and of all that come later, when `n` ids have been drawn. -/
def Lasting (n : Nat) (K : Memory V W → Prop) (m : Memory V W) : Prop := ∀ m', m.AgreeBelow n m' → K m'

theorem Lasting.now (h : Lasting n K m) : K m := h m (.refl n m)

theorem Lasting.later (h : Lasting n K m) (hagree : m.AgreeBelow n m') (hle : n ≤ k) : Lasting k K m' :=
  fun m'' hlater => h m'' (hagree.trans (hlater.mono hle))

theorem Lasting.and (h : Lasting n K m) (h' : Lasting n K' m) : Lasting n (fun m => K m ∧ K' m) m :=
  fun m' hagree => ⟨h m' hagree, h' m' hagree⟩

theorem Lasting.imp (h : Lasting n K m) (himp : ∀ m', m'.locals = m.locals → K m' → K' m') : Lasting n K' m :=
  fun m' hagree => himp m' hagree.2 (h m' hagree)

end Memory

/-- The place where the next instruction will go. -/
def spot (s : Builder) (m : Memory V W) : Config V W :=
  ⟨s.current, (s.block? s.current).elim 0 fun b => b.instrs.length, m⟩

theorem spot_eq {s : Builder} {b : Block} (h : s.At b) (m : Memory V W) :
    spot s m = ⟨s.current, b.instrs.length, m⟩ := by
  rw [spot, h]
  rfl

/-- A run stops where control can go on. -/
theorem step_spot {s : Builder} (h : s.GoesOn) (m : Memory V W) : step I s.block? (spot s m) = none := by
  obtain ⟨b, hat, hsuccs, _⟩ := h
  have hcode : s.block? s.current = some b := hat
  simp only [spot_eq hat, step, hcode, List.getElem?_eq_none (Nat.le_refl _), hsuccs, Option.bind_some]

/-- The code that is put down between two builders leads from one memory to the other. -/
structure Carries (I : Effects V W) (s : Builder) (m : Memory V W) (t : Builder) (m' : Memory V W) : Prop where
  continues : Continues s t
  supply : s.supply ≤ t.supply
  grows : Extends s.block? t.block?
  reaches : ∀ {code}, Extends t.block? code → Reaches I code (spot s m) (spot t m')
  agree : m.AgreeBelow s.supply.instrs m'

namespace Carries

variable {s t u : Builder} {b : Block} {m m' m'' : Memory V W}

theorem trans (h : Carries I s m t m') (h' : Carries I t m' u m'') : Carries I s m u m'' where
  continues := h.continues.trans h'.continues
  supply := h.supply.trans h'.supply
  grows := h.grows.trans h'.grows
  reaches hcode := (h.reaches (h'.grows.trans hcode)).trans (h'.reaches hcode)
  agree := h.agree.trans (h'.agree.mono h.supply.1)

/-- A change that leaves the blocks alone. -/
theorem aside (hs : s.Fresh) (hblocks : t.blocks = s.blocks) (hcurrent : t.current = s.current)
    (hsupply : s.supply ≤ t.supply) (m : Memory V W) : Carries I s m t m where
  continues := .aside hs hblocks hcurrent hsupply
  supply := hsupply
  grows := by
    have hblock : t.block? = s.block? := by
      funext id
      rw [Builder.block?, hblocks, Builder.block?]
    rw [hblock]
    exact .refl _
  reaches _ := by
    have hspot : spot t m = spot s m := by rw [spot, spot, Builder.block?, Builder.block?, hblocks, hcurrent]
    rw [hspot]
    exact .refl
  agree := .refl _ m

theorem emit {opcode : Opcode} {operands : List Operand} (hs : s.Fresh) (hgoes : s.GoesOn)
    (hplain : opcode.isPlain = true)
    (hperform : m.perform I ⟨s.supply.nextInstr, opcode, operands, none⟩ = some m')
    (hagree : m.AgreeBelow s.supply.instrs m') : Carries I s m (s.emit none opcode operands) m' where
  continues := .emit hs hplain
  supply := Supply.le_dropInstr _
  grows := by
    obtain ⟨b, hat, hsuccs, _⟩ := hgoes
    exact Builder.extends_emit ⟨b, hat, hsuccs⟩
  reaches hcode := by
    obtain ⟨b, hat, _, _⟩ := hgoes
    have hat' := @Builder.At_emit s b none opcode operands hat
    obtain ⟨b', hb', hi⟩ := hcode.instr hat' List.getElem?_concat_length
    rw [spot_eq hat, spot_eq hat', List.length_append, List.length_singleton]
    refine .single (step_plain hb' hi ?_ hperform)
    rintro rfl
    cases hplain
  agree := hagree

end Carries

/-- The operand reads as the value. -/
abbrev Reads (I : Effects V W) (v : Operand) (x : V) (m : Memory V W) : Prop := m.read I v = some x

theorem Reads.lasting {id : InstrId} {x : V} {m : Memory V W} {n : Nat} (h : m.values id = x) (hid : id.index < n) :
    m.Lasting n (Reads I (.instr id) x) := by
  intro m' hagree
  rw [Reads, Memory.read, hagree.1 id hid, h]

variable {α β : Type} {δ ε : Type u}

/-- Code that is run from a memory in which `K` holds, with `xs` on top of the stack, does what the effect does and
takes these from the stack. What it gives is as `gives` says of the value of the effect. -/
def Consumes (I : Effects V W) (locals : String → V) (xs : List V) (K : Memory V W → Prop) (code : Build α)
    (effect : StateM W δ) (gives : α → δ → Memory V W → Prop) : Prop :=
  ∀ ⦃s : Builder⦄ ⦃a : α⦄ ⦃t : Builder⦄ ⦃m : Memory V W⦄ ⦃rest : List V⦄, s.Fresh → s.GoesOn → code s = .ok a t →
    m.locals = locals → m.stack = xs ++ rest → m.Lasting s.supply.instrs K →
    ∃ m', Carries I s m t m' ∧ m'.stack = rest ∧ m'.world = (effect m.world).2 ∧
      m'.Lasting t.supply.instrs (gives a (effect m.world).1)

/-- Code that leaves the stack as it is. -/
abbrev Performs (I : Effects V W) (locals : String → V) (K : Memory V W → Prop) (code : Build α) (effect : StateM W δ)
    (gives : α → δ → Memory V W → Prop) : Prop :=
  Consumes I locals [] K code effect gives

/-- What follows from `K`, with the given values of the local variables. -/
def Knows (locals : String → V) (K P : Memory V W → Prop) : Prop := ∀ m, m.locals = locals → K m → P m

/-- No value is given. -/
def NoValue (_ : α) (_ : δ) (_ : Memory V W) : Prop := True

namespace Consumes

variable {locals : String → V} {xs : List V} {K : Memory V W → Prop} {code : Build α} {f : α → Build β}
  {effect : StateM W δ} {g : δ → StateM W ε} {gives : α → δ → Memory V W → Prop} {gives' : β → ε → Memory V W → Prop}

theorem pure {a : α} {d : δ} (h : Knows locals K (gives a d)) :
    Performs I locals K (Pure.pure a) (Pure.pure d) gives := by
  rintro s _ _ m rest hs _ ⟨⟩ hlocals hstack hK
  exact ⟨m, .aside hs rfl rfl (le_refl _) m, hstack, rfl, hK.imp fun m' hm' => h m' (hm'.trans hlocals)⟩

theorem fail {e : BuildError} : Consumes I locals xs K (Build.fail e : Build α) effect gives :=
  fun _ _ _ _ _ _ _ h => nomatch h

/-- What follows may know that the value is one that the effect has in some world. -/
theorem bind_value (hm : Performs I locals K code effect gives)
    (hf : ∀ a w, Consumes I locals xs (fun m => gives a (effect w).1 m ∧ K m) (f a) (g (effect w).1) gives') :
    Consumes I locals xs K (code >>= f) (effect >>= g) gives' := by
  intro s b u m rest hs hgoes h hlocals hstack hK
  obtain ⟨a, t, hrun, hrest⟩ := bind_eq_ok h
  obtain ⟨m₁, hcarries, hstack₁, hworld, hgives⟩ := hm hs hgoes hrun hlocals hstack hK
  have hknown := hgives.and (hK.later hcarries.agree hcarries.supply.1)
  obtain ⟨m₂, hcarries', hstack₂, hworld', hgives'⟩ := hf a m.world hcarries.continues.fresh
    (hcarries.continues.goesOn hgoes) hrest (hcarries.agree.2.trans hlocals) hstack₁ hknown
  rw [hworld] at hworld' hgives'
  exact ⟨m₂, hcarries.trans hcarries', hstack₂, hworld', hgives'⟩

theorem bind (hm : Performs I locals K code effect gives)
    (hf : ∀ a d, Consumes I locals xs (fun m => gives a d m ∧ K m) (f a) (g d) gives') :
    Consumes I locals xs K (code >>= f) (effect >>= g) gives' :=
  hm.bind_value fun a _ => hf a _

/-- Code that leaves the world alone comes first. -/
theorem after {d : δ} {effect : StateM W ε} (hm : Performs I locals K code (Pure.pure d) gives)
    (hf : ∀ a, Consumes I locals xs (fun m => gives a d m ∧ K m) (f a) effect gives') :
    Consumes I locals xs K (code >>= f) effect gives' :=
  hm.bind_value (g := fun _ => effect) fun a _ => hf a

/-- An id is drawn first, for something that is no instruction. -/
theorem draw {a : α} {effect : StateM W ε} (hm : ∀ s, code s = .ok a s.draw)
    (hf : Consumes I locals xs K (f a) effect gives') : Consumes I locals xs K (code >>= f) effect gives' := by
  intro s b u m rest hs hgoes h hlocals hstack hK
  rw [bind_ok (hm s)] at h
  have haside : Carries I s m s.draw m := .aside (t := s.draw) hs rfl rfl (Supply.le_dropInstr _) m
  obtain ⟨m', hcarries, hrest⟩ := hf haside.continues.fresh (haside.continues.goesOn hgoes) h hlocals hstack
    (hK.later haside.agree haside.supply.1)
  exact ⟨m', haside.trans hcarries, hrest⟩

/-- All that the code does is to draw an id. -/
theorem drawn {a : α} {d : δ} (hm : ∀ s, code s = .ok a s.draw) (h : Knows locals K (gives a d)) :
    Performs I locals K code (Pure.pure d) gives := by
  have hdraw : Performs I locals K (code >>= Pure.pure) (Pure.pure d) gives := draw hm (pure h)
  rwa [bind_pure] at hdraw

/-- What is known of the memory may say something that has nothing to do with it. -/
theorem given {P : Prop} (h : Knows locals K fun _ => P) (hP : P → Consumes I locals xs K code effect gives) :
    Consumes I locals xs K code effect gives := by
  intro s a t m rest hs hgoes hrun hlocals hstack hK
  exact hP (h m hlocals hK.now) hs hgoes hrun hlocals hstack hK

end Consumes

section

variable {locals : String → V} {K : Memory V W → Prop}

/-- An instruction that yields a value, for which it may take values from the stack. -/
theorem consumes_emit {opcode : Opcode} {operands : List Operand} {effect : StateM W V} {xs : List V}
    (hplain : opcode.isPlain = true)
    (hperform : ∀ m id rest, m.locals = locals → m.stack = xs ++ rest → K m →
      m.perform I ⟨id, opcode, operands, none⟩ =
        some (Memory.keep { m with stack := rest } ⟨id, opcode, operands, none⟩ (effect m.world))) :
    Consumes I locals xs K (emit opcode operands) effect (Reads I) := by
  intro s v t m rest hs hgoes h hlocals hstack hK
  obtain ⟨id, t', hemit, hpure⟩ := bind_eq_ok h
  obtain ⟨_, rfl, rfl⟩ := emitBound_eq_ok hemit
  cases hpure
  refine ⟨_, .emit hs hgoes hplain (hperform m _ rest hlocals hstack hK.now) ?_, rfl, rfl, ?_⟩
  · exact Memory.AgreeBelow.keep (m := { m with stack := rest }) rfl (Nat.le_refl _)
  · exact Reads.lasting (Function.update_self _ _ _) (Nat.lt_succ_self _)

/-- An instruction that yields a value. -/
theorem performs_emit {opcode : Opcode} {operands : List Operand} {effect : StateM W V}
    (hplain : opcode.isPlain = true)
    (hresult : ∀ m, m.locals = locals → K m → m.result I opcode operands = some (effect m.world)) :
    Performs I locals K (emit opcode operands) effect (Reads I) := by
  refine consumes_emit hplain fun m id rest hlocals hstack hK => ?_
  obtain rfl : m.stack = rest := hstack
  exact Memory.perform_of_result (i := ⟨id, opcode, operands, none⟩) (hresult m hlocals hK)

/-- An instruction that changes the world. -/
theorem performs_perform {opcode : Opcode} {operands : List Operand} {effect : StateM W PUnit}
    (hplain : opcode.isPlain = true)
    (hperform : ∀ m id, m.locals = locals → K m →
      m.perform I ⟨id, opcode, operands, none⟩ = some { m with world := (effect m.world).2 }) :
    Performs I locals K (perform opcode operands) effect NoValue := by
  intro s v t m rest hs hgoes h hlocals hstack hK
  obtain ⟨id, t', hemit, hpure⟩ := bind_eq_ok h
  obtain ⟨_, rfl, rfl⟩ := emitBound_eq_ok hemit
  cases hpure
  exact ⟨_, .emit hs hgoes hplain (hperform m _ hlocals hK.now) ⟨fun _ _ => rfl, rfl⟩, hstack, rfl,
    fun _ _ => trivial⟩

end

end Effects

/-! The blocks of a merge. -/

namespace Builder

variable {s : Builder} {condition : Operand} {id : BlockId}

/-- The end of an arm, whatever is recorded for the phi. -/
def Leaves (s : Builder) (phi : InstrId) (join : BlockId) (value : Operand) (t : Builder) : Prop :=
  ∃ recorder, t = ((s.withPhis recorder).emit none .toPhi [.instr phi, value]).link s.current [join]

namespace Leaves

variable {phi : InstrId} {join : BlockId} {value : Operand} {t : Builder}

theorem supply (h : s.Leaves phi join value t) : s.supply ≤ t.supply := by
  obtain ⟨recorder, rfl⟩ := h
  exact Supply.le_dropInstr _

theorem grows (h : s.Leaves phi join value t) (hgoes : s.GoesOn) : Extends s.block? t.block? := by
  obtain ⟨recorder, rfl⟩ := h
  obtain ⟨b, hat, hsuccs, _⟩ := hgoes
  have hemit := @extends_emit (s.withPhis recorder) none .toPhi [.instr phi, value] ⟨b, hat, hsuccs⟩
  exact hemit.trans (extends_link (At_emit (s := s.withPhis recorder) hat) hsuccs)

end Leaves

/-- The arms of a branch are empty at first. -/
theorem Fresh.block?_split_arm (h : s.Fresh) (hcurrent : s.current ∈ s.ids) {k : Nat} (hk : k < 2) :
    (s.split condition).block? (s.later k) = some (.empty (s.later k)) := by
  have hne : s.later k ≠ s.current := fun heq => h.later_notMem k (heq ▸ hcurrent)
  have hemit : (s.emit none .branch [condition]).Fresh := h.of_ids_eq ids_emit (Supply.le_dropInstr _)
  rw [Builder.split, block?_link, if_neg hne]
  obtain rfl | rfl : k = 0 ∨ k = 1 := by omega
  · exact block?_alloc_of_some (block?_alloc_of_some (block?_alloc_self (hemit.later_notMem 0)))
  · exact block?_alloc_of_some (block?_alloc_self (hemit.alloc.later_notMem 0))

end Builder

namespace Build

/-- An arm that succeeds has run its code from the start of its block, and has left it for the join. -/
theorem arm_eq_ok {phi : InstrId} {join block : BlockId} {value : Build Operand} {s t : Builder} {a : Unit}
    (h : arm phi join block value s = .ok a t) :
    ∃ v u, value (s.enter block) = .ok v u ∧ u.Leaves phi join v t := by
  obtain ⟨_, s₁, hswitch, h⟩ := bind_eq_ok h
  obtain ⟨_, rfl⟩ := switchTo_eq_ok hswitch
  obtain ⟨v, u, hrun, h⟩ := bind_eq_ok h
  obtain ⟨_, s₃, hcontribute, hlink⟩ := bind_eq_ok h
  obtain ⟨recorder, rfl⟩ := contribute_eq_ok hcontribute
  obtain ⟨_, _, rfl⟩ := linkCurrent_eq_ok hlink
  exact ⟨v, u, hrun, recorder, rfl⟩

/-- The code of an arm succeeds from a block that is empty. -/
structure RunsArm (value : Build Operand) (block : BlockId) (s : Builder) (v : Operand) (t : Builder) : Prop where
  fresh : s.Fresh
  empty : s.At (.empty block)
  run : value s = .ok v t

theorem RunsArm.goesOn {value : Build Operand} {block : BlockId} {s t : Builder} {v : Operand}
    (h : RunsArm value block s v t) : s.GoesOn :=
  ⟨_, h.empty, rfl, nofun⟩

/-- The arms and the join of a merge are empty when their turn comes. -/
theorem merge_runs {condition v : Operand} {trueFirst : Bool} {first second : Build Operand} {s t : Builder}
    (hfirst : Evaluates first) (hsecond : Evaluates second) (hs : s.Fresh)
    (h : merge condition trueFirst first second s = .ok v t) :
    ∃ v₁ t₁ u₁ v₂ t₂ u₂, RunsArm first (s.firstArm trueFirst) (s.openMerge condition trueFirst) v₁ t₁ ∧
      t₁.Leaves s.supply.nextInstr (s.later 2) v₁ u₁ ∧
      RunsArm second (s.otherArm trueFirst) (u₁.enter (s.otherArm trueFirst)) v₂ t₂ ∧
      t₂.Leaves s.supply.nextInstr (s.later 2) v₂ u₂ ∧ u₂.block? (s.later 2) = some (.empty (s.later 2)) ∧
      v = .instr s.supply.nextInstr ∧ t = u₂.place s.supply.nextInstr (s.later 2) := by
  obtain ⟨hcurrent, s₁, s₂, harm₁, harm₂, rfl, rfl⟩ := merge_eq_ok h
  have hdraw : s.draw.Fresh := hs.of_ids_eq rfl (Supply.le_dropInstr _)
  have hopen : ∀ recorder, ((s.draw.split condition).withPhis recorder).Fresh := fun _ =>
    hdraw.split.of_ids_eq rfl (le_refl _)
  have hempty : ∀ k < 3, (s.draw.split condition).block? (s.later k) = some (.empty (s.later k)) := by
    intro k hk
    obtain hk | rfl : k < 2 ∨ k = 2 := by omega
    · exact hdraw.block?_split_arm hcurrent hk
    · exact hdraw.block?_split_join hcurrent
  obtain ⟨hfresh₁, _, hothers₁⟩ := arm_others hfirst (hopen _) harm₁
  obtain ⟨_, _, hothers⟩ := arms_others hfirst hsecond (hopen _) harm₁ harm₂
  have hjoin : s₂.block? (s.later 2) = some (.empty (s.later 2)) := by
    have hmem := Builder.mem_ids_of_block? (hempty 2 (by omega))
    rw [hothers _ hmem (by simp [Builder.later]) (by simp [Builder.later])]
    exact hempty 2 (by omega)
  have hfirstArm : (s.draw.split condition).block? (s.firstArm trueFirst) = some (.empty (s.firstArm trueFirst)) := by
    cases trueFirst
    exacts [hempty 1 (by omega), hempty 0 (by omega)]
  have hotherArm : s₁.block? (s.otherArm trueFirst) = some (.empty (s.otherArm trueFirst)) := by
    have hsplit : (s.draw.split condition).block? (s.otherArm trueFirst) = some (.empty (s.otherArm trueFirst)) := by
      cases trueFirst
      exacts [hempty 0 (by omega), hempty 1 (by omega)]
    have hne : s.otherArm trueFirst ≠ s.firstArm trueFirst := by
      cases trueFirst <;> simp [Builder.otherArm, Builder.firstArm, Builder.later]
    rw [hothers₁ _ (Builder.mem_ids_of_block? hsplit) hne]
    exact hsplit
  obtain ⟨v₁, t₁, hrun₁, hleaves₁⟩ := arm_eq_ok harm₁
  obtain ⟨v₂, t₂, hrun₂, hleaves₂⟩ := arm_eq_ok harm₂
  exact ⟨v₁, t₁, s₁, v₂, t₂, s₂, ⟨hdraw.split.of_ids_eq rfl (le_refl _), hfirstArm, hrun₁⟩, hleaves₁,
    ⟨hfresh₁.of_ids_eq rfl (le_refl _), hotherArm, hrun₂⟩, hleaves₂, hjoin, rfl, rfl⟩

end Build

namespace Effects

section

variable {V W : Type u} {I : Effects V W} {s : Builder} {code : BlockId → Option Block} {m : Memory V W} {x : V}

theorem spot_of_empty {id : BlockId} (h : s.At (.empty id)) (m : Memory V W) : spot s m = ⟨id, 0, m⟩ := by
  rw [spot_eq h, ← Builder.block?_id h]
  rfl

theorem reaches_openMerge {condition : Operand} {trueFirst : Bool} (hgoes : s.GoesOn)
    (hcode : Extends (s.openMerge condition trueFirst).block? code) (hx : m.read I condition = some x) :
    Reaches I code (spot s m)
      ⟨if I.truthy x = trueFirst then s.firstArm trueFirst else s.otherArm trueFirst, 0, m⟩ := by
  obtain ⟨b, hat, _⟩ := hgoes
  have hlinked : code s.current = some ⟨b.id, b.instrs ++ [⟨s.draw.supply.nextInstr, .branch, [condition], none⟩],
      [s.later 0, s.later 1]⟩ :=
    hcode.linked (Builder.At_link (Builder.At_alloc (Builder.At_alloc (Builder.At_alloc
      (Builder.At_emit (s := s.draw) hat))))) (List.cons_ne_nil _ _)
  have harm : (if I.truthy x = trueFirst then s.firstArm trueFirst else s.otherArm trueFirst) =
      if I.truthy x then s.later 0 else s.later 1 := by
    cases trueFirst <;> cases I.truthy x <;> rfl
  rw [spot_eq hat, harm]
  exact .single (step_branch hlinked List.getElem?_concat_length rfl rfl rfl hx)

theorem reaches_join {phi : InstrId} {join : BlockId} {value : Operand} {t : Builder} (hgoes : s.GoesOn)
    (hleaves : s.Leaves phi join value t) (hcode : Extends t.block? code) (hx : m.read I value = some x) :
    Reaches I code (spot s m) ⟨join, 0, { m with delivered := Function.update m.delivered phi x }⟩ := by
  obtain ⟨b, hat, _⟩ := hgoes
  obtain ⟨recorder, rfl⟩ := hleaves
  have hlinked : code s.current = some
      ⟨b.id, b.instrs ++ [⟨s.supply.nextInstr, .toPhi, [.instr phi, value], none⟩], [join]⟩ :=
    hcode.linked (Builder.At_link (Builder.At_emit (s := s.withPhis recorder) hat)) (List.cons_ne_nil _ _)
  have hperform : m.perform I ⟨s.supply.nextInstr, .toPhi, [.instr phi, value], none⟩ =
      some { m with delivered := Function.update m.delivered phi x } := by
    simp only [Memory.perform, hx, Option.map_some]
  rw [spot_eq hat]
  refine .head (step_plain hlinked List.getElem?_concat_length (by simp) hperform) (.single (step_jump hlinked ?_ rfl))
  rw [List.length_append]
  exact Nat.le_refl _

theorem reaches_place {phi : InstrId} {join : BlockId} (h : s.block? join = some (.empty join))
    (hcode : Extends (s.place phi join).block? code) :
    Reaches I code ⟨join, 0, m⟩
      (spot (s.place phi join) (m.keep ⟨phi, .phi, [], none⟩ (m.delivered phi, m.world))) := by
  have hat := @Builder.At_place _ _ phi h
  obtain ⟨b', hb', hi⟩ := hcode.instr hat List.getElem?_cons_zero
  rw [spot_eq hat]
  exact .single (step_plain hb' hi (by simp) rfl)

/-- An arm that has been run ends in the phi, wherever the join was when its phi was placed. -/
theorem carries_phi {t u u' : Builder} {join : BlockId} {w : Operand} {m' : Memory V W}
    (hcontinues : Continues s (u'.place s.supply.nextInstr join)) (hsupply : s.supply.dropInstr ≤ u'.supply)
    (hgrows : Extends s.block? (u'.place s.supply.nextInstr join).block?)
    (hjoin : u'.block? join = some (.empty join)) (hgoes : t.GoesOn) (hleaves : t.Leaves s.supply.nextInstr join w u)
    (hafter : Extends u.block? (u'.place s.supply.nextInstr join).block?)
    (hreaches : ∀ {code}, Extends (u'.place s.supply.nextInstr join).block? code →
      Reaches I code (spot s m) (spot t m'))
    (hagree : m.AgreeBelow s.supply.instrs m') (hx : m'.read I w = some x) :
    ∃ m'', Carries I s m (u'.place s.supply.nextInstr join) m'' ∧ m''.stack = m'.stack ∧ m''.world = m'.world ∧
      m''.Lasting (u'.place s.supply.nextInstr join).supply.instrs (Reads I (.instr s.supply.nextInstr) x) := by
  refine ⟨_, ⟨hcontinues, s.supply.le_dropInstr.trans hsupply, hgrows, fun hcode => (hreaches hcode).trans
    ((reaches_join hgoes hleaves (hafter.trans hcode) hx).trans (reaches_place hjoin hcode)), ?_⟩, rfl, rfl, ?_⟩
  · exact hagree.trans (Memory.AgreeBelow.keep
      (m := { m' with delivered := Function.update m'.delivered s.supply.nextInstr x }) rfl (Nat.le_refl _))
  · refine Reads.lasting ((Function.update_self _ _ _).trans (Function.update_self _ _ _)) ?_
    exact Nat.lt_of_lt_of_le (Nat.lt_succ_self _) hsupply.1

variable {locals : String → V} {K : Memory V W → Prop}

/-- A merge has the effects of one of its arms. -/
theorem performs_merge {condition : Operand} {trueFirst : Bool} {first second : Build Operand}
    {effect₁ effect₂ : StateM W V} (hcondition : Knows locals K (Reads I condition x))
    (hfirst : Performs I locals K first effect₁ (Reads I)) (hsecond : Performs I locals K second effect₂ (Reads I))
    (hevaluates₁ : Evaluates first) (hevaluates₂ : Evaluates second) :
    Performs I locals K (merge condition trueFirst first second)
      (if I.truthy x = trueFirst then effect₁ else effect₂) (Reads I) := by
  intro s v t m rest hs hgoes h hlocals hstack hK
  have hcontinues := (evaluates_merge hevaluates₁ hevaluates₂).continues s v t hs h
  obtain ⟨v₁, t₁, u₁, v₂, t₂, u₂, harm₁, hleaves₁, harm₂, hleaves₂, hjoin, rfl, rfl⟩ :=
    merge_runs hevaluates₁ hevaluates₂ hs h
  have hsupply₁ : s.supply.dropInstr ≤ (s.openMerge condition trueFirst).supply := Builder.supply_le_openMerge
  have hle₁ := s.supply.le_dropInstr.trans hsupply₁
  obtain ⟨m₁, hcarries₁, hstack₁, hworld₁, hgives₁⟩ := hfirst harm₁.fresh harm₁.goesOn harm₁.run hlocals hstack
    (hK.later (.refl _ m) hle₁.1)
  have hgoes₁ := hcarries₁.continues.goesOn harm₁.goesOn
  have hsupply₂ := hsupply₁.trans (hcarries₁.supply.trans hleaves₁.supply)
  have hle₂ := s.supply.le_dropInstr.trans hsupply₂
  obtain ⟨m₂, hcarries₂, hstack₂, hworld₂, hgives₂⟩ := hsecond harm₂.fresh harm₂.goesOn harm₂.run hlocals hstack
    (hK.later (.refl _ m) hle₂.1)
  have hgoes₂ := hcarries₂.continues.goesOn harm₂.goesOn
  have hsupply : s.supply.dropInstr ≤ u₂.supply := hsupply₂.trans (hcarries₂.supply.trans hleaves₂.supply)
  -- What is put down in between, from the last to the first.
  have hplace := @Builder.extends_place _ _ s.supply.nextInstr hjoin
  have hafter₂ := (hleaves₂.grows hgoes₂).trans hplace
  have hother : Extends u₁.block? _ := hcarries₂.grows.trans hafter₂
  have hafter₁ := (hleaves₁.grows hgoes₁).trans hother
  have hopened := hcarries₁.grows.trans hafter₁
  have hgrows : Extends s.block? (u₂.place s.supply.nextInstr (s.later 2)).block? := by
    obtain ⟨b, hat, hsuccs, _⟩ := hgoes
    exact (Builder.extends_openMerge ⟨b, hat, hsuccs⟩).trans hopened
  have hbranch : ∀ {code}, Extends (u₂.place s.supply.nextInstr (s.later 2)).block? code → Reaches I code (spot s m)
      ⟨if I.truthy x = trueFirst then s.firstArm trueFirst else s.otherArm trueFirst, 0, m⟩ := fun hcode =>
    reaches_openMerge hgoes (hopened.trans hcode) (hcondition m hlocals hK.now)
  by_cases htest : I.truthy x = trueFirst
  · simp only [if_pos htest, ← spot_of_empty harm₁.empty] at hbranch ⊢
    obtain ⟨m', hcarries, hstack', hworld', hreads⟩ := carries_phi hcontinues hsupply hgrows hjoin hgoes₁ hleaves₁
      hother (fun hcode => (hbranch hcode).trans (hcarries₁.reaches (hafter₁.trans hcode)))
      (hcarries₁.agree.mono hle₁.1) hgives₁.now
    exact ⟨m', hcarries, hstack'.trans hstack₁, hworld'.trans hworld₁, hreads⟩
  · simp only [if_neg htest, ← spot_of_empty harm₂.empty] at hbranch ⊢
    obtain ⟨m', hcarries, hstack', hworld', hreads⟩ := carries_phi hcontinues hsupply hgrows hjoin hgoes₂ hleaves₂
      hplace (fun hcode => (hbranch hcode).trans (hcarries₂.reaches (hafter₂.trans hcode)))
      (hcarries₂.agree.mono hle₂.1) hgives₂.now
    exact ⟨m', hcarries, hstack'.trans hstack₂, hworld'.trans hworld₂, hreads⟩

end

end Effects

end ScriptSsa
