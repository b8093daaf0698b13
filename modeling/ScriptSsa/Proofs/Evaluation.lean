import ScriptSsa.Proofs.CodeRules
import ScriptSsa.Proofs.Growth
import ScriptSsa.Proofs.Semantics

/-!
Code computes values.

`Runs W K m update gives` says what code does when it is run. It starts with a memory that matches a store and
with known operands, each of which reads as a value that depends on the store alone; it ends with a memory that
matches the updated store, and with the operands it gives. The rules follow the way steps are put together.
-/

namespace ScriptSsa

open Build

/-- What a run is compared against: the meaning of operators, the names that are locals, and the globals as
they were at the start. -/
structure Setup (V : Type*) where
  interp : Interp V
  declared : List String
  globals : String → V

variable {V : Type*}

/-- The memory holds what the store says of each name. -/
structure Setup.Matches (W : Setup V) (store : String → V) (m : Memory V) : Prop where
  locals : m.locals = fun name => if name ∈ W.declared then some (store name) else none
  globals : m.globals = fun name => if name ∈ W.declared then W.globals name else store name

/-- The store after a value is bound to a name, if there is one. -/
def bound (target : Option String) (value : (String → V) → V) (store : String → V) : String → V :=
  target.elim store fun name => Function.update store name (value store)

namespace Memory

/-- The two memories hold the same values for the ids up to `n`. -/
def AgreeBelow (n : Nat) (m m' : Memory V) : Prop := ∀ id : InstrId, id.index < n → m'.values id = m.values id

theorem AgreeBelow.trans {n k : Nat} {m m' m'' : Memory V} (h : m.AgreeBelow n m') (h' : m'.AgreeBelow k m'')
    (hle : n ≤ k) : m.AgreeBelow n m'' :=
  fun id hid => (h' id (Nat.lt_of_lt_of_le hid hle)).trans (h id hid)

theorem AgreeBelow.mono {n k : Nat} {m m' : Memory V} (h : m.AgreeBelow k m') (hle : n ≤ k) : m.AgreeBelow n m' :=
  fun id hid => h id (Nat.lt_of_lt_of_le hid hle)

theorem AgreeBelow.keep {n : Nat} {m : Memory V} {i : Instr} {v : V} (h : n ≤ i.id.index) :
    m.AgreeBelow n (m.keep i v) := by
  intro id hid
  have hne : id ≠ i.id := by
    rintro rfl
    omega
  exact Function.update_of_ne hne _ _

theorem read_eq {I : Interp V} {m m' : Memory V} {supply : Supply} {o : Operand} (hlocals : m'.locals = m.locals)
    (hagree : m.AgreeBelow supply.instrs m') (ho : o.HeldIn supply.drawn) : m'.read I o = m.read I o := by
  cases o with
  | instr id => exact hagree id ho
  | localVar name => exact congrFun hlocals name
  | constant | count | block => rfl

theorem read_keep {I : Interp V} {m : Memory V} {i : Instr} {v : V} :
    (m.keep i v).read I (i.binding.elim (.instr i.id) .localVar) = some v := by
  cases hbinding : i.binding with
  | none => exact Function.update_self _ _ _
  | some name =>
      simp only [Option.elim_some, read, keep, hbinding]
      exact Function.update_self _ _ _

theorem perform_of_yields {I : Interp V} {m : Memory V} {i : Instr} {v : V} (hyields : i.opcode.yieldsValue = true)
    (h : m.result I i = some v) : m.perform I i = some (m.keep i v) := by
  rw [perform]
  split
  · next hop _ => rw [hop] at hyields; cases hyields
  · next hop _ => rw [hop] at hyields; cases hyields
  · rw [h, Option.map_some]

end Memory

namespace Setup.Matches

variable {W : Setup V} {store : String → V} {m : Memory V}

theorem keep {id : InstrId} {opcode : Opcode} {operands : List Operand} {target : Option String}
    {value : (String → V) → V} (h : W.Matches store m) (htarget : ∀ name ∈ target, name ∈ W.declared) :
    W.Matches (bound target value store) (m.keep ⟨id, opcode, operands, target⟩ (value store)) := by
  cases target with
  | none => exact ⟨h.locals, h.globals⟩
  | some name =>
      have hname : name ∈ W.declared := htarget name rfl
      refine ⟨?_, h.globals.trans ?_⟩
      · change Function.update m.locals name (some (value store)) = _
        rw [h.locals]
        funext other
        by_cases hother : other = name
        · subst hother
          simp [bound, hname]
        · simp [bound, hother]
      · funext other
        by_cases hother : other = name
        · subst hother
          simp [hname]
        · simp [bound, hother]

theorem storeGlobal {name : String} {v : V} (h : W.Matches store m) (hname : name ∉ W.declared) :
    W.Matches (Function.update store name v) { m with globals := Function.update m.globals name v } := by
  refine ⟨h.locals.trans ?_, ?_⟩
  · funext other
    by_cases hother : other = name
    · subst hother
      simp [hname]
    · simp [hother]
  · change Function.update m.globals name v = _
    rw [h.globals]
    funext other
    by_cases hother : other = name
    · subst hother
      simp [hname]
    · simp [hother]

/-- Two memories that match one store read alike what was drawn before they parted. -/
theorem read_eq {m' : Memory V} {supply : Supply} {o : Operand} (h : W.Matches store m) (h' : W.Matches store m')
    (hagree : m.AgreeBelow supply.instrs m') (ho : o.HeldIn supply.drawn) :
    m'.read W.interp o = m.read W.interp o :=
  Memory.read_eq (h'.locals.trans h.locals.symm) hagree ho

end Setup.Matches

/-- Operands, each with the value it reads as in a given store. -/
abbrev Known (V : Type*) := List (Operand × ((String → V) → V))

namespace Known

/-- The operands are values in reach. -/
def HeldIn (K : Known V) (held : Set InstrId) : Prop := ∀ k ∈ K, k.1.HeldIn held

def Reads (W : Setup V) (K : Known V) (store : String → V) (m : Memory V) : Prop :=
  ∀ k ∈ K, m.read W.interp k.1 = some (k.2 store)

theorem heldIn_singleton {v : Operand} {value : (String → V) → V} {held : Set InstrId} :
    HeldIn [(v, value)] held ↔ v.HeldIn held := by
  simp [HeldIn]

theorem reads_singleton {W : Setup V} {v : Operand} {value : (String → V) → V} {store : String → V}
    {m : Memory V} : Reads W [(v, value)] store m ↔ m.read W.interp v = some (value store) := by
  simp [Reads]

theorem HeldIn.mono {K : Known V} {held held' : Set InstrId} (hsub : held ⊆ held') (h : K.HeldIn held) :
    K.HeldIn held' :=
  fun k hk => (h k hk).mono hsub

theorem HeldIn.append {K K' : Known V} {held : Set InstrId} (h : K.HeldIn held) (h' : K'.HeldIn held) :
    HeldIn (K ++ K') held :=
  fun k hk => (List.mem_append.mp hk).elim (h k) (h' k)

end Known

/-- The code that has been put down between `s` and `t` turns a store into the updated one. -/
structure Executes (W : Setup V) (K : Known V) (update : (String → V) → String → V) (gives : Known V)
    (s t : Builder) : Prop where
  grows : Extends s.block? t.block?
  /-- No graph is queued. -/
  queue : t.finished = s.finished
  reaches : ∀ {code}, Extends t.block? code → ∀ {store m}, W.Matches store m → K.Reads W store m →
    ∃ m', Reaches W.interp code (s.here m) (t.here m') ∧ m.AgreeBelow s.supply.instrs m' ∧
      W.Matches (update store) m' ∧ gives.Reads W store m'

/-- The code runs, wherever it is put down. -/
structure Runs {α : Type} (W : Setup V) (K : Known V) (m : Build α) (update : (String → V) → String → V)
    (gives : α → Known V) : Prop where
  isCode : ∀ {held}, K.HeldIn held → IsCode (fun _ => True) held m fun a held' => (gives a).HeldIn held'
  run : ∀ {s a t}, Stage.code.Ready s → K.HeldIn s.supply.drawn → m s = .ok a t →
    Executes W K update (gives a) s t

/-- The code computes a value and binds it to a name, if there is one. -/
abbrev Computes (W : Setup V) (K : Known V) (target : Option String) (m : Build Operand)
    (value : (String → V) → V) : Prop :=
  Runs W K m (bound target value) fun v => [(v, value)]

namespace Runs

variable {α β : Type} {W : Setup V} {K : Known V} {m : Build α} {f : α → Build β}
  {update update' : (String → V) → String → V} {gives : α → Known V} {gives' : β → Known V}

/-- What a run leaves behind beside its effect. -/
theorem trace {s t : Builder} {a : α} (h : Runs W K m update gives) (hs : Stage.code.Ready s)
    (hK : K.HeldIn s.supply.drawn) (hm : m s = .ok a t) :
    Stage.code.Ready t ∧ s.supply ≤ t.supply ∧ (gives a ++ K).HeldIn t.supply.drawn := by
  obtain ⟨held', hsub, hgives, htrace⟩ := (h.isCode hK s hs).ok hm
  have hdrawn := htrace.held_drawn subset_rfl
  exact ⟨htrace.ready hs, htrace.supply_le, (hgives.mono hdrawn).append (hK.mono (hsub.trans hdrawn))⟩

theorem pure {a : α} (hheld : ∀ {held}, K.HeldIn held → (gives a).HeldIn held)
    (hreads : ∀ {store m}, W.Matches store m → K.Reads W store m → (gives a).Reads W store m) :
    Runs W K (Pure.pure a) id gives where
  isCode hK := .pure (hheld hK)
  run {s _ _} _ _ h := by
    cases h
    exact ⟨.refl _, rfl, fun _ _ m hmatch hK => ⟨m, .refl _, fun _ _ => rfl, hmatch, hreads hmatch hK⟩⟩

/-- Code that leaves the store alone, and then code that uses what it gives. -/
theorem bind (hm : Runs W K m id gives) (hf : ∀ a, Runs W (gives a ++ K) (f a) update gives') :
    Runs W K (m >>= f) update gives' where
  isCode hK := (hm.isCode hK).bind fun a _ hsub hgives => (hf a).isCode (hgives.append (hK.mono hsub))
  run {s r u} hs hK h := by
    obtain ⟨a, t, hma, hfa⟩ := bind_eq_ok h
    obtain ⟨ht, hsupply, hK'⟩ := hm.trace hs hK hma
    have h₁ := hm.run hs hK hma
    have h₂ := (hf a).run ht hK' hfa
    refine ⟨h₁.grows.trans h₂.grows, h₂.queue.trans h₁.queue, fun hcode store m hmatch hreads => ?_⟩
    obtain ⟨m₁, hreach₁, hagree₁, hmatch₁, hgives⟩ := h₁.reaches (h₂.grows.trans hcode) hmatch hreads
    have hreads₁ : (gives a ++ K).Reads W store m₁ := by
      intro k hk
      rcases List.mem_append.mp hk with hk | hk
      · exact hgives k hk
      · rw [hmatch.read_eq hmatch₁ hagree₁ (hK k hk)]
        exact hreads k hk
    obtain ⟨m₂, hreach₂, hagree₂, hmatch₂, hgives'⟩ := h₂.reaches hcode hmatch₁ hreads₁
    exact ⟨m₂, hreach₁.trans hreach₂, hagree₁.trans hagree₂ hsupply.1, hmatch₂, hgives'⟩

/-- Code one after the other, where the second starts anew. -/
theorem seq (hm : Runs W K m update gives) (hf : ∀ a, Runs W [] (f a) update' fun _ => []) :
    Runs W K (m >>= f) (update' ∘ update) fun _ => [] where
  isCode hK := (hm.isCode hK).bind fun a _ _ _ => (hf a).isCode fun _ h => nomatch h
  run {s r u} hs hK h := by
    obtain ⟨a, t, hma, hfa⟩ := bind_eq_ok h
    obtain ⟨ht, hsupply, _⟩ := hm.trace hs hK hma
    have h₁ := hm.run hs hK hma
    have h₂ := (hf a).run ht (fun _ h => nomatch h) hfa
    refine ⟨h₁.grows.trans h₂.grows, h₂.queue.trans h₁.queue, fun hcode store m hmatch hreads => ?_⟩
    obtain ⟨m₁, hreach₁, hagree₁, hmatch₁, _⟩ := h₁.reaches (h₂.grows.trans hcode) hmatch hreads
    obtain ⟨m₂, hreach₂, hagree₂, hmatch₂, _⟩ := h₂.reaches hcode hmatch₁ fun _ h => nomatch h
    exact ⟨m₂, hreach₁.trans hreach₂, hagree₁.trans hagree₂ hsupply.1, hmatch₂, fun _ h => nomatch h⟩

/-- An id is drawn first, for something that is no instruction. -/
theorem draw {a : α} (hm : ∀ s, m s = .ok a s.draw) (hf : Runs W K (f a) update gives') :
    Runs W K (m >>= f) update gives' where
  isCode {held} hK := by
    have hdraw : IsCode (fun _ => True) held m fun a' _ => a' = a := isCode_draw hm rfl
    exact hdraw.bind fun _ _ hsub heq => heq ▸ hf.isCode (hK.mono hsub)
  run {s r u} hs hK h := by
    rw [bind_ok (hm s)] at h
    have hdraw : Trace .code ∅ s ∅ s.draw := .draw
    have hrun := hf.run (hdraw.ready hs) (hK.mono (Supply.drawn_mono hdraw.supply_le)) h
    refine ⟨hrun.grows, hrun.queue, fun hcode store m hmatch hreads => ?_⟩
    obtain ⟨m', hreach, hagree, hrest⟩ := hrun.reaches hcode hmatch hreads
    exact ⟨m', hreach, fun id hid => hagree id (Nat.lt_succ_of_lt hid), hrest⟩

theorem fail {e : BuildError} : Runs W K (Build.fail e : Build α) update gives where
  isCode _ := .fail trivial
  run _ _ h := nomatch h

theorem forget (h : Runs W K m update gives) : Runs W K m update fun _ => [] where
  isCode hK := (h.isCode hK).mono fun _ _ _ _ h => nomatch h
  run hs hK hm := by
    have hrun := h.run hs hK hm
    refine ⟨hrun.grows, hrun.queue, fun hcode store m hmatch hreads => ?_⟩
    obtain ⟨m', hreach, hagree, hmatch', _⟩ := hrun.reaches hcode hmatch hreads
    exact ⟨m', hreach, hagree, hmatch', fun _ h => nomatch h⟩

theorem skip {a : α} : Runs W K (Pure.pure a) id fun _ => [] :=
  .pure (fun _ _ h => nomatch h) fun _ _ _ h => nomatch h

end Runs

/-- Binds a value to a name, if there is one, and gives what stands for the value then. -/
def Build.bindTo (target : Option String) (value : Operand) : Build Operand :=
  match target with
  | none => return value
  | some name => do
    bindLocal name value
    return .localVar name

theorem Build.bind_bindTo_none (m : Build Operand) : m >>= bindTo none = m := bind_pure m

theorem isCode_bindTo {E : BuildError → Prop} {held : Set InstrId} {target : Option String} {value : Operand}
    (hvalue : value.HeldIn held) : IsCode E held (bindTo target value) Value := by
  cases target with
  | none => exact .pure hvalue
  | some name => exact (isCode_bindLocal hvalue).bind fun _ _ _ _ => .pure trivial

section Computes

variable {W : Setup V} {K : Known V} {target : Option String} {value : (String → V) → V} {held : Set InstrId}
  {m : Build Operand}

theorem isCode_known (h : IsCode (fun _ => True) held m Value) :
    IsCode (fun _ => True) held m fun v held' => Known.HeldIn [(v, value)] held' :=
  h.mono fun _ _ hv => Known.heldIn_singleton.mpr hv

theorem isCode_of_computes (h : Computes W K target m value) (hK : K.HeldIn held) :
    IsCode (fun _ => True) held m Value :=
  (h.isCode hK).mono fun _ _ hv => Known.heldIn_singleton.mp hv

/-- An instruction yields a value, and takes the name as its binding. -/
theorem computes_emit {opcode : Opcode} {operands : List Operand} (hplain : opcode.isPlain = true)
    (hyields : opcode.yieldsValue = true) (htarget : ∀ name ∈ target, name ∈ W.declared)
    (hheld : ∀ {held}, K.HeldIn held → Values operands held)
    (hresult : ∀ {store m i}, W.Matches store m → K.Reads W store m → i.opcode = opcode → i.operands = operands →
      m.result W.interp i = some (value store)) :
    Computes W K target (emit opcode operands >>= bindTo target) value where
  isCode hK := isCode_known ((isCode_emit hplain hyields (hheld hK)).bind fun _ _ _ hv => isCode_bindTo hv)
  run {s v t} hs hK h := by
    obtain ⟨hopen, pending, hsound⟩ := hs
    obtain ⟨b, hat, hb⟩ := hopen
    have hphi : opcode ≠ .phi := by
      rintro rfl
      cases hplain
    have hemit : (emit opcode operands >>= bindTo target) s =
        .ok (target.elim (.instr s.supply.nextInstr) .localVar) (s.emit target opcode operands) := by
      rw [bind_ok (emit_eq hat)]
      cases target with
      | none => rfl
      | some name =>
          rw [bindTo, bind_ok (bindLocal_eq (Builder.At_emit hat)),
            Builder.bindLocal_emit hsound.nodup hat hyields hphi]
          rfl
    rw [hemit] at h
    cases h
    refine ⟨Builder.extends_emit ⟨b, hat, hb.succs⟩, rfl, fun hcode store m hmatch hreads => ?_⟩
    have hperform := Memory.perform_of_yields hyields
      (hresult (i := ⟨s.supply.nextInstr, opcode, operands, target⟩) hmatch hreads rfl rfl)
    refine ⟨_, Builder.reaches_emit hat ?_ ?_ hcode hperform, .keep (Nat.le_refl _), hmatch.keep htarget, ?_⟩
    · rintro rfl
      cases hplain
    · rintro rfl
      cases hplain
    · exact Known.reads_singleton.mpr Memory.read_keep

/-- A value that no instruction has just produced goes through a `nop` into the name. -/
theorem computes_nop (h : Computes W K none m value)
    (htarget : ∀ name ∈ target, name ∈ W.declared)
    (hnop : ∀ {s v t name}, Stage.code.Ready s → K.HeldIn s.supply.drawn → m s = .ok v t →
      t.bindLocal name v = t.emit (some name) .nop [v]) :
    Computes W K target (m >>= bindTo target) value := by
  cases target with
  | none =>
      rw [bind_bindTo_none]
      exact h
  | some name =>
      refine ⟨fun hK => ?_, fun {s v t} hs hK hrun => ?_⟩
      · exact isCode_known ((isCode_of_computes h hK).bind fun _ _ _ hv => isCode_bindTo hv)
      · obtain ⟨v, t, hv, hbind⟩ := bind_eq_ok hrun
        obtain ⟨ht, hsupply, _⟩ := h.trace hs hK hv
        obtain ⟨b, hat, hb⟩ := ht.1
        rw [bindTo, bind_ok (bindLocal_eq hat), hnop hs hK hv] at hbind
        cases hbind
        have hrun := h.run hs hK hv
        have hemit := @Builder.extends_emit t (some name) .nop [v] ⟨b, hat, hb.succs⟩
        refine ⟨hrun.grows.trans hemit, hrun.queue, fun hcode store m hmatch hreads => ?_⟩
        obtain ⟨m', hreach, hagree, hmatch', hread⟩ := hrun.reaches (hemit.trans hcode) hmatch hreads
        have hperform := Memory.perform_of_yields (i := ⟨t.supply.nextInstr, .nop, [v], some name⟩) rfl
          (Known.reads_singleton.mp hread)
        exact ⟨_, hreach.trans (Builder.reaches_emit hat nofun nofun hcode hperform),
          hagree.trans (.keep (Nat.le_refl _)) hsupply.1, hmatch'.keep htarget,
          Known.reads_singleton.mpr Memory.read_keep⟩

/-- The arm that the condition selects gives the value of a merge. -/
theorem computes_merge {condition : Operand} {test value₁ value₂ : (String → V) → V} {trueFirst : Bool}
    {first second : Build Operand} (hcondition : (condition, test) ∈ K) (hfirst : Computes W K none first value₁)
    (hsecond : Computes W K none second value₂) :
    Computes W K none (merge condition trueFirst first second) fun store =>
      if W.interp.truthy (test store) = trueFirst then value₁ store else value₂ store where
  isCode hK := isCode_known
    (isCode_merge (hK _ hcondition) (isCode_of_computes hfirst hK) (isCode_of_computes hsecond hK))
  run {s v t} hs hK h := by
    obtain ⟨held₁, v₁, s₁, e₁, held₂, v₂, s₂, e₂, hran₁, _, hran₂, _, hjoin, rfl, rfl⟩ :=
      (merge_ran hs (isCode_of_computes hfirst hK) (isCode_of_computes hsecond hK)).ok h
    obtain ⟨hopen, pending, hsound⟩ := hs
    obtain ⟨hsound₀, hat₀⟩ := @Sound.openMerge _ _ condition trueFirst hsound hopen
    obtain ⟨hsound₁, hopen₁⟩ := hsound.firstArm hopen hran₁.trace.keeps
    obtain ⟨hsound₁', hat₁⟩ := @Sound.nextArm _ _ s.supply.nextInstr _ _ e₁ v₁ hsound₁ hopen₁
    obtain ⟨hsound₂, hopen₂⟩ := hsound₁.secondArm hopen₁ hran₂.trace.keeps
    have hle₀ : s.supply ≤ (s.openMerge condition trueFirst).supply :=
      s.supply.le_dropInstr.trans Builder.supply_le_openMerge
    have hle₁ : s.supply ≤ s₁.supply.dropInstr :=
      hle₀.trans (hran₁.trace.supply_le.trans (Supply.le_dropInstr _))
    have hrun₁ := hfirst.run ⟨Builder.isOpen_of_empty hat₀, _ :: _ :: pending, hsound₀⟩
      (hK.mono (Supply.drawn_mono hle₀)) hran₁.eq
    have hrun₂ := hsecond.run ⟨Builder.isOpen_of_empty hat₁, _ :: pending, hsound₁'⟩
      (hK.mono (Supply.drawn_mono hle₁)) hran₂.eq
    -- What is put down in between, from the last to the first.
    have hplace := @Builder.extends_place _ _ s.supply.nextInstr hjoin
    have hdeliver₂ := (Builder.extends_deliver hopen₂.unlinked).trans hplace
    have hafter₁ := (Builder.extends_deliver hopen₁.unlinked).trans (hrun₂.grows.trans hdeliver₂)
    refine ⟨(Builder.extends_openMerge hopen.unlinked).trans (hrun₁.grows.trans hafter₁),
      hrun₂.queue.trans hrun₁.queue, fun {code} hcode store m hmatch hreads => ?_⟩
    obtain ⟨b, hat, _⟩ := hopen
    have hbranch := Builder.reaches_openMerge hat (hrun₁.grows.trans (hafter₁.trans hcode))
      (hreads _ hcondition)
    -- Both arms end in the phi.
    suffices harm : ∃ (u : Builder) (w : Operand) (e : Phi.Entry) (m₁ : Memory V), u.IsOpen ∧
        Extends (u.deliver s.supply.nextInstr (s.later 2) e w).block? code ∧
        Reaches W.interp code (s.here m) (u.here m₁) ∧ m.AgreeBelow s.supply.instrs m₁ ∧ W.Matches store m₁ ∧
        m₁.read W.interp w =
          some (if W.interp.truthy (test store) = trueFirst then value₁ store else value₂ store) by
      obtain ⟨u, w, e, m₁, ⟨c, hatu, _⟩, hdeliver, hreach, hagree, hmatch₁, hread⟩ := harm
      exact ⟨_, hreach.trans (Builder.reaches_phi hatu hdeliver hread hjoin hcode),
        hagree.trans (.keep (Nat.le_refl _)) (Nat.le_refl _), ⟨hmatch₁.locals, hmatch₁.globals⟩,
        Known.reads_singleton.mpr (Function.update_self _ _ _)⟩
    by_cases htest : W.interp.truthy (test store) = trueFirst
    · rw [if_pos htest, ← Builder.here_of_empty hat₀] at hbranch
      obtain ⟨m₁, hreach₁, hagree₁, hmatch₁, hread₁⟩ := hrun₁.reaches (hafter₁.trans hcode) hmatch hreads
      rw [if_pos htest]
      exact ⟨s₁, v₁, e₁, m₁, hopen₁, hrun₂.grows.trans (hdeliver₂.trans hcode), hbranch.trans hreach₁,
        hagree₁.mono hle₀.1, hmatch₁, Known.reads_singleton.mp hread₁⟩
    · rw [if_neg htest, ← Builder.here_of_empty hat₁] at hbranch
      obtain ⟨m₂, hreach₂, hagree₂, hmatch₂, hread₂⟩ := hrun₂.reaches (hdeliver₂.trans hcode) hmatch hreads
      rw [if_neg htest]
      exact ⟨s₂, v₂, e₂, m₂, hopen₂, hplace.trans hcode, hbranch.trans hreach₂, hagree₂.mono hle₁.1, hmatch₂,
        Known.reads_singleton.mp hread₂⟩

/-- The value of a merge goes through a `nop` into the name: a phi takes no binding. -/
theorem computes_merge_bindTo {condition : Operand} {test value₁ value₂ : (String → V) → V} {trueFirst : Bool}
    {first second : Build Operand} (hcondition : (condition, test) ∈ K) (hfirst : Computes W K none first value₁)
    (hsecond : Computes W K none second value₂) (htarget : ∀ name ∈ target, name ∈ W.declared) :
    Computes W K target (merge condition trueFirst first second >>= bindTo target) fun store =>
      if W.interp.truthy (test store) = trueFirst then value₁ store else value₂ store := by
  refine computes_nop (computes_merge hcondition hfirst hsecond) htarget fun {s v t name} hs hK h => ?_
  obtain ⟨_, _, _, _, _, _, _, _, _, _, _, _, hjoin, rfl, rfl⟩ :=
    (merge_ran hs (isCode_of_computes hfirst hK) (isCode_of_computes hsecond hK)).ok h
  refine Builder.bindLocal_nop (Builder.At_place hjoin) ?_
  simp [Block.bindLast?]

theorem computes_value (h : Computes W K none (m >>= bindTo none) value) : Computes W K none m value := by
  rwa [bind_bindTo_none] at h

theorem computes_known {v : Operand} (hv : (v, value) ∈ K) : Computes W K none (pure v) value :=
  Runs.pure (fun hK => Known.heldIn_singleton.mpr (hK _ hv)) fun _ hreads =>
    Known.reads_singleton.mpr (hreads _ hv)

theorem computes_literal {c : Constant} (htarget : ∀ name ∈ target, name ∈ W.declared) :
    Computes W K target (literal c >>= bindTo target) fun _ => W.interp.constant c := by
  rw [literal, bind_assoc]
  refine Runs.draw (fun _ => rfl) (computes_emit rfl rfl htarget (fun _ => .cons trivial .nil) ?_)
  rintro store m ⟨id, opcode, operands, binding⟩ _ _ rfl rfl
  rfl

theorem computes_unary {op : UnaryOp} {v : Operand} (hv : (v, value) ∈ K)
    (htarget : ∀ name ∈ target, name ∈ W.declared) :
    Computes W K target (unary op v >>= bindTo target) fun store => W.interp.unary op (value store) := by
  rw [unary, bind_assoc]
  refine Runs.draw (fun _ => rfl)
    (computes_emit rfl rfl htarget (fun hK => .cons trivial (.cons (hK _ hv) .nil)) ?_)
  rintro store m ⟨id, opcode, operands, binding⟩ _ hreads rfl rfl
  have hread : m.read W.interp v = some (value store) := hreads _ hv
  simp only [Memory.result, UnaryOp.ofSymbol?_symbol, Option.bind_some, hread, Option.map_some]

theorem computes_binary {op : BinaryOp} {l r : Operand} {left right : (String → V) → V} (hl : (l, left) ∈ K)
    (hr : (r, right) ∈ K) (htarget : ∀ name ∈ target, name ∈ W.declared) :
    Computes W K target (binary op l r >>= bindTo target) fun store =>
      W.interp.binary op (left store) (right store) := by
  rw [binary, bind_assoc]
  refine Runs.draw (fun _ => rfl)
    (computes_emit rfl rfl htarget (fun hK => .cons trivial (.cons (hK _ hl) (.cons (hK _ hr) .nil))) ?_)
  rintro store m ⟨id, opcode, operands, binding⟩ _ hreads rfl rfl
  have hleft : m.read W.interp l = some (left store) := hreads _ hl
  have hright : m.read W.interp r = some (right store) := hreads _ hr
  simp only [Memory.result, BinaryOp.ofSymbol?_symbol, Option.bind_some, hleft, hright, Option.map_some]

/-- The left operand is the value unless its truth asks for the right one. -/
theorem computes_logical {op : LogicalOp} {left right : Build Operand} {l r : (String → V) → V}
    (hleft : Computes W K none left l) (hright : ∀ K, Computes W K none right r)
    (htarget : ∀ name ∈ target, name ∈ W.declared) :
    Computes W K target (logical op left right >>= bindTo target) fun store =>
      match op with
      | .or => if W.interp.truthy (l store) then l store else r store
      | .and => if W.interp.truthy (l store) then r store else l store := by
  have hmerge : ∀ v, Computes W ([(v, l)] ++ K) target
      (merge v (op = .or) (pure v) right >>= bindTo target) fun store =>
        if W.interp.truthy (l store) = decide (op = .or) then l store else r store := fun v =>
    computes_merge_bindTo List.mem_cons_self (computes_known List.mem_cons_self) (hright _) htarget
  rw [logical, bind_assoc]
  refine hleft.bind fun v => ?_
  cases op with
  | or => exact hmerge v
  | and =>
      have hvalue : (fun store => if W.interp.truthy (l store) then r store else l store) = fun store =>
          if W.interp.truthy (l store) = decide (LogicalOp.and = .or) then l store else r store := by
        funext store
        cases W.interp.truthy (l store) <;> rfl
      simp only [hvalue]
      exact hmerge v

theorem computes_conditional {test consequent alternate : Build Operand} {t c a : (String → V) → V}
    (htest : Computes W K none test t) (hconsequent : ∀ K, Computes W K none consequent c)
    (halternate : ∀ K, Computes W K none alternate a) (htarget : ∀ name ∈ target, name ∈ W.declared) :
    Computes W K target (conditional test consequent alternate >>= bindTo target) fun store =>
      if W.interp.truthy (t store) then c store else a store := by
  rw [conditional, bind_assoc]
  exact htest.bind fun v => computes_merge_bindTo List.mem_cons_self (hconsequent _) (halternate _) htarget

end Computes

/-- Lookup finds the declared names as locals and all others as globals. -/
def Setup.Finds (W : Setup V) (names : Names) : Prop :=
  ∀ access name, names.find access name = .ok (if name ∈ W.declared then .localVar else .global)

section Lowering

variable {W : Setup V} {names : Names}

theorem Setup.Finds.resolve_eq (h : W.Finds names) (access : Access) (name : String) :
    resolve names access name = pure (if name ∈ W.declared then .localVar else .global) := by
  funext s
  rw [resolve, h]
  rfl

theorem computes_readName {K : Known V} {target : Option String} {name : String} (hnames : W.Finds names)
    (htarget : ∀ name ∈ target, name ∈ W.declared) :
    Computes W K target (readName names name >>= bindTo target) fun store => store name := by
  rw [readName, hnames.resolve_eq, pure_bind]
  by_cases hname : name ∈ W.declared
  · simp only [if_pos hname]
    refine computes_nop ?_ htarget fun {s v t _} hs _ h => ?_
    · have hlocal : Computes W K none (pure (.localVar name)) fun store => store name := by
        refine Runs.pure (fun _ => Known.heldIn_singleton.mpr trivial) fun {store m} hmatch _ => ?_
        refine Known.reads_singleton.mpr ?_
        simp only [Memory.read, hmatch.locals, if_pos hname]
      have hdraw : ∀ s, (freshInstr >>= fun _ => pure (.localVar name)) s =
          .ok (Operand.localVar name) s.draw := fun _ => rfl
      rw [← bind_pure (freshInstr >>= fun _ => pure (Operand.localVar name))]
      exact Runs.draw hdraw hlocal
    · cases h
      obtain ⟨b, hat, _⟩ := hs.1
      exact Builder.bindLocal_nop (s := s.draw) hat (by simp [Block.bindLast?])
  · simp only [if_neg hname]
    rw [bind_assoc]
    refine Runs.draw (fun _ => rfl) (computes_emit rfl rfl htarget (fun _ => .cons trivial .nil) ?_)
    rintro store m ⟨id, opcode, operands, binding⟩ hmatch _ rfl rfl
    simp only [Memory.result, hmatch.globals, if_neg hname]

mutual

theorem lowerExpr_computes (hnames : W.Finds names) : (e : Expr) → e.isPure = true →
    ∀ (K : Known V) (target : Option String), (∀ name ∈ target, name ∈ W.declared) →
      Computes W K target (lowerExpr names e >>= bindTo target) fun store => e.value W.interp store
  | .ident name, _, K, target, htarget => by
    simp only [lowerExpr, Expr.value]
    exact computes_readName hnames htarget
  | .literal l, _, K, target, htarget => by
    simp only [lowerExpr, Expr.value]
    exact computes_literal htarget
  | .this, _, K, target, htarget => by
    simp only [lowerExpr, Expr.value]
    refine computes_emit rfl rfl htarget (fun _ => .nil) ?_
    rintro store m ⟨id, opcode, operands, binding⟩ _ _ rfl rfl
    rfl
  | .unary op argument, h, K, target, htarget => by
    rw [Expr.isPure, Bool.and_eq_true, decide_eq_true_eq] at h
    have hargument := lowerExpr_computes hnames argument h.2 K none nofun
    cases op with
    | delete => exact absurd rfl h.1
    | _ =>
        simp only [lowerExpr, Expr.value, bind_assoc]
        exact (computes_value hargument).bind fun v => computes_unary List.mem_cons_self htarget
  | .binary op left right, h, K, target, htarget => by
    rw [Expr.isPure, Bool.and_eq_true] at h
    have hleft := lowerExpr_computes hnames left h.1 K none nofun
    have hright := lowerExpr_computes hnames right h.2
    simp only [lowerExpr, Expr.value, bind_assoc]
    refine (computes_value hleft).bind fun l => (computes_value (hright _ none nofun)).bind fun r => ?_
    exact computes_binary (by simp) (by simp) htarget
  | .logical op left right, h, K, target, htarget => by
    rw [Expr.isPure, Bool.and_eq_true] at h
    have hleft := lowerExpr_computes hnames left h.1 K none nofun
    have hright := lowerExpr_computes hnames right h.2
    have hlogical := @computes_logical V W K target op _ _ _ _ (computes_value hleft)
      (fun K => computes_value (hright K none nofun)) htarget
    rw [lowerExpr]
    cases op <;> simpa only [Expr.value] using hlogical
  | .conditional test consequent alternate, h, K, target, htarget => by
    rw [Expr.isPure, Bool.and_eq_true, Bool.and_eq_true] at h
    have htest := lowerExpr_computes hnames test h.1.1 K none nofun
    have hconsequent := lowerExpr_computes hnames consequent h.1.2
    have halternate := lowerExpr_computes hnames alternate h.2
    simp only [lowerExpr, Expr.value]
    exact computes_conditional (computes_value htest) (fun K => computes_value (hconsequent K none nofun))
      (fun K => computes_value (halternate K none nofun)) htarget
  | .sequence expressions, h, K, target, htarget => by
    rw [Expr.isPure] at h
    simp only [lowerExpr, Expr.value]
    exact lowerSequence_computes hnames expressions h K target htarget

theorem lowerSequence_computes (hnames : W.Finds names) : (es : List Expr) → allPure es = true →
    ∀ (K : Known V) (target : Option String), (∀ name ∈ target, name ∈ W.declared) →
      Computes W K target (lowerSequence names es >>= bindTo target) fun store => valueOfLast W.interp store es
  | [], _, K, target, htarget => by
    simp only [lowerSequence, valueOfLast]
    exact computes_literal htarget
  | [e], h, K, target, htarget => by
    rw [allPure, Bool.and_eq_true] at h
    simp only [lowerSequence, valueOfLast]
    exact lowerExpr_computes hnames e h.1 K target htarget
  | e :: e' :: es, h, K, target, htarget => by
    rw [allPure, Bool.and_eq_true] at h
    have hfirst := lowerExpr_computes hnames e h.1 K none nofun
    have hrest := lowerSequence_computes hnames (e' :: es) h.2
    simp only [lowerSequence, valueOfLast, bind_assoc]
    exact (computes_value hfirst).bind fun v => hrest _ target htarget

end

theorem runs_storeGlobal {K : Known V} {name : String} {v : Operand} {value : (String → V) → V}
    (hname : name ∉ W.declared) (hv : (v, value) ∈ K) :
    Runs W K (perform .storeGlobal [.constant (.string name), v])
      (fun store => Function.update store name (value store)) fun _ => [] where
  isCode {held} hK := by
    have hoperands : Values [.constant (.string name), v] held := .cons trivial (.cons (hK _ hv) .nil)
    exact (isCode_perform rfl rfl hoperands).mono fun _ _ _ _ h => absurd h List.not_mem_nil
  run {s _ t} hs _ h := by
    obtain ⟨b, hat, hb⟩ := hs.1
    rw [perform_eq hat] at h
    cases h
    refine ⟨Builder.extends_emit ⟨b, hat, hb.succs⟩, rfl, fun hcode store m hmatch hreads => ?_⟩
    have hread : m.read W.interp v = some (value store) := hreads _ hv
    have hperform : m.perform W.interp
        ⟨s.supply.nextInstr, .storeGlobal, [.constant (.string name), v], none⟩ =
          some { m with globals := Function.update m.globals name (value store) } := by
      simp only [Memory.perform, hread, Option.map_some]
    exact ⟨_, Builder.reaches_emit hat (by decide) (by decide) hcode hperform, fun _ _ => rfl,
      hmatch.storeGlobal hname, fun _ h => absurd h List.not_mem_nil⟩

/-- The value of an expression goes into a name, declared or global. -/
theorem lowerExpr_writeName_runs {name : String} {e : Expr} (hnames : W.Finds names) (h : e.isPure = true) :
    Runs W [] (lowerExpr names e >>= writeName names name)
      (fun store => Function.update store name (e.value W.interp store)) fun _ => [] := by
  have hwrite : ∀ v, writeName names name v = _ := fun v => by
    rw [writeName, hnames.resolve_eq, pure_bind]
  by_cases hname : name ∈ W.declared
  · have hlocal : writeName names name = bindTo (some name) := by
      funext v
      rw [hwrite, if_pos hname]
      rfl
    rw [hlocal]
    refine (lowerExpr_computes hnames e h [] (some name) fun other hother => ?_).forget
    rwa [← Option.mem_some.mp hother]
  · refine (computes_value (lowerExpr_computes hnames e h [] none nofun)).bind fun v => ?_
    rw [hwrite, if_neg hname]
    refine Runs.draw (fun _ => rfl) ?_
    exact (runs_storeGlobal hname List.mem_cons_self).seq fun _ => .skip

theorem lowerExpr_acts (hnames : W.Finds names) {e : Expr} (h : e.isAction = true) :
    Runs W [] (lowerExpr names e) (fun store => e.act W.interp store) fun _ => [] := by
  unfold Expr.isAction at h
  split at h
  · simp only [lowerExpr, Expr.act]
    exact lowerExpr_writeName_runs hnames h
  · next hassign =>
    have hact : (fun store => e.act W.interp store) = id := by
      funext store
      unfold Expr.act
      split
      · exact (hassign _ _ rfl).elim
      · rfl
    rw [hact]
    exact (computes_value (lowerExpr_computes hnames e h [] none nofun)).forget

theorem lowerDeclarators_runs (hnames : W.Finds names) (ds : List Declarator)
    (h : ∀ d ∈ ds, (d.target.isPure && d.init.all Expr.isPure) = true) :
    Runs W [] (lowerDeclarators names ds) (fun store => ds.foldl (Declarator.act W.interp) store) fun _ => [] := by
  induction ds with
  | nil =>
      simp only [lowerDeclarators]
      exact .skip
  | cons d ds ih =>
      obtain ⟨hd, hds⟩ := List.forall_mem_cons.mp h
      obtain ⟨target, init⟩ := d
      cases target with
      | ident name =>
          cases init with
          | none =>
              rw [lowerDeclarators]
              exact ih hds
          | some init =>
              simp only [lowerDeclarators]
              rw [← bind_assoc]
              exact (lowerExpr_writeName_runs hnames (Bool.and_eq_true_iff.mp hd).2).seq fun _ => ih hds
      | _ =>
          simp only [lowerDeclarators]
          exact .fail

theorem lowerVarDecl_runs (hnames : W.Finds names) (d : VarDecl) (h : d.isCore = true) :
    Runs W [] (lowerVarDecl names d) (fun store => d.act W.interp store) fun _ => [] := by
  obtain ⟨kind, ds⟩ := d
  rw [lowerVarDecl]
  split
  · exact lowerDeclarators_runs hnames ds (List.all_eq_true.mp h)
  · exact .fail

theorem lowerInit_runs (hnames : W.Finds names) (init : Option ForInit) (h : ForInit.isCore init = true) :
    Runs W [] (lowerInit names init) (fun store => ForInit.act W.interp store init) fun _ => [] := by
  match init with
  | none =>
      rw [lowerInit]
      exact .skip
  | some (.var d) =>
      rw [lowerInit]
      exact lowerVarDecl_runs hnames d h
  | some (.expr e) =>
      rw [lowerInit]
      exact (lowerExpr_acts hnames h).seq fun _ => .skip

theorem lowerUpdate_runs (hnames : W.Finds names) (update : Option Expr) (h : update.all Expr.isAction = true) :
    Runs W [] (lowerUpdate names update) (fun store => update.elim store (Expr.act W.interp store))
      fun _ => [] := by
  cases update with
  | none =>
      rw [lowerUpdate]
      exact .skip
  | some e =>
      rw [lowerUpdate]
      exact (lowerExpr_acts hnames h).seq fun _ => .skip

theorem lowerTest_computes (hnames : W.Finds names) (test : Option Expr) (h : test.all Expr.isPure = true) :
    Computes W [] none (lowerTest names test) fun store => valueOr W.interp (.bool true) store test := by
  cases test with
  | none =>
      rw [lowerTest]
      exact computes_value (computes_literal nofun)
  | some e =>
      rw [lowerTest]
      exact computes_value (lowerExpr_computes hnames e h [] none nofun)

theorem lowerResult_computes (hnames : W.Finds names) (result : Option Expr)
    (h : result.all Expr.isPure = true) :
    Computes W [] none (lowerResult names result) fun store => valueOr W.interp .undefined store result := by
  cases result with
  | none =>
      rw [lowerResult]
      exact computes_value (computes_literal nofun)
  | some e =>
      rw [lowerResult]
      exact computes_value (lowerExpr_computes hnames e h [] none nofun)

end Lowering

end ScriptSsa
