import ScriptSsa.Proofs.Evaluation

/-!
Statements take a run where they say.

A statement that ends normally brings a run to where the next instruction will go. A jump brings it to the end
of the chain of its loop, from where later jumps of the same kind lead on, and in the end the closing of the
loop. What has run for as many steps as there was fuel may still be on the way.
-/

namespace ScriptSsa

open Build

variable {V : Type*}

/-- Control goes from one block on to another, and nothing else happens. -/
def Passes (I : Interp V) (code : BlockId → Option Block) (id id' : BlockId) : Prop :=
  ∀ m : Memory V, Reaches I code ⟨id, 0, m⟩ ⟨id', 0, m⟩

theorem Passes.refl {I : Interp V} {code : BlockId → Option Block} (id : BlockId) : Passes I code id id :=
  fun _ => .refl _

theorem Passes.trans {I : Interp V} {code : BlockId → Option Block} {a b c : BlockId} (h : Passes I code a b)
    (h' : Passes I code b c) : Passes I code a c :=
  fun m => (h m).trans (h' m)

/-- The chains of a loop have got longer, and lead from where they ended to where they end. -/
structure Loop.Leads (I : Interp V) (code : BlockId → Option Block) (l l' : Loop) : Prop where
  labels : l'.labels = l.labels
  chain : ∀ kind, l.linksAtOnce kind = true →
    l'.linksAtOnce kind = true ∧ Passes I code (l.chainEnd kind) (l'.chainEnd kind)
  /-- Nothing in a chain of continues that led to its end is cut off. -/
  first : (∀ first ∈ l.continues.head?, Passes I code first l.continueTarget) →
    ∀ first ∈ l'.continues.head?, Passes I code first l'.continueTarget

theorem Loop.chainEnd_extend (kind : Jump) (l : Loop) (join : BlockId) :
    (l.extend kind join).chainEnd kind = join := by
  cases kind <;> simp [extend, chainEnd, breakTarget, List.getLastD_eq_getLast?]

theorem Loop.linksAtOnce_extend (kind : Jump) (l : Loop) (join : BlockId) :
    (l.extend kind join).linksAtOnce kind = true := by
  cases kind <;> simp [extend, linksAtOnce]

theorem Loop.labels_extend (kind : Jump) (l : Loop) (join : BlockId) : (l.extend kind join).labels = l.labels := by
  cases kind <;> rfl

namespace Loop.Leads

variable {I : Interp V} {code : BlockId → Option Block} {l l₁ l₂ : Loop}

theorem refl (l : Loop) : l.Leads I code l := ⟨rfl, fun _ h => ⟨h, .refl _⟩, fun h => h⟩

theorem trans (h : l.Leads I code l₁) (h' : l₁.Leads I code l₂) : l.Leads I code l₂ where
  labels := h'.labels.trans h.labels
  chain kind honce := by
    obtain ⟨honce₁, hpasses₁⟩ := h.chain kind honce
    obtain ⟨honce₂, hpasses₂⟩ := h'.chain kind honce₁
    exact ⟨honce₂, hpasses₁.trans hpasses₂⟩
  first hfirst := h'.first (h.first hfirst)

/-- A jump leads the end of its chain on to its merge block. -/
theorem extend {kind : Jump} {join : BlockId}
    (h : l.linksAtOnce kind = true → Passes I code (l.chainEnd kind) join) :
    l.Leads I code (l.extend kind join) where
  labels := Loop.labels_extend kind l join
  chain other honce := by
    by_cases hkind : other = kind
    · subst hkind
      rw [Loop.chainEnd_extend]
      exact ⟨Loop.linksAtOnce_extend other l join, h honce⟩
    · cases kind <;> cases other
      · exact absurd rfl hkind
      · exact ⟨honce, .refl _⟩
      · exact ⟨honce, .refl _⟩
      · exact absurd rfl hkind
  first hfirst first hmem := by
    cases kind with
    | exit => exact hfirst first hmem
    | next =>
        have hend : (l.extend .next join).continueTarget = join := Loop.chainEnd_extend .next l join
        rw [hend]
        change first ∈ (l.continues ++ [join]).head? at hmem
        cases hcontinues : l.continues with
        | nil =>
            rw [hcontinues] at hmem
            obtain rfl : join = first := Option.some.inj hmem
            exact .refl _
        | cons head rest =>
            rw [hcontinues] at hmem hfirst
            refine (hfirst first hmem).trans (h ?_)
            rw [Loop.linksAtOnce, hcontinues]
            rfl

end Loop.Leads

/-- A jump selects the same loop, whatever its chains have become. -/
theorem Loop.find?_of_leads {I : Interp V} {code : BlockId → Option Block} {label : Option String} {l : Loop}
    {loops loops' : List Loop} (h : List.Forall₂ (Loop.Leads I code) loops loops')
    (hfind : loops.find? (Loop.accepts label) = some l) :
    ∃ l', loops'.find? (Loop.accepts label) = some l' ∧ l.Leads I code l' := by
  induction h with
  | nil => cases hfind
  | cons hleads _ ih =>
      rw [List.find?_cons] at hfind ⊢
      rw [Loop.accepts_eq_selects, hleads.labels, ← Loop.accepts_eq_selects]
      split at hfind
      · obtain rfl := Option.some.inj hfind
        exact ⟨_, rfl, hleads⟩
      · exact ih hfind

/-- Where a run from `c` gets, for statements that end in the given way. Those that have no result are still
running after `n` steps. -/
def Arrives (W : Setup V) (code : BlockId → Option Block) (t : Builder) (n : Nat) (c : Config V) :
    Option (Completion V × (String → V)) → Prop
  | none => Lasts W.interp code n c
  | some (.normal, store) => t.IsOpen ∧ ∃ m, W.Matches store m ∧ Reaches W.interp code c (t.here m)
  | some (.jump kind label, store) => ∃ frame, t.loops.find? (Loop.accepts label) = some frame ∧
      frame.linksAtOnce kind = true ∧
      ∃ m, W.Matches store m ∧ Reaches W.interp code c ⟨frame.chainEnd kind, 0, m⟩
  | some (.ret value, store) => ∃ m, W.Matches store m ∧ Halts W.interp code c (some value) m

namespace Arrives

variable {W : Setup V} {code : BlockId → Option Block} {t u : Builder} {n : Nat} {c c' : Config V}
  {outcome : Option (Completion V × (String → V))}

theorem of_reaches (hreach : Reaches W.interp code c c') (h : Arrives W code t n c' outcome) :
    Arrives W code t n c outcome := by
  match outcome with
  | none => exact hreach.lasts h
  | some (.normal, store) =>
      obtain ⟨hopen, m, hmatch, h⟩ := h
      exact ⟨hopen, m, hmatch, hreach.trans h⟩
  | some (.jump kind label, store) =>
      obtain ⟨frame, hfind, honce, m, hmatch, h⟩ := h
      exact ⟨frame, hfind, honce, m, hmatch, hreach.trans h⟩
  | some (.ret value, store) =>
      obtain ⟨m, hmatch, h⟩ := h
      exact ⟨m, hmatch, hreach.halts h⟩

theorem of_step (hstep : step W.interp code c = .go c') (h : Arrives W code t n c' outcome) :
    Arrives W code t (n + 1) c outcome := by
  match outcome with
  | none => exact Lasts.of_step hstep h
  | some (.normal, _) | some (.jump _ _, _) | some (.ret _, _) => exact of_reaches (.of_step hstep) h

/-- Unless the statements end normally, what comes behind them matters only for the chains of the loops. -/
theorem leave (h : Arrives W code t n c outcome) (habrupt : ∀ store, outcome ≠ some (.normal, store))
    (hloops : List.Forall₂ (Loop.Leads W.interp code) t.loops u.loops) : Arrives W code u n c outcome := by
  match outcome with
  | none => exact h
  | some (.normal, store) => exact absurd rfl (habrupt store)
  | some (.jump kind label, store) =>
      obtain ⟨frame, hfind, honce, m, hmatch, h⟩ := h
      obtain ⟨frame', hfind', hleads⟩ := Loop.find?_of_leads hloops hfind
      obtain ⟨honce', hpasses⟩ := hleads.chain kind honce
      exact ⟨frame', hfind', honce', m, hmatch, h.trans (hpasses m)⟩
  | some (.ret value, store) => exact h

/-- What falls out of the end of the statements goes on in the block that is entered. -/
theorem fallTo {join : BlockId} (h : Arrives W code t n c outcome) (hcode : Extends (t.fallTo join).block? code)
    (hat : u.At (.empty join)) (hloops : List.Forall₂ (Loop.Leads W.interp code) t.loops u.loops) :
    Arrives W code u n c outcome := by
  match outcome with
  | some (.normal, store) =>
      obtain ⟨hopen, m, hmatch, hreach⟩ := h
      refine ⟨Builder.isOpen_of_empty hat, m, hmatch, ?_⟩
      rw [Builder.here_of_empty hat]
      exact hreach.trans (Builder.reaches_fallTo hopen hcode)
  | none => exact h
  | some (.jump _ _, _) => exact h.leave nofun hloops
  | some (.ret _, _) => exact h.leave nofun hloops

end Arrives

/-- What has been put down between `s` and `t` takes a run where `exec` says. -/
structure Follows (W : Setup V) (exec : Nat → (String → V) → Option (Completion V × (String → V)))
    (s t : Builder) : Prop where
  grows : Extends s.block? t.block?
  queue : t.finished = s.finished
  leads : ∀ {code}, Extends t.block? code → List.Forall₂ (Loop.Leads W.interp code) s.loops t.loops
  arrives : s.IsOpen → ∀ {code}, Extends t.block? code → ∀ fuel {store m}, W.Matches store m →
    Arrives W code t fuel (s.here m) (exec fuel store)

/-- The statements do what `exec` says, wherever they are put down. -/
structure Flows (W : Setup V) (m : Build Unit)
    (exec : Nat → (String → V) → Option (Completion V × (String → V))) : Prop where
  isFlow : IsFlow (fun _ => True) m
  run : ∀ {s t}, Stage.flow.Ready s → m s = .ok () t → Follows W exec s t

/-- The same of what stands in a statement, which starts in an open block. -/
structure OpenFlows (W : Setup V) (m : Build Unit)
    (exec : Nat → (String → V) → Option (Completion V × (String → V))) : Prop where
  isOpenFlow : IsOpenFlow (fun _ => True) m
  run : ∀ {s t}, Stage.code.Ready s → m s = .ok () t → Follows W exec s t

section Rules

variable {W : Setup V} {m m' : Build Unit} {s t u : Builder} {update : (String → V) → String → V}
  {exec exec' : Nat → (String → V) → Option (Completion V × (String → V))}

theorem forall₂_leads_refl {I : Interp V} {code : BlockId → Option Block} (loops : List Loop) :
    List.Forall₂ (Loop.Leads I code) loops loops :=
  List.forall₂_same.mpr fun l _ => .refl l

theorem Follows.seq (h : Follows W exec s t) (h' : Follows W exec' t u) :
    Follows W (fun fuel store => match exec fuel store with
      | some (.normal, store') => exec' fuel store'
      | other => other) s u where
  grows := h.grows.trans h'.grows
  queue := h'.queue.trans h.queue
  leads hcode := forall₂_trans (fun h h' => h.trans h') (h.leads (h'.grows.trans hcode)) (h'.leads hcode)
  arrives hs {code} hcode fuel {store m} hmatch := by
    have harrives := h.arrives hs (h'.grows.trans hcode) fuel hmatch
    match exec fuel store, harrives with
    | some (.normal, store'), harrives =>
        obtain ⟨ht, m₁, hmatch₁, hreach⟩ := harrives
        exact (h'.arrives ht hcode fuel hmatch₁).of_reaches hreach
    | none, harrives => exact harrives
    | some (.jump kind label, store'), harrives => exact harrives.leave nofun (h'.leads hcode)
    | some (.ret value, store'), harrives => exact harrives.leave nofun (h'.leads hcode)

theorem Flows.skip : Flows W (pure ()) fun _ store => some (.normal, store) where
  isFlow := .skip
  run {s t} _ h := by
    cases h
    exact ⟨.refl _, rfl, fun _ => forall₂_leads_refl _, fun hs _ _ _ _ m hmatch => ⟨hs, m, hmatch, .refl _⟩⟩

theorem Flows.seq (hm : Flows W m exec) (hm' : Flows W m' exec') :
    Flows W (m >>= fun _ => m') fun fuel store => match exec fuel store with
      | some (.normal, store') => exec' fuel store'
      | other => other where
  isFlow := hm.isFlow.seq hm'.isFlow
  run {s u} hs h := by
    obtain ⟨_, t, hmt, hmu⟩ := bind_eq_ok h
    have htrace := (hm.isFlow s hs).ok hmt
    exact (hm.run hs hmt).seq (hm'.run (htrace.ready hs) hmu)

theorem Flows.openFlows (h : Flows W m exec) : OpenFlows W m exec where
  isOpenFlow := h.isFlow.isOpenFlow
  run hs hm := h.run hs.flow hm

theorem OpenFlows.fail {e : BuildError} : OpenFlows W (Build.fail e) exec where
  isOpenFlow := .fail trivial
  run _ h := nomatch h

/-- Where control has left, the block that is opened is not reached. -/
theorem OpenFlows.ensureOpen (h : OpenFlows W m exec) : Flows W (ensureOpen >>= fun _ => m) exec where
  isFlow := h.isOpenFlow.ensureOpen
  run {s t} hs hm := by
    obtain ⟨hfits, pending, hsound⟩ := hs
    obtain ⟨b, hat⟩ := hsound.at_current
    obtain ⟨hsound', hopen⟩ := hsound.reopen hfits
    rw [← Builder.loopsWaiting_reopen] at hsound'
    rw [bind_ok (ensureOpen_eq hat)] at hm
    have hrun := h.run ⟨hopen, pending, hsound'⟩ hm
    refine ⟨Builder.extends_reopen.trans hrun.grows, hrun.queue.trans Builder.finished_reopen, fun hcode => ?_,
      fun hs _ hcode fuel store m hmatch => ?_⟩
    · have hleads := hrun.leads hcode
      rwa [Builder.loops_reopen] at hleads
    · have heq : s.reopen = s := by rw [Builder.reopen, hs.terminated]; rfl
      have harrives := hrun.arrives hopen hcode fuel hmatch
      rwa [heq] at harrives

theorem Executes.follows {gives : Known V} (h : Executes W [] update gives s t) (hloops : t.loops = s.loops)
    (ht : t.IsOpen) : Follows W (fun _ store => some (.normal, update store)) s t where
  grows := h.grows
  queue := h.queue
  leads _ := hloops ▸ forall₂_leads_refl _
  arrives _ _ hcode _ _ m hmatch := by
    obtain ⟨m', hreach, _, hmatch', _⟩ := h.reaches hcode hmatch fun _ h => nomatch h
    exact ⟨ht, m', hmatch', hreach⟩

theorem Runs.follows {α : Type} {m : Build α} {a : α} {gives : α → Known V} (h : Runs W [] m update gives)
    (hs : Stage.code.Ready s) (hm : m s = .ok a t) :
    Follows W (fun _ store => some (.normal, update store)) s t ∧ Stage.code.Ready t := by
  have hnil : Known.HeldIn ([] : Known V) s.supply.drawn := fun _ h => nomatch h
  obtain ⟨_, _, _, htrace⟩ := (h.isCode hnil s hs).ok hm
  exact ⟨(h.run hs hnil hm).follows (htrace.loops_eq rfl) (htrace.ready hs).1, htrace.ready hs⟩

theorem Runs.openFlows {gives : Unit → Known V} (h : Runs W [] m update gives) :
    OpenFlows W m fun _ store => some (.normal, update store) where
  isOpenFlow := IsCode.isOpenFlow ((h.isCode fun _ h => nomatch h).mono fun _ _ _ => trivial)
  run hs hm := (h.follows hs hm).1

/-- Code before a statement's own flow. -/
theorem OpenFlows.after {gives : Unit → Known V} (hm : Runs W [] m update gives) (hm' : OpenFlows W m' exec) :
    OpenFlows W (m >>= fun _ => m') fun fuel store => exec fuel (update store) where
  isOpenFlow := .after ((hm.isCode fun _ h => nomatch h).mono fun _ _ _ => trivial) hm'.isOpenFlow
  run {s u} hs h := by
    obtain ⟨_, t, hmt, hmu⟩ := bind_eq_ok h
    obtain ⟨hfollows, ht⟩ := hm.follows hs hmt
    exact hfollows.seq (hm'.run ht hmu)

theorem openFlows_ret {result : Build Operand} {value : (String → V) → V} (h : Computes W [] none result value) :
    OpenFlows W (result >>= fun v => perform .ret [v]) fun _ store => some (.ret (value store), store) where
  isOpenFlow := isOpenFlow_ret (isCode_of_computes h fun _ h => nomatch h)
  run {s u} hs hm := by
    have hnil : Known.HeldIn ([] : Known V) s.supply.drawn := fun _ h => nomatch h
    obtain ⟨v, t, hv, hret⟩ := bind_eq_ok hm
    obtain ⟨held', _, _, htrace⟩ := (h.isCode hnil s hs).ok hv
    obtain ⟨b, hat, hb⟩ := (htrace.ready hs).1
    rw [perform_eq hat] at hret
    cases hret
    have hrun := h.run hs hnil hv
    have hemit := @Builder.extends_emit t none .ret [v] ⟨b, hat, hb.succs⟩
    refine ⟨hrun.grows.trans hemit, hrun.queue, fun _ => ?_, fun _ _ hcode _ store m hmatch => ?_⟩
    · change List.Forall₂ _ s.loops t.loops
      rw [htrace.loops_eq rfl]
      exact forall₂_leads_refl _
    · obtain ⟨m', hreach, _, hmatch', hread⟩ := hrun.reaches (hemit.trans hcode) hmatch fun _ h => nomatch h
      exact ⟨m', hmatch', hreach.halts (Builder.halts_ret hat hcode (Known.reads_singleton.mp hread))⟩

theorem openFlows_jump {kind : Jump} {label : Option String} :
    OpenFlows W (jump kind label) fun _ store => some (.jump kind label, store) where
  isOpenFlow := isOpenFlow_jump trivial
  run {s t} hs h := by
    obtain ⟨inner, frame, outer, hloops, hinner, haccepts, rfl⟩ :=
      (jump_ran (E := fun _ => True) hs trivial).ok h
    obtain ⟨⟨b, hat, hb⟩, pending, hsound⟩ := hs
    refine ⟨Builder.extends_alloc.trans ((Builder.extends_link (Builder.At_alloc hat) hb.succs).trans
      (Builder.extends_jumpTo hsound hloops)), Builder.finished_jumpTo, fun hcode => ?_,
      fun _ _ hcode _ store m hmatch => ?_⟩
    · rw [Builder.loops_jumpTo, hloops]
      refine List.rel_append (forall₂_leads_refl inner) (.cons (.extend fun honce m => ?_) (forall₂_leads_refl outer))
      exact Builder.reaches_chain hsound hloops hcode honce
    · refine ⟨frame.extend kind (s.later 0), ?_, Loop.linksAtOnce_extend kind frame _, m, hmatch, ?_⟩
      · rw [Builder.loops_jumpTo, List.find?_eq_some_iff_append]
        refine ⟨?_, inner, outer, rfl, fun l hl => by rw [hinner l hl]; rfl⟩
        rw [Loop.accepts_eq_selects, Loop.labels_extend, ← Loop.accepts_eq_selects, haccepts]
      · rw [Loop.chainEnd_extend]
        exact Builder.reaches_jumpTo hsound hat hloops hcode

theorem openFlows_branch {test : Build Operand} {condition : (String → V) → V}
    (htest : Computes W [] none test condition) (hm : Flows W m exec) (hm' : Flows W m' exec') :
    OpenFlows W (branch test m m') fun fuel store =>
      if W.interp.truthy (condition store) then exec fuel store else exec' fuel store where
  isOpenFlow := isOpenFlow_branch (isCode_of_computes htest fun _ h => nomatch h) hm.isFlow hm'.isFlow
  run {s t} hs h := by
    have hnil : Known.HeldIn ([] : Known V) s.supply.drawn := fun _ h => nomatch h
    obtain ⟨held, v, s₀, s₁, s₂, hran, heq₁, htrace₁, heq₂, htrace₂, rfl⟩ :=
      (branch_ran hs (isCode_of_computes htest fun _ h => nomatch h) hm.isFlow hm'.isFlow).ok h
    have hrun₀ := htest.run hs hnil hran.eq
    have hloops₀ : s₀.loops = s.loops := hran.trace.loops_eq rfl
    obtain ⟨hopen₀, pending, hsound₀⟩ := hran.trace.ready hs
    obtain ⟨hsound₀', hat₀⟩ := @Sound.openBranch _ _ v hsound₀ hopen₀
    obtain ⟨hsound₁, hfits₁⟩ := hsound₀.consequent hopen₀ htrace₁.keeps
    obtain ⟨hsound₁', hat₁⟩ := hsound₁.fallThenEnter hfits₁ (List.mem_cons_of_mem _ List.mem_cons_self)
    obtain ⟨hsound₂, hfits₂⟩ := hsound₁.alternate hfits₁ htrace₂.keeps
    obtain ⟨_, hat₂⟩ := hsound₂.fallThenEnter hfits₂ List.mem_cons_self
    rw [← Builder.loopsWaiting_fallTo] at hsound₁'
    have hrun₁ := hm.run ⟨.inl (Builder.isOpen_of_empty hat₀), _ :: _ :: pending, hsound₀'⟩ heq₁
    have hrun₂ := hm'.run ⟨.inl (Builder.isOpen_of_empty hat₁), _ :: pending, hsound₁'⟩ heq₂
    -- What is put down in between, from the last to the first.
    have hfall₂ := @Builder.extends_fallTo s₂ (s₀.later 2) hfits₂
    have hafter₁ := (Builder.extends_fallTo hfits₁).trans (hrun₂.grows.trans hfall₂)
    have hleads₂ {code} (hcode : Extends (s₂.fallTo (s₀.later 2)).block? code) :
        List.Forall₂ (Loop.Leads W.interp code) s₁.loops (s₂.fallTo (s₀.later 2)).loops := by
      have hleads : List.Forall₂ _ (s₁.fallTo (s₀.later 2)).loops s₂.loops := hrun₂.leads (hfall₂.trans hcode)
      rwa [Builder.loops_fallTo, ← s₂.loops_fallTo] at hleads
    refine ⟨hrun₀.grows.trans ((Builder.extends_split hopen₀.unlinked).trans (hrun₁.grows.trans hafter₁)),
      ?_, fun hcode => ?_, fun _ _ hcode fuel store m hmatch => ?_⟩
    · have hqueue : s₂.finished = (s₁.fallTo (s₀.later 2)).finished := hrun₂.queue
      rw [Builder.finished_enter, Builder.finished_fallTo, hqueue, Builder.finished_fallTo]
      exact hrun₁.queue.trans hrun₀.queue
    · rw [← hloops₀]
      exact forall₂_trans (fun h h' => h.trans h') (hrun₁.leads (hafter₁.trans hcode)) (hleads₂ hcode)
    · obtain ⟨m₀, hreach₀, _, hmatch₀, hread₀⟩ := hrun₀.reaches ((Builder.extends_split hopen₀.unlinked).trans
        (hrun₁.grows.trans (hafter₁.trans hcode))) hmatch fun _ h => nomatch h
      obtain ⟨b, hat, _⟩ := id hopen₀
      refine (Arrives.of_reaches · ?_) (hreach₀.trans (Builder.reaches_split hat
        (hrun₁.grows.trans (hafter₁.trans hcode)) (Known.reads_singleton.mp hread₀)))
      split
      · have harrives := hrun₁.arrives (Builder.isOpen_of_empty hat₀) (hafter₁.trans hcode) fuel hmatch₀
        rw [Builder.here_of_empty hat₀] at harrives
        exact harrives.fallTo (hrun₂.grows.trans (hfall₂.trans hcode)) hat₂ (hleads₂ hcode)
      · have harrives := hrun₂.arrives (Builder.isOpen_of_empty hat₁) (hfall₂.trans hcode) fuel hmatch₀
        rw [Builder.here_of_empty hat₁] at harrives
        exact harrives.fallTo hcode hat₂ (Builder.loops_fallTo ▸ forall₂_leads_refl _)

end Rules

/-- The blocks of a loop are linked up. Its body was put down up to `s`, and the code behind it starts at `t`. -/
structure LoopInPlace (W : Setup V) (code : BlockId → Option Block) (header body : BlockId) (frame : Loop)
    (enters : (String → V) → Bool) (update : (String → V) → String → V) (s t : Builder) : Prop where
  enter : ∀ {store m}, W.Matches store m → ∃ c m', step W.interp code ⟨header, 0, m⟩ = .go c ∧
    W.Matches store m' ∧
    Reaches W.interp code c ⟨if enters store then body else frame.breakTarget, 0, m'⟩
  again : s.IsOpen → ∀ {store m}, W.Matches store m →
    ∃ m', W.Matches (update store) m' ∧ Reaches W.interp code (s.here m) ⟨header, 0, m'⟩
  next : frame.continues ≠ [] → Passes W.interp code frame.continueTarget header
  exit : ∀ m, Reaches W.interp code ⟨frame.breakTarget, 0, m⟩ (t.here m)
  isOpen : t.IsOpen
  loops : s.loops = frame :: t.loops

/-- Where a round of a loop takes a run that is at its header. -/
def Goes (W : Setup V) (code : BlockId → Option Block) (t : Builder) (fuel : Nat) (header : BlockId)
    (m : Memory V) : Option (Round V) → Prop
  | none => Lasts W.interp code fuel ⟨header, 0, m⟩
  | some (.again store) => ∃ c m', step W.interp code ⟨header, 0, m⟩ = .go c ∧ W.Matches store m' ∧
      Reaches W.interp code c ⟨header, 0, m'⟩
  | some (.done completion store) => Arrives W code t fuel ⟨header, 0, m⟩ (some (completion, store))

namespace LoopInPlace

variable {W : Setup V} {code : BlockId → Option Block} {header bodyEntry : BlockId} {frame : Loop}
  {enters : (String → V) → Bool} {update : (String → V) → String → V} {s t : Builder} {fuel : Nat}
  {body : (String → V) → Option (Completion V × (String → V))} {store : String → V} {m : Memory V}

theorem goes (h : LoopInPlace W code header bodyEntry frame enters update s t)
    (hbody : ∀ {store m}, W.Matches store m → Arrives W code s fuel ⟨bodyEntry, 0, m⟩ (body store))
    (hmatch : W.Matches store m) :
    Goes W code t fuel header m (round frame.labels enters update body store) := by
  obtain ⟨c, m₀, hstep, hmatch₀, hreach₀⟩ := h.enter hmatch
  rw [round]
  split at hreach₀
  · next henters =>
      have harrives := hbody hmatch₀
      rw [if_pos henters]
      match body store, harrives with
      | none, hlasts => exact (Reaches.of_step hstep).lasts (hreach₀.lasts hlasts)
      | some (.normal, store'), ⟨hs, m₁, hmatch₁, hreach₁⟩ =>
          obtain ⟨m₂, hmatch₂, hreach₂⟩ := h.again hs hmatch₁
          exact ⟨c, m₂, hstep, hmatch₂, hreach₀.trans (hreach₁.trans hreach₂)⟩
      | some (.ret value, store'), ⟨m₁, hmatch₁, hhalts⟩ =>
          exact ⟨m₁, hmatch₁, (Reaches.of_step hstep).halts (hreach₀.halts hhalts)⟩
      | some (.jump kind label, store'), ⟨target, hfind, honce, m₁, hmatch₁, hreach₁⟩ =>
          rw [h.loops, List.find?_cons, Loop.accepts_eq_selects] at hfind
          dsimp only
          split
          · next hselects =>
              rw [hselects] at hfind
              obtain rfl := Option.some.inj hfind
              cases kind with
              | exit =>
                  exact ⟨h.isOpen, m₁, hmatch₁,
                    (Reaches.of_step hstep).trans (hreach₀.trans (hreach₁.trans (h.exit m₁)))⟩
              | next =>
                  have hne : frame.continues ≠ [] := by simpa [Loop.linksAtOnce] using honce
                  exact ⟨c, m₁, hstep, hmatch₁, hreach₀.trans (hreach₁.trans (h.next hne m₁))⟩
          · next hselects =>
              rw [Bool.eq_false_of_not_eq_true hselects] at hfind
              exact ⟨target, hfind, honce, m₁, hmatch₁, (Reaches.of_step hstep).trans (hreach₀.trans hreach₁)⟩
  · next hleaves =>
      rw [if_neg hleaves]
      exact ⟨h.isOpen, m₀, hmatch₀, (Reaches.of_step hstep).trans (hreach₀.trans (h.exit m₀))⟩

/-- A run at the header takes the loop to its end. Every round takes a step, so a loop that is not done after `n`
rounds lasts for `n` steps. -/
theorem arrives (h : LoopInPlace W code header bodyEntry frame enters update s t)
    (hbody : ∀ {store m}, W.Matches store m → Arrives W code s fuel ⟨bodyEntry, 0, m⟩ (body store))
    (hmatch : W.Matches store m) {n : Nat} (hn : n ≤ fuel) :
    Arrives W code t n ⟨header, 0, m⟩ (rounds frame.labels enters update body n store) := by
  induction n generalizing store m with
  | zero => exact ⟨_, rfl⟩
  | succ n ih =>
      have hgoes := h.goes hbody hmatch
      rw [rounds]
      match round frame.labels enters update body store, hgoes with
      | none, hlasts => exact hlasts.mono hn
      | some (.again store'), ⟨c, m', hstep, hmatch', hreach⟩ =>
          exact .of_step hstep (.of_reaches hreach (ih hmatch' (Nat.le_of_succ_le hn)))
      | some (.done .normal _), harrives => exact harrives
      | some (.done (.jump _ _) _), harrives => exact harrives
      | some (.done (.ret _) _), harrives => exact harrives

end LoopInPlace

/-- The end of the update code leads to the header, through the chain of continues. -/
theorem LoopEnd.passes {I : Interp V} {code : BlockId → Option Block} {frame : Loop} {header : BlockId}
    {pending : List BlockId} {s : Builder} {m : Memory V} (h : LoopEnd frame header pending s)
    (hcode : Extends (s.closeLoop frame header).block? code)
    (hfirst : ∀ first ∈ frame.continues.head?, Passes I code first frame.continueTarget) :
    Reaches I code (s.here m) ⟨header, 0, m⟩ := by
  have hclose := Builder.reaches_closeLoop (I := I) (m := m) h hcode
  cases hcontinues : frame.continues with
  | nil => rwa [hcontinues] at hclose
  | cons first rest =>
      have hchain := hfirst first (by rw [hcontinues]; rfl) m
      rw [hcontinues] at hclose
      exact hclose.trans (hchain.trans (Builder.reaches_header h hcode (hcontinues ▸ List.cons_ne_nil _ _)))

section Loop

variable {W : Setup V} {code : BlockId → Option Block} {s t : Builder} {update : (String → V) → String → V}
  {store : String → V} {m : Memory V}

/-- The header leads through the test, if it comes first, into the body or out of the loop. -/
theorem reaches_body {waiting : List BlockId} {testFirst : Bool} {v : Operand} {condition : (String → V) → V}
    {loop : Loop} (h : Sound waiting s) (hopen : s.IsOpen)
    (htest : Executes W [] (bound none condition) [(v, condition)] (s.openLoop testFirst) t) (ht : t.IsOpen)
    (hcode : Extends (t.openBody v (s.later 4) (s.later 1) loop).block? code) (hmatch : W.Matches store m) :
    ∃ c m', step W.interp code ⟨s.later 2, 0, m⟩ = .go c ∧ W.Matches store m' ∧ Reaches W.interp code c
      ⟨if !testFirst || W.interp.truthy (condition store) then s.later 4 else s.later 1, 0, m'⟩ := by
  have hcode₁ := (Builder.extends_openBody ht.unlinked).trans hcode
  have hheader := Builder.step_header (I := W.interp) (m := m) h (htest.grows.trans hcode₁)
  cases testFirst with
  | false => exact ⟨_, m, hheader, hmatch, .refl _⟩
  | true =>
      obtain ⟨m', hreach, _, hmatch', hread⟩ := htest.reaches hcode₁ hmatch fun _ h => nomatch h
      obtain ⟨b, hat, _⟩ := ht
      rw [Builder.here_of_empty (h.openLoop hopen).2] at hreach
      exact ⟨_, m', hheader, hmatch',
        hreach.trans (Builder.reaches_openBody hat hcode (Known.reads_singleton.mp hread))⟩

/-- The end of the body leads through the update code to the header. -/
theorem reaches_again {frame : Loop} {outer : List Loop} {header : BlockId} {pending : List BlockId} {gives : Known V}
    (h : LoopEnd frame header pending t) (hupdate : Executes W [] update gives (s.openUpdate frame outer) t)
    (hat : (s.openUpdate frame outer).At (.empty frame.continueEntry))
    (hcode : Extends (t.closeLoop frame header).block? code)
    (hfirst : ∀ first ∈ frame.continues.head?, Passes W.interp code first frame.continueTarget)
    (hs : s.IsOpen) (hmatch : W.Matches store m) :
    ∃ m', W.Matches (update store) m' ∧ Reaches W.interp code (s.here m) ⟨header, 0, m'⟩ := by
  have hcode' := (Builder.extends_closeLoop h).trans hcode
  obtain ⟨m', hreach, _, hmatch', _⟩ := hupdate.reaches hcode' hmatch fun _ h => nomatch h
  rw [Builder.here_of_empty hat] at hreach
  have hfall : Reaches W.interp code (s.here m) ⟨frame.continueEntry, 0, m⟩ :=
    Builder.reaches_fallTo (s := s.withLoops outer) hs (hupdate.grows.trans hcode')
  exact ⟨m', hmatch', hfall.trans (hreach.trans (h.passes hcode hfirst))⟩

end Loop

theorem openFlows_loop {W : Setup V} {labels : List String} {testFirst : Bool} {test : Build Operand}
    {update body : Build Unit} {condition : (String → V) → V} {after : (String → V) → String → V}
    {gives : Unit → Known V} {exec : Nat → (String → V) → Option (Completion V × (String → V))}
    (htest : Computes W [] none test condition) (hupdate : Runs W [] update after gives)
    (hbody : Flows W body exec) :
    OpenFlows W (loop labels testFirst test update body) fun fuel =>
      rounds labels (fun store => !testFirst || W.interp.truthy (condition store)) after (exec fuel) fuel where
  isOpenFlow := isOpenFlow_loop (isCode_of_computes htest fun _ h => nomatch h)
    ((hupdate.isCode fun _ h => nomatch h).mono fun _ _ _ => trivial) hbody.isFlow
  run {s t} hs h := by
    have hnil (supply : Supply) : Known.HeldIn ([] : Known V) supply.drawn := fun _ h => nomatch h
    obtain ⟨held, v, s₁, s₂, frame, outer, held', s₃, hran, heq₂, htrace₂, hloops, heq₃, htrace₃, rfl⟩ :=
      (loop_ran hs (isCode_of_computes htest fun _ h => nomatch h)
        ((hupdate.isCode fun _ h => nomatch h).mono fun _ _ _ => trivial) hbody.isFlow).ok h
    obtain ⟨hopen, pending, hsound⟩ := hs
    obtain ⟨hsound₀, hat₀⟩ := @Sound.openLoop _ _ testFirst hsound hopen
    obtain ⟨hsound₁, hopen₁⟩ := hsound.loopTest hopen hran.trace.keeps
    obtain ⟨hsound₁', hat₁⟩ := @Sound.loopBody _ _ v labels _ _ _ hsound₁ hopen₁
    obtain ⟨hsound₂, hfits₂⟩ := htrace₂.keeps.sound hsound₁' (.inl (Builder.isOpen_of_empty hat₁))
    obtain ⟨hsound₂', hat₂⟩ := hsound₂.loopUpdate hfits₂ hloops
    have hend := hsound.loopEnd hopen hran.trace.keeps htrace₂.keeps hloops htrace₃.keeps
    have hrun₁ := htest.run ⟨Builder.isOpen_of_empty hat₀, _ :: _ :: _ :: pending, hsound₀⟩ (hnil _) hran.eq
    have hrun₂ := hbody.run ⟨.inl (Builder.isOpen_of_empty hat₁), pending, hsound₁'⟩ heq₂
    have hrun₃ := hupdate.run ⟨Builder.isOpen_of_empty hat₂, _, hsound₂'⟩ (hnil _) heq₃
    -- What is put down in between, from the last to the first.
    have hclose := Builder.extends_closeLoop hend
    have hafter₂ := (Builder.extends_openUpdate hfits₂).trans (hrun₃.grows.trans hclose)
    have hafter₁ := hrun₂.grows.trans hafter₂
    have hafter₀ := hrun₁.grows.trans ((Builder.extends_openBody hopen₁.unlinked).trans hafter₁)
    have hloops₁ : s₁.loops = s.loops := hran.trace.loops_eq rfl
    have hloops₃ : (s₃.closeLoop frame (s.later 2)).loops = outer := by
      rw [Builder.loops_closeLoop, htrace₃.loops_eq rfl, Builder.loops_openUpdate]
    have hleads {code} (hcode : Extends (s₃.closeLoop frame (s.later 2)).block? code) :
        Loop.Leads W.interp code ⟨labels, s.later 0, s.later 0, [], s.later 1, []⟩ frame ∧
          List.Forall₂ (Loop.Leads W.interp code) s.loops outer := by
      have hleads : List.Forall₂ _ (_ :: s₁.loops) s₂.loops := hrun₂.leads (hafter₂.trans hcode)
      rw [hloops, hloops₁] at hleads
      exact List.forall₂_cons.mp hleads
    refine ⟨(Builder.extends_openLoop hsound hopen).trans hafter₀, ?_, fun hcode => ?_,
      fun _ code hcode fuel store m hmatch => ?_⟩
    · have hqueue : s₃.finished = ((s₂.withLoops outer).fallTo frame.continueEntry).finished := hrun₃.queue
      rw [Builder.finished_closeLoop, hqueue, Builder.finished_fallTo]
      exact hrun₂.queue.trans hrun₁.queue
    · rw [hloops₃]
      exact (hleads hcode).2
    · have hframe := (hleads hcode).1
      have hplace : LoopInPlace W code (s.later 2) (s.later 4) frame
          (fun store => !testFirst || W.interp.truthy (condition store)) after s₂
          (s₃.closeLoop frame (s.later 2)) := {
        enter := fun {store m} hmatch => by
          obtain ⟨c, m', hstep, hmatch', hreach⟩ :=
            reaches_body hsound hopen hrun₁ hopen₁ (hafter₁.trans hcode) hmatch
          refine ⟨c, m', hstep, hmatch', ?_⟩
          split
          · next henters => rwa [if_pos henters] at hreach
          · next hleaves =>
              rw [if_neg hleaves] at hreach
              exact hreach.trans ((hframe.chain .exit rfl).2 m')
        again := fun hs₂ {store m} hmatch =>
          reaches_again hend hrun₃ hat₂ hcode (hframe.first fun _ h => nomatch h) hs₂ hmatch
        next := fun hne m => Builder.reaches_header hend hcode hne
        exit := fun m => Builder.reaches_after hend hcode
        isOpen := Builder.isOpen_of_empty hend.closeLoop.2
        loops := by rw [hloops₃, hloops] }
      obtain ⟨b, hat, _⟩ := id hopen
      have hlabels : frame.labels = labels := hframe.labels
      refine .of_reaches (Builder.reaches_openLoop hsound hat (hafter₀.trans hcode)) ?_
      rw [← hlabels]
      refine hplace.arrives (fun {store m} hmatch => ?_) hmatch (Nat.le_refl fuel)
      have harrives := hrun₂.arrives (Builder.isOpen_of_empty hat₁) (hafter₂.trans hcode) fuel hmatch
      rwa [Builder.here_of_empty hat₁] at harrives

end ScriptSsa
