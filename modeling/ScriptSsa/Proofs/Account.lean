import ScriptSsa.Proofs.PhiTable
import ScriptSsa.Proofs.Support
import ScriptSsa.Proofs.Yields

/-!
What a run of the construction comes to, as far as the syntax alone tells.

An account of a piece of code says whether it can be lowered, how many merges it has and which functions are
finished on the way. `Meets R labels m a` says that `m`, run inside loops with the given labels, bears the
account `a` out: it opens that many phis and queues one graph for each function, related to it by `R`, and it
refuses if and only if the account says so. Nothing is asked of the builder, so a run may also break off at a
fault; in either case ids that were drawn stay drawn.
-/

namespace ScriptSsa

@[ext]
structure Account where
  isSupported : Bool
  merges : Nat
  functions : List Function

namespace Account

/-- Of two pieces of code, one after the other. -/
instance : Append Account where
  append a b := ⟨a.isSupported && b.isSupported, a.merges + b.merges, a.functions ++ b.functions⟩

variable (a b : Account)

@[simp] theorem isSupported_append : (a ++ b).isSupported = (a.isSupported && b.isSupported) := rfl

@[simp] theorem merges_append : (a ++ b).merges = a.merges + b.merges := rfl

@[simp] theorem functions_append : (a ++ b).functions = a.functions ++ b.functions := rfl

end Account

/-- Whether the error says that the script cannot be lowered. -/
def BuildError.isRefusal : BuildError → Bool
  | unsupported _ | unresolvedJump _ _ => true
  | unresolvedPhi _ | fault _ => false

/-- The labels of the loops around the current place. -/
def Builder.labels (s : Builder) : List (List String) := s.loops.map Loop.labels

/-- The account is borne out between two builders. -/
structure Account.Settled (R : Function → Graph → Prop) (a : Account) (s t : Builder) : Prop where
  supply : s.supply ≤ t.supply
  phis : s.PhisDrawn → t.PhisDrawn ∧ t.phis.entries.length = s.phis.entries.length + a.merges
  graphs : ∃ graphs, t.finished.graphs = s.finished.graphs ++ graphs ∧ List.Forall₂ R a.functions graphs

namespace Account.Settled

variable {R : Function → Graph → Prop} {a b : Account} {s t u : Builder}

/-- The graphs of the second run are behind those of the first. -/
theorem trans (h : a.Settled R s t) (h' : b.Settled R t u) : (a ++ b).Settled R s u where
  supply := le_trans h.supply h'.supply
  phis hs := by
    obtain ⟨ht, hlength⟩ := h.phis hs
    obtain ⟨hu, hlength'⟩ := h'.phis ht
    exact ⟨hu, by rw [hlength', hlength, merges_append, Nat.add_assoc]⟩
  graphs := by
    obtain ⟨graphs, hgraphs, hR⟩ := h.graphs
    obtain ⟨graphs', hgraphs', hR'⟩ := h'.graphs
    exact ⟨graphs ++ graphs', by rw [hgraphs', hgraphs, List.append_assoc], List.rel_append hR hR'⟩

end Account.Settled

namespace Build

variable {α β : Type}

/-- A step has drawn ids, and has otherwise kept to the blocks of the graph. -/
structure Idles (s t : Builder) : Prop where
  supply : s.supply ≤ t.supply
  loops : t.loops = s.loops
  phis : t.phis = s.phis
  finished : t.finished = s.finished

theorem Idles.refl (s : Builder) : Idles s s := ⟨le_refl _, rfl, rfl, rfl⟩

/-- Idle steps after one another are idle. -/
theorem Idles.trans {s t u : Builder} (h : Idles s t) (h' : Idles t u) : Idles s u :=
  ⟨le_trans h.supply h'.supply, h'.loops.trans h.loops, h'.phis.trans h.phis, h'.finished.trans h.finished⟩

/-- Steps that no account mentions. They fail by faults alone. -/
def IsIdle (m : Build α) : Prop := ∀ s,
  match m s with
  | .ok _ t => Idles s t
  | .error e t => s.supply ≤ t.supply ∧ e.isRefusal = false

namespace IsIdle

variable {m : Build α} {f : α → Build β} {s t : Builder}

theorem ok (h : IsIdle m) {a : α} (hm : m s = .ok a t) : Idles s t := by
  have h := h s
  rwa [hm] at h

theorem error (h : IsIdle m) {e : BuildError} (hm : m s = .error e t) :
    s.supply ≤ t.supply ∧ e.isRefusal = false := by
  have h := h s
  rwa [hm] at h

theorem pure (a : α) : IsIdle (Pure.pure a : Build α) := fun s => .refl s

/-- An idle step may fail, but it refuses nothing. -/
theorem bind (hm : IsIdle m) (hf : ∀ a, IsIdle (f a)) : IsIdle (m >>= f) := by
  intro s
  cases hrun : m s with
  | error e t =>
      rw [bind_error hrun]
      exact hm.error hrun
  | ok a t =>
      have hst := hm.ok hrun
      rw [bind_ok hrun]
      cases hrun' : f a t with
      | error e u => exact ⟨le_trans hst.supply ((hf a).error hrun').1, ((hf a).error hrun').2⟩
      | ok b u => exact hst.trans ((hf a).ok hrun')

end IsIdle

/-! The idle steps. -/

theorem isIdle_freshInstr : IsIdle freshInstr := fun _ => ⟨Supply.le_dropInstr _, rfl, rfl, rfl⟩

theorem isIdle_newBlock : IsIdle newBlock := fun _ => ⟨Supply.le_dropBlock _, rfl, rfl, rfl⟩

theorem isIdle_current : IsIdle current := fun s => .refl s

theorem isIdle_getBlock (id : BlockId) : IsIdle (getBlock id) := by
  intro s
  unfold getBlock
  cases s.block? id with
  | none => exact ⟨le_refl _, rfl⟩
  | some b => exact .refl s

theorem isIdle_modifyBlock (id : BlockId) (f : Block → Block) : IsIdle (modifyBlock id f) := by
  intro s
  unfold modifyBlock
  cases s.block? id with
  | none => exact ⟨le_refl _, rfl⟩
  | some b => exact ⟨le_refl _, rfl, rfl, rfl⟩

theorem isIdle_switchTo (id : BlockId) : IsIdle (switchTo id) := by
  intro s
  unfold switchTo
  cases s.block? id with
  | none => exact ⟨le_refl _, rfl⟩
  | some b => exact ⟨le_refl _, rfl, rfl, rfl⟩

/-- To link a block may be a fault, but it is no refusal. -/
theorem isIdle_link (id : BlockId) (succs : List BlockId) : IsIdle (link id succs) := by
  intro s
  unfold link
  cases s.block? id with
  | none => exact ⟨le_refl _, rfl⟩
  | some b =>
      by_cases hsuccs : b.succs.isEmpty
      · simp only [hsuccs, if_true]
        cases succs.find? fun target => (s.block? target).isNone with
        | none => exact ⟨le_refl _, rfl, rfl, rfl⟩
        | some target => exact ⟨le_refl _, rfl⟩
      · simp only [hsuccs]
        exact ⟨le_refl _, rfl⟩

theorem isIdle_linkCurrent (succs : List BlockId) : IsIdle (linkCurrent succs) :=
  isIdle_current.bind fun id => isIdle_link id succs

theorem isIdle_isTerminated : IsIdle isTerminated :=
  isIdle_current.bind fun id => (isIdle_getBlock id).bind fun b => .pure b.isTerminated

theorem isIdle_fallThrough (target : BlockId) : IsIdle (fallThrough target) := by
  refine isIdle_isTerminated.bind fun terminated => ?_
  cases terminated with
  | true => exact .pure ()
  | false => exact isIdle_linkCurrent [target]

/-- A new block leaves loops and phis alone. -/
theorem isIdle_ensureOpen : IsIdle ensureOpen := by
  refine isIdle_isTerminated.bind fun terminated => ?_
  cases terminated with
  | true => exact isIdle_newBlock.bind fun id => isIdle_switchTo id
  | false => exact .pure ()

theorem isIdle_emitBound (binding : Option String) (opcode : Opcode) (operands : List Operand) :
    IsIdle (emitBound binding opcode operands) :=
  isIdle_freshInstr.bind fun id => isIdle_current.bind fun b =>
    (isIdle_modifyBlock b _).bind fun _ => .pure id

theorem isIdle_perform (opcode : Opcode) (operands : List Operand) : IsIdle (perform opcode operands) :=
  (isIdle_emitBound _ _ _).bind fun _ => .pure ()

theorem isIdle_emit (opcode : Opcode) (operands : List Operand) : IsIdle (emit opcode operands) :=
  (isIdle_emitBound _ _ _).bind fun _ => .pure _

theorem isIdle_constant (c : Constant) : IsIdle (constant c) := isIdle_freshInstr.bind fun _ => .pure _

theorem isIdle_count (n : Nat) : IsIdle (count n) := isIdle_freshInstr.bind fun _ => .pure _

theorem isIdle_blockRef (id : BlockId) : IsIdle (blockRef id) := isIdle_freshInstr.bind fun _ => .pure _

theorem isIdle_literal (c : Constant) : IsIdle (literal c) := (isIdle_constant c).bind fun _ => isIdle_emit _ _

/-- Variables are bound without a phi. -/
theorem isIdle_bindLocal (name : String) (value : Operand) : IsIdle (bindLocal name value) := by
  refine isIdle_current.bind fun id => (isIdle_getBlock id).bind fun b => ?_
  cases b.bindLast? name value with
  | none => exact (isIdle_emitBound _ _ _).bind fun _ => .pure ()
  | some bound => exact isIdle_modifyBlock _ _

/-- The phi has been opened before; here it is only placed. -/
theorem isIdle_enterJoin (join : BlockId) (phi : InstrId) : IsIdle (enterJoin join phi) := by
  refine (isIdle_switchTo join).bind fun _ => (isIdle_getBlock join).bind fun b => ?_
  by_cases hempty : b.isEmpty
  · simp only [hempty, if_true]
    exact isIdle_modifyBlock _ _
  · simp only [hempty]
    exact fun s => ⟨le_refl _, rfl⟩

/-- A name that cannot be looked up is a fault and no refusal. -/
theorem isIdle_resolve (names : Names) (access : Access) (name : String) :
    IsIdle (resolve names access name) := by
  intro s
  unfold resolve
  cases names.find access name with
  | error fault => exact ⟨le_refl _, rfl⟩
  | ok r => exact .refl s

theorem isIdle_readName (names : Names) (name : String) : IsIdle (readName names name) := by
  refine (isIdle_resolve names .read name).bind fun r => ?_
  cases r with
  | own => exact isIdle_emit _ _
  | localVar => exact isIdle_freshInstr.bind fun _ => .pure _
  | slot depth index => exact (isIdle_count _).bind fun _ => (isIdle_count _).bind fun _ => isIdle_emit _ _
  | global => exact (isIdle_constant _).bind fun _ => isIdle_emit _ _

theorem isIdle_storeContext (depth index : Nat) (value : Operand) : IsIdle (storeContext depth index value) :=
  (isIdle_count _).bind fun _ => (isIdle_count _).bind fun _ => isIdle_perform _ _

theorem isIdle_writeName (names : Names) (name : String) (value : Operand) :
    IsIdle (writeName names name value) := by
  refine (isIdle_resolve names .write name).bind fun r => ?_
  cases r with
  | localVar => exact (isIdle_bindLocal _ _).bind fun _ => .pure _
  | slot depth index => exact (isIdle_storeContext _ _ _).bind fun _ => .pure _
  | global | own => exact (isIdle_constant _).bind fun _ => (isIdle_perform _ _).bind fun _ => .pure _

theorem isIdle_loadParams (names : Names) (params : List String) (position : Nat) :
    IsIdle (loadParams names position params) := by
  induction params generalizing position with
  | nil => exact .pure ()
  | cons name rest ih =>
      exact (isIdle_count _).bind fun _ => (isIdle_emit _ _).bind fun _ =>
        (isIdle_writeName _ _ _).bind fun _ => ih _

theorem isIdle_clearVars (vars : List String) : IsIdle (clearVars vars) := by
  induction vars with
  | nil => exact .pure ()
  | cons name rest ih => exact (isIdle_literal _).bind fun _ => (isIdle_bindLocal _ _).bind fun _ => ih

/-- The prologue of a function opens no phi and finishes no graph. -/
theorem isIdle_prologue (names : Names) (scope : Scope) : IsIdle (prologue names scope) := by
  refine (isIdle_loadParams names scope.params 0).bind fun _ => ?_
  refine IsIdle.bind ?_ fun _ => isIdle_clearVars scope.vars
  cases scope.ownSlot with
  | none => exact .pure ()
  | some slot => exact (isIdle_emit _ _).bind fun _ => isIdle_storeContext _ _ _

theorem isIdle_pushArgs (arguments : List Operand) : IsIdle (pushArgs arguments) := by
  rw [pushArgs]
  induction arguments.reverse with
  | nil => exact .pure ()
  | cons argument rest ih => exact (isIdle_perform _ _).bind fun _ => ih

/-- A call opens no phi and lowers no function of its own. -/
theorem isIdle_call (function : Operand) {receiver : Build Operand} (hreceiver : IsIdle receiver)
    (arguments : List Operand) : IsIdle (call function receiver arguments) :=
  (isIdle_pushArgs _).bind fun _ => hreceiver.bind fun _ => (isIdle_count _).bind fun _ => isIdle_emit _ _

theorem isIdle_new (function : Operand) (arguments : List Operand) : IsIdle (new function arguments) :=
  (isIdle_pushArgs _).bind fun _ => (isIdle_count _).bind fun _ => isIdle_emit _ _

theorem isIdle_closeContinues (loop : Loop) (header : BlockId) : IsIdle (closeContinues loop header) := by
  unfold closeContinues
  cases loop.continues with
  | nil => exact isIdle_linkCurrent [header]
  | cons first _ => exact (isIdle_linkCurrent [first]).bind fun _ => isIdle_link _ _

/-! Accounts of runs. -/

variable {R : Function → Graph → Prop} {labels labels' : List (List String)} {a b : Account}

/-- The run of `m` from a builder bears the account out, and ends inside loops with the given labels. -/
def Settles (R : Function → Graph → Prop) (m : Build α) (s : Builder) (labels : List (List String))
    (a : Account) : Prop :=
  match m s with
  | .ok _ t => a.isSupported = true ∧ t.labels = labels ∧ a.Settled R s t
  | .error e t => s.supply ≤ t.supply ∧ (e.isRefusal = true → a.isSupported = false)

namespace Settles

variable {m : Build α} {f : α → Build β} {s t : Builder}

theorem ok (h : m.Settles R s labels a) {x : α} (hm : m s = .ok x t) :
    a.isSupported = true ∧ t.labels = labels ∧ a.Settled R s t := by
  rwa [Settles, hm] at h

theorem error (h : m.Settles R s labels a) {e : BuildError} (hm : m s = .error e t) :
    s.supply ≤ t.supply ∧ (e.isRefusal = true → a.isSupported = false) := by
  rwa [Settles, hm] at h

/-- The run of `m` goes on as that of `m'`, and up to there the first part of an account is borne out. -/
theorem after {m m' : Build α} (hm : m s = m' t) (hsupported : a.isSupported = true) (ha : a.Settled R s t)
    (h : m'.Settles R t labels b) : m.Settles R s labels (a ++ b) := by
  unfold Settles
  rw [hm]
  cases hrun : m' t with
  | error e u =>
      obtain ⟨hsupply, hrefusal⟩ := h.error hrun
      refine ⟨le_trans ha.supply hsupply, fun he => ?_⟩
      rw [Account.isSupported_append, hrefusal he, Bool.and_false]
  | ok y u =>
      obtain ⟨hb, hlabels, hsettled⟩ := h.ok hrun
      refine ⟨?_, hlabels, ha.trans hsettled⟩
      rw [Account.isSupported_append, hsupported, hb, Bool.and_true]

theorem bind (hm : m.Settles R s labels a)
    (hf : ∀ x t, t.labels = labels → (f x).Settles R t labels' b) :
    (m >>= f).Settles R s labels' (a ++ b) := by
  cases hrun : m s with
  | ok x t =>
      obtain ⟨ha, hlabels, hsettled⟩ := hm.ok hrun
      exact .after (bind_ok hrun) ha hsettled (hf x t hlabels)
  | error e t =>
      obtain ⟨hsupply, hrefusal⟩ := hm.error hrun
      unfold Settles
      rw [bind_error hrun]
      refine ⟨hsupply, fun he => ?_⟩
      rw [Account.isSupported_append, hrefusal he, Bool.false_and]

end Settles

/-- Run inside loops with the given labels, `m` bears the account out and is inside them again. -/
def Meets (R : Function → Graph → Prop) (labels : List (List String)) (m : Build α) (a : Account) : Prop :=
  ∀ s : Builder, s.labels = labels → m.Settles R s labels a

/-- Nothing to lower. -/
def idle : Account := ⟨true, 0, []⟩

theorem idle_append (a : Account) : idle ++ a = a := by
  ext1 <;> simp [idle]

theorem append_idle (a : Account) : a ++ idle = a := by
  ext1 <;> simp [idle]

theorem Idles.settled {s t : Builder} (h : Idles s t) : idle.Settled R s t where
  supply := h.supply
  phis hs := by
    refine ⟨fun phi hphi => ?_, by rw [h.phis]; rfl⟩
    rw [h.phis] at hphi
    exact Supply.drawn_mono h.supply (hs phi hphi)
  graphs := ⟨[], by rw [h.finished, List.append_nil], .nil⟩

/-- An idle step is settled by the empty account. -/
theorem IsIdle.settles {m : Build α} (h : IsIdle m) (s : Builder) : m.Settles R s s.labels idle := by
  unfold Settles
  cases hrun : m s with
  | error e t =>
      obtain ⟨hsupply, hrefusal⟩ := h.error hrun
      exact ⟨hsupply, fun he => absurd he (by simp [hrefusal])⟩
  | ok x t => exact ⟨rfl, by rw [Builder.labels, (h.ok hrun).loops]; rfl, (h.ok hrun).settled⟩

theorem IsIdle.meets {m : Build α} (h : IsIdle m) : Meets R labels m idle :=
  fun s hs => hs ▸ h.settles s

namespace Meets

variable {m : Build α} {f : α → Build β}

theorem pure (x : α) : Meets R labels (Pure.pure x : Build α) idle := (IsIdle.pure x).meets

theorem bind (hm : Meets R labels m a) (hf : ∀ x, Meets R labels (f x) b) :
    Meets R labels (m >>= f) (a ++ b) :=
  fun s hs => (hm s hs).bind fun x => hf x

/-- Idle steps before. -/
theorem before (hm : IsIdle m) (hf : ∀ x, Meets R labels (f x) a) : Meets R labels (m >>= f) a := by
  rw [← idle_append a]
  exact hm.meets.bind hf

/-- Idle steps behind. -/
theorem behind (hm : Meets R labels m a) (hf : ∀ x, IsIdle (f x)) : Meets R labels (m >>= f) a := by
  rw [← append_idle a]
  exact hm.bind fun x => (hf x).meets

theorem refuse {e : BuildError} (h : a.isSupported = false) : Meets R labels (fail e : Build α) a :=
  fun _ _ => ⟨le_refl _, fun _ => h⟩

theorem of_eq (h : Meets R labels m a) (hab : a = b) : Meets R labels m b := hab ▸ h

end Meets

/-! The block patterns. -/

variable {first second value test : Build Operand}

/-- Opening a phi is all that a merge adds to the account of its parts. -/
def opening : Account := ⟨true, 1, []⟩

/-- A phi is opened under an id that was just drawn, so it is a new one. -/
theorem settled_opening {s t : Builder} (h : Idles s.draw t) (join : BlockId) :
    opening.Settled R s (t.withPhis (t.phis.openPhi s.supply.nextInstr join)) where
  supply := le_trans (Supply.le_dropInstr _) h.supply
  phis hs := by
    have hentries : (t.phis.openPhi s.supply.nextInstr join).entries =
        s.phis.entries ++ [(s.supply.nextInstr, ⟨join, []⟩)] := by
      rw [h.phis]
      exact Phi.Entries.insert_of_notMem hs.notMem
    refine ⟨fun phi hphi => ?_, ?_⟩
    · change phi ∈ Phi.Entries.keys (t.phis.openPhi s.supply.nextInstr join).entries at hphi
      rw [hentries, Phi.Entries.keys, List.map_append, List.mem_append] at hphi
      rcases hphi with hphi | hphi
      · exact Supply.drawn_mono (le_trans (Supply.le_dropInstr _) h.supply) (hs phi hphi)
      · rw [List.mem_singleton.mp hphi]
        exact h.supply.1
    · change (t.phis.openPhi s.supply.nextInstr join).entries.length = _
      rw [hentries, List.length_append]
      rfl
  graphs := ⟨[], by rw [List.append_nil]; exact congrArg GraphQueue.graphs h.finished, .nil⟩

/-- A contribution changes an entry of the phi table and adds none. -/
theorem meets_contribute (phi : InstrId) (value : Operand) : Meets R labels (contribute phi value) idle := by
  intro s hs
  have hsteps : contribute phi value s = (Build.lift (s.phis.contribute phi s.current value) >>= fun recorder => do
      modify fun s => { s with phis := recorder }
      perform .toPhi [.instr phi, value]) s := rfl
  cases hfind : s.phis.entries.find? phi with
  | none =>
      have hfail : Build.lift (s.phis.contribute phi s.current value) s = .error (.unresolvedPhi phi) s := by
        rw [Phi.Recorder.contribute, hfind]
        rfl
      unfold Settles
      rw [hsteps, bind_error hfail]
      refine ⟨le_refl _, fun he => ?_⟩
      cases he
  | some entry =>
      generalize hinserted : s.phis.entries.insert phi ⟨entry.block, entry.inputs ++ [⟨s.current, value⟩]⟩ = entries
      have hrecord : Build.lift (s.phis.contribute phi s.current value) s = .ok ⟨entries⟩ s := by
        rw [Phi.Recorder.contribute, hfind, ← hinserted]
        rfl
      have hkeys : Phi.Entries.keys entries = Phi.Entries.keys s.phis.entries := by
        rw [← hinserted, Phi.Entries.keys_insert_of_find? hfind]
      have hsettled : idle.Settled R s (s.withPhis ⟨entries⟩) := by
        refine ⟨le_refl _, fun hdrawn => ⟨fun phi hphi => ?_, ?_⟩, [], (List.append_nil _).symm, .nil⟩
        · exact hdrawn phi (hkeys ▸ hphi)
        · change entries.length = s.phis.entries.length
          simpa [Phi.Entries.keys] using congrArg List.length hkeys
      rw [← idle_append idle]
      refine .after (hsteps.trans ((bind_ok hrecord).trans (bind_ok rfl))) rfl hsettled ?_
      exact hs ▸ (isIdle_perform _ _).settles _

theorem meets_arm (phi : InstrId) (join block : BlockId) (hvalue : Meets R labels value a) :
    Meets R labels (arm phi join block value) a := by
  refine .before (isIdle_switchTo block) fun _ => ?_
  rw [← append_idle a]
  exact hvalue.bind fun v => (meets_contribute phi v).behind fun _ => isIdle_linkCurrent [join]

/-- A merge opens one phi, before its arms open theirs. -/
theorem meets_merge (condition : Operand) (trueFirst : Bool) (hfirst : Meets R labels first a)
    (hsecond : Meets R labels second b) :
    Meets R labels (merge condition trueFirst first second) (opening ++ (a ++ b)) := by
  intro s hs
  cases hperform : perform .branch [condition] s.draw with
  | error e t =>
      obtain ⟨hsupply, hrefusal⟩ := (isIdle_perform _ _).error hperform
      have hrun : merge condition trueFirst first second s = .error e t :=
        (bind_ok freshInstr_eq).trans (bind_error hperform)
      unfold Settles
      rw [hrun]
      exact ⟨le_trans (Supply.le_dropInstr _) hsupply, fun he => absurd he (by simp [hrefusal])⟩
  | ok _ t =>
      have hidle : Idles s.draw t.alloc.alloc.alloc :=
        ((isIdle_perform _ _).ok hperform).trans
          ((isIdle_newBlock t).trans ((isIdle_newBlock t.alloc).trans (isIdle_newBlock t.alloc.alloc)))
      refine .after ((bind_ok freshInstr_eq).trans ((bind_ok hperform).trans ((bind_ok newBlock_eq).trans
        ((bind_ok newBlock_eq).trans ((bind_ok newBlock_eq).trans (bind_ok rfl)))))) rfl
        (settled_opening hidle _) ?_
      refine Meets.before (isIdle_linkCurrent _) (fun _ => ?_) _ ?_
      · refine (meets_arm _ _ _ hfirst).bind fun _ => (meets_arm _ _ _ hsecond).behind fun _ => ?_
        exact (isIdle_enterJoin _ _).bind fun _ => .pure _
      · exact (congrArg (List.map Loop.labels) hidle.loops).trans hs

/-- A branch of statements opens no phi of its own. -/
theorem meets_branch {c : Account} {consequent alternate : Build Unit} (htest : Meets R labels test c)
    (hconsequent : Meets R labels consequent a) (halternate : Meets R labels alternate b) :
    Meets R labels (branch test consequent alternate) (c ++ (a ++ b)) := by
  refine htest.bind fun v => .before (isIdle_perform _ _) fun _ => .before isIdle_newBlock fun onTrue => ?_
  refine .before isIdle_newBlock fun onFalse => .before isIdle_newBlock fun join => ?_
  refine .before (isIdle_linkCurrent _) fun _ => .before (isIdle_switchTo onTrue) fun _ => ?_
  refine hconsequent.bind fun _ => .before (isIdle_fallThrough join) fun _ => ?_
  refine .before (isIdle_switchTo onFalse) fun _ => halternate.behind fun _ => ?_
  exact (isIdle_fallThrough join).bind fun _ => isIdle_switchTo join

theorem settled_withLoops (s : Builder) (loops : List Loop) : idle.Settled R s (s.withLoops loops) :=
  ⟨le_refl _, fun hdrawn => ⟨hdrawn, rfl⟩, [], (List.append_nil _).symm, .nil⟩

/-- What is lowered inside a loop has the labels of the loop around it. -/
theorem meets_inLoop {own : List String} {loop : Loop} {entry : BlockId} {body : Build Unit} {f : Loop → Build β}
    (hown : loop.labels = own) (hbody : Meets R (own :: labels) body a) (hf : ∀ l, Meets R labels (f l) b) :
    Meets R labels (pushLoop loop >>= fun _ => switchTo entry >>= fun _ => body >>= fun _ => popLoop >>= f)
      (a ++ b) := by
  intro s hs
  have hpush : pushLoop loop s = .ok () (s.withLoops (loop :: s.loops)) := rfl
  have hlabels : (s.withLoops (loop :: s.loops)).labels = own :: labels := by
    rw [← hown, ← hs]
    rfl
  rw [← idle_append (a ++ b)]
  refine .after (bind_ok hpush) rfl (settled_withLoops s _) ?_
  rw [← idle_append (a ++ b)]
  refine (hlabels ▸ (isIdle_switchTo entry).settles _).bind fun _ t ht => ?_
  refine (hbody t ht).bind fun _ u hu => ?_
  obtain ⟨frame, outer, hloops, _, houter⟩ := List.map_eq_cons_iff.mp hu
  have hpop : popLoop u = .ok frame (u.withLoops outer) := by
    rw [popLoop, hloops]
    rfl
  rw [← idle_append b]
  exact .after (bind_ok hpop) rfl (settled_withLoops u outer) (hf frame _ houter)

/-- The labels of the loop hold for its body alone, not for the test or the update. -/
theorem meets_loop {c : Account} {own : List String} {testFirst : Bool} {update body : Build Unit}
    (htest : Meets R labels test c) (hbody : Meets R (own :: labels) body a)
    (hupdate : Meets R labels update b) :
    Meets R labels (loop own testFirst test update body) (c ++ (a ++ b)) := by
  refine .before isIdle_newBlock fun continueEntry => .before isIdle_newBlock fun breakEntry => ?_
  refine .before isIdle_newBlock fun header => .before isIdle_newBlock fun testBlock => ?_
  refine .before isIdle_newBlock fun bodyBlock => .before (isIdle_linkCurrent _) fun _ => ?_
  refine .before (isIdle_link _ _) fun _ => .before (isIdle_switchTo testBlock) fun _ => ?_
  refine htest.bind fun v => .before (isIdle_perform _ _) fun _ => .before (isIdle_linkCurrent _) fun _ => ?_
  refine meets_inLoop rfl hbody fun l => ?_
  refine .before (isIdle_fallThrough _) fun _ => .before (isIdle_switchTo _) fun _ => hupdate.behind fun _ => ?_
  exact (isIdle_closeContinues _ _).bind fun _ => isIdle_newBlock.bind fun after =>
    (isIdle_link _ _).bind fun _ => isIdle_switchTo after

theorem isIdle_extendChain (kind : Jump) (loop : Loop) (join : BlockId) :
    IsIdle (extendChain kind loop join) := by
  rw [extendChain_eq_ite]
  split
  · exact (isIdle_link _ _).bind fun _ => .pure _
  · split
    · exact .pure _
    · exact fun s => ⟨le_refl s.supply, rfl⟩

/-- A jump changes the chains of its loop and not its labels. -/
theorem extendChain_labels {kind : Jump} {loop loop' : Loop} {join : BlockId} {s t : Builder}
    (h : extendChain kind loop join s = .ok loop' t) : loop'.labels = loop.labels := by
  rw [extendChain_eq_ok h]
  cases kind <;> rfl

/-- A jump is refused if no loop around it has its label. -/
theorem meets_jump (kind : Jump) (label : Option String) :
    Meets R labels (jump kind label) ⟨labels.any (selects label), 0, []⟩ := by
  intro s hs
  have hany : labels.any (selects label) = s.loops.any fun l => l.accepts label := by
    rw [← hs, Builder.labels, List.any_map]
    refine congrArg (List.any s.loops) (funext fun l => ?_)
    exact (Loop.accepts_eq_selects label l).symm
  have hget : (get : Build Builder) s = .ok s s := rfl
  have hsplit := @List.takeWhile_append_dropWhile _ (fun loop : Loop => !loop.accepts label) s.loops
  cases hdrop : s.loops.dropWhile fun loop => !loop.accepts label with
  | nil =>
      have hnone : labels.any (selects label) = false := by
        rw [hany, List.any_eq_false]
        simpa using List.dropWhile_eq_nil_iff.mp hdrop
      have hsteps : jump kind label s = fail (.unresolvedJump kind label) s := by
        rw [jump, bind_ok hget]
        simp only [hdrop]
      unfold Settles
      rw [hsteps]
      exact ⟨le_refl _, fun _ => hnone⟩
  | cons loop outer =>
      have haccepts : loop.accepts label = true := by
        have hhead := List.head?_dropWhile_not (fun loop : Loop => !loop.accepts label) s.loops
        rw [hdrop] at hhead
        simpa using hhead
      rw [hdrop] at hsplit
      have hsome : labels.any (selects label) = true := by
        rw [hany, ← hsplit, List.any_append, List.any_cons, haccepts, Bool.true_or, Bool.or_true]
      have hsteps : jump kind label s = (do
          let join ← newBlock
          linkCurrent [join]
          let loop ← extendChain kind loop join
          setLoops ((s.loops.takeWhile fun loop => !loop.accepts label) ++ loop :: outer) : Build Unit) s := by
        rw [jump, bind_ok hget]
        simp only [hdrop]
      rw [hsome]
      unfold Settles
      rw [hsteps]
      refine Meets.before isIdle_newBlock (fun join => .before (isIdle_linkCurrent [join]) fun _ t ht => ?_) s hs
      -- The loop keeps its labels, whatever block is added to its chains.
      cases hextend : extendChain kind loop join t with
      | error e u =>
          obtain ⟨hsupply, hrefusal⟩ := (isIdle_extendChain _ _ _).error hextend
          unfold Settles
          rw [bind_error hextend]
          exact ⟨hsupply, fun he => absurd he (by simp [hrefusal])⟩
      | ok loop' u =>
          rw [← idle_append ⟨true, 0, []⟩]
          refine .after (bind_ok hextend) rfl ((isIdle_extendChain _ _ _).ok hextend).settled ?_
          refine ⟨rfl, ?_, settled_withLoops u _⟩
          calc ((s.loops.takeWhile fun loop => !loop.accepts label) ++ loop' :: outer).map Loop.labels
              = ((s.loops.takeWhile fun loop => !loop.accepts label) ++ loop :: outer).map Loop.labels := by
                rw [List.map_append, List.map_append, List.map_cons, List.map_cons, extendChain_labels hextend]
            _ = s.labels := congrArg (List.map Loop.labels) hsplit
            _ = labels := hs

/-- A graph has one phi for each merge of its body. -/
theorem size_phis_of_inNewGraph {name : Option String} {body : Build Unit} (hbody : Meets R [] body a)
    {s t : Builder} {g : Graph} (h : inNewGraph name body s = .ok g t) : g.phis.size = a.merges := by
  obtain ⟨t, hrun, hfinish, _⟩ := inNewGraph_eq_ok h
  obtain ⟨_, _, hsettled⟩ := (hbody s.nested rfl).ok hrun
  rw [Phi.Table.size, Phi.Recorder.finish_entries hfinish, (hsettled.phis fun _ h => nomatch h).2]
  exact Nat.zero_add _

/-- The graph around a nested function keeps its phis. -/
theorem settles_inNewGraph {name : Option String} {body : Build Unit} (hbody : Meets R [] body a) (s : Builder) :
    (inNewGraph name body).Settles R s s.labels ⟨a.isSupported, 0, a.functions⟩ := by
  have hnested : s.supply ≤ s.nested.supply := Supply.le_dropBlock _
  unfold Settles
  cases hrun : body s.nested with
  | error e t =>
      obtain ⟨hsupply, hrefusal⟩ := (hbody s.nested rfl).error hrun
      rw [inNewGraph_error hrun]
      exact ⟨le_trans hnested hsupply, hrefusal⟩
  | ok _ t =>
      obtain ⟨hsupported, _, hsettled⟩ := (hbody s.nested rfl).ok hrun
      have hsupply := le_trans hnested hsettled.supply
      rw [inNewGraph_of_ok hrun]
      cases hfinish : t.phis.finish with
      | error e =>
          have hrefusal : e.isRefusal = false := by
            obtain ⟨_, _, _, _, _, rfl, _⟩ := Phi.Recorder.finish_eq_error hfinish
            rfl
          exact ⟨hsupply, fun he => absurd he (by simp [hrefusal])⟩
      | ok table =>
          refine ⟨hsupported, rfl, hsupply, fun hdrawn => ⟨fun phi hphi => ?_, rfl⟩, hsettled.graphs⟩
          exact Supply.drawn_mono hsupply (hdrawn phi hphi)

/-- The graph of a nested function comes after those of the functions inside it. -/
theorem meets_nested {name : Option String} {body : Build Unit} {fn : Function} (hbody : Meets R [] body a)
    (hR : ∀ {s g t}, inNewGraph name body s = .ok g t → R fn g) :
    Meets R labels (inNewGraph name body >>= functionValue) ⟨a.isSupported, 0, a.functions ++ [fn]⟩ := by
  intro s hs
  have hgraph := @settles_inNewGraph _ _ name _ hbody s
  cases hrun : inNewGraph name body s with
  | error e t =>
      unfold Settles
      rw [bind_error hrun]
      exact hgraph.error hrun
  | ok g t =>
      obtain ⟨hsupported, hlabels, hsettled⟩ := hgraph.ok hrun
      have hqueue : Account.Settled R ⟨true, 0, [fn]⟩ t { t with finished := t.finished.push g } :=
        ⟨le_refl _, fun hdrawn => ⟨hdrawn, rfl⟩, [g], rfl, .cons (hR hrun) .nil⟩
      have hparts : (⟨a.isSupported, 0, a.functions ++ [fn]⟩ : Account) =
          ⟨a.isSupported, 0, a.functions⟩ ++ ⟨true, 0, [fn]⟩ ++ idle := by
        rw [append_idle]
        exact Account.ext (Bool.and_true _).symm rfl rfl
      rw [hparts]
      refine .after ((bind_ok hrun).trans (bind_ok rfl)) (Bool.and_eq_true_iff.mpr ⟨hsupported, rfl⟩)
        (hsettled.trans hqueue) ?_
      exact hs ▸ hlabels ▸ ((isIdle_blockRef _).bind fun _ => isIdle_emit _ _).settles _

end Build

end ScriptSsa
