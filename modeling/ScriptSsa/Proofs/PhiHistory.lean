import Mathlib.Data.List.Induction
import ScriptSsa.Proofs.PhiRecord

/-!
The phi record and its history.

A recorder is told by one request after the other which phis are open and what flows into them, and a request may
fail. What the recorder holds can be read off the requests alone: each opened phi has one entry, the entries stand in
the order of first opening, and an entry has the block of the phi's last opening and what has come in since. So a phi
that is opened again keeps its position and loses its inputs, and a contribution to a phi that was never opened
leaves no mark.
-/

namespace ScriptSsa.Phi

/-- What a recorder can be asked to do. -/
inductive Request where
  | openPhi (phi : InstrId) (block : BlockId)
  | contribute (phi : InstrId) (source : BlockId) (value : Operand)
deriving DecidableEq, Repr

namespace Request

/-- Carries the request out. A request that fails leaves a recorder behind as well. -/
def run : Request → EStateM BuildError Recorder Unit
  | openPhi phi block => fun recorder => .ok () (recorder.openPhi phi block)
  | contribute phi source value => fun recorder =>
    match recorder.contribute phi source value with
    | .ok next => .ok () next
    | .error e => .error e recorder

def opens (phi : InstrId) : Request → Bool
  | openPhi key _ => key = phi
  | contribute _ _ _ => false

/-- What the request contributes to the phi. -/
def input? (phi : InstrId) : Request → Option Input
  | openPhi _ _ => none
  | contribute key source value => if key = phi then some ⟨source, value⟩ else none

variable {recorder : Recorder} {phi : InstrId} {source : BlockId} {value : Operand} {entry : Entry}

theorem run_contribute_of_some (h : recorder.entries.find? phi = some entry) :
    (contribute phi source value).run recorder =
      .ok () ⟨recorder.entries.insert phi ⟨entry.block, entry.inputs ++ [⟨source, value⟩]⟩⟩ := by
  simp only [run, Recorder.contribute, h]

theorem run_contribute_of_none (h : recorder.entries.find? phi = none) :
    (contribute phi source value).run recorder = .error (.unresolvedPhi phi) recorder := by
  simp only [run, Recorder.contribute, h]

end Request

/-- The recorder after a request, whether it succeeds or fails. -/
def Recorder.after (recorder : Recorder) (request : Request) : Recorder :=
  match request.run recorder with
  | .ok _ next => next
  | .error _ next => next

/-- Requests in the order in which they are made. -/
abbrev History := List Request

namespace History

/-- What the requests make of an empty recorder. -/
def recorder (history : History) : Recorder := history.foldl Recorder.after .empty

def Opened (history : History) (phi : InstrId) : Prop := ∃ block, .openPhi phi block ∈ history

/-- How many requests there are before the first one that opens the phi. -/
def firstOpened (history : History) (phi : InstrId) : Nat := history.findIdx (Request.opens phi)

/-- The phi was last opened for the block, and the requests `since` were made after that. -/
def LastOpened (history : History) (phi : InstrId) (block : BlockId) (since : History) : Prop :=
  ∃ before, history = before ++ .openPhi phi block :: since ∧ ¬ since.Opened phi

/-- What is contributed to a phi, in order. -/
def inputs (history : History) (phi : InstrId) : List Input := history.filterMap (Request.input? phi)

/-- The phi is open, and nothing was contributed to it after it was last opened. -/
def Unfed (history : History) (phi : InstrId) : Prop :=
  ∃ block since, history.LastOpened phi block since ∧ ∀ source value, .contribute phi source value ∉ since

/-- Of the unfed phis this one was opened first. -/
def FirstUnfed (history : History) (phi : InstrId) : Prop :=
  history.Unfed phi ∧ ∀ other, history.Unfed other → other ≠ phi → history.firstOpened phi < history.firstOpened other

variable {history later since since' : History} {phi key : InstrId} {block block' source : BlockId} {value : Operand}
  {request : Request}

theorem recorder_append : (history ++ [request]).recorder = history.recorder.after request := by
  rw [recorder, List.foldl_append]
  rfl

@[simp] theorem opened_append : (history ++ later).Opened phi ↔ history.Opened phi ∨ later.Opened phi := by
  simp only [Opened, List.mem_append, exists_or]

@[simp] theorem opened_openPhi : Opened [.openPhi phi block] key ↔ key = phi := by
  simp [Opened]

@[simp] theorem opened_contribute : ¬ Opened [.contribute phi source value] key := by
  simp [Opened]

theorem firstOpened_lt_length : history.firstOpened phi < history.length ↔ history.Opened phi := by
  rw [firstOpened, List.findIdx_lt_length]
  constructor
  · rintro ⟨request, hmem, hopens⟩
    cases request with
    | openPhi key block =>
        obtain rfl : key = phi := of_decide_eq_true hopens
        exact ⟨block, hmem⟩
    | contribute => cases hopens
  · rintro ⟨block, hmem⟩
    exact ⟨_, hmem, decide_eq_true rfl⟩

instance (history : History) (phi : InstrId) : Decidable (history.Opened phi) :=
  decidable_of_iff _ firstOpened_lt_length

theorem firstOpened_append : (history ++ later).firstOpened phi =
    if history.firstOpened phi < history.length then history.firstOpened phi
    else later.firstOpened phi + history.length :=
  List.findIdx_append

/-- What is done later does not change when a phi was first opened. -/
theorem firstOpened_append_of_opened (h : history.Opened phi) (later : History) :
    (history ++ later).firstOpened phi = history.firstOpened phi := by
  rw [firstOpened_append, if_pos (firstOpened_lt_length.mpr h)]

theorem firstOpened_openPhi (h : ¬ history.Opened phi) :
    (history ++ [Request.openPhi phi block]).firstOpened phi = history.length := by
  have hfirst : firstOpened [.openPhi phi block] phi = 0 := by simp [firstOpened, Request.opens]
  rw [firstOpened_append, if_neg (mt firstOpened_lt_length.mp h), hfirst, Nat.zero_add]

theorem lastOpened_openPhi : (history ++ [Request.openPhi phi block]).LastOpened phi block [] :=
  ⟨history, rfl, by simp [Opened]⟩

theorem LastOpened.opened (h : history.LastOpened phi block since) : history.Opened phi := by
  obtain ⟨before, rfl, _⟩ := h
  exact ⟨block, by simp⟩

theorem LastOpened.append (h : history.LastOpened phi block since) (hlater : ¬ later.Opened phi) :
    (history ++ later).LastOpened phi block (since ++ later) := by
  obtain ⟨before, rfl, hsince⟩ := h
  exact ⟨before, by simp, by simp [hsince, hlater]⟩

/-- Nothing lies between a last opening and an opening that does not come before it. -/
theorem eq_nil_of_not_opened {gap : History} (hsince : ¬ since.Opened phi)
    (heq : Request.openPhi phi block :: since = gap ++ .openPhi phi block' :: since') : gap = [] := by
  cases gap with
  | nil => rfl
  | cons first gap =>
      have hmem : Request.openPhi phi block' ∈ since := by
        rw [(List.cons.inj heq).2]
        simp
      exact absurd ⟨block', hmem⟩ hsince

/-- There is one last opening. -/
theorem LastOpened.unique (h : history.LastOpened phi block since) (h' : history.LastOpened phi block' since') :
    block = block' ∧ since = since' := by
  obtain ⟨before, rfl, hsince⟩ := h
  obtain ⟨before', heq, hsince'⟩ := h'
  -- either opening may be the earlier one; then the gap between them is empty
  rcases List.append_eq_append_iff.mp heq with ⟨gap, rfl, hrest⟩ | ⟨gap, rfl, hrest⟩
  · obtain rfl := eq_nil_of_not_opened hsince hrest
    simpa using hrest
  · obtain rfl := eq_nil_of_not_opened hsince' hrest
    simpa [eq_comm] using hrest

@[simp] theorem inputs_append : (history ++ later).inputs phi = history.inputs phi ++ later.inputs phi :=
  List.filterMap_append

@[simp] theorem inputs_openPhi : inputs [.openPhi phi block] key = [] := rfl

@[simp] theorem inputs_contribute :
    inputs [.contribute phi source value] key = if phi = key then [⟨source, value⟩] else [] := by
  by_cases h : phi = key <;> simp [inputs, Request.input?, h]

theorem inputs_eq_nil_iff : history.inputs phi = [] ↔ ∀ source value, .contribute phi source value ∉ history := by
  rw [inputs, List.filterMap_eq_nil_iff]
  constructor
  · intro h source value hmem
    simpa [Request.input?] using h _ hmem
  · intro h request hmem
    cases request with
    | openPhi => rfl
    | contribute key source value =>
        have hne : key ≠ phi := by
          rintro rfl
          exact h source value hmem
        simp [Request.input?, hne]

theorem FirstUnfed.unique {phi' : InstrId} (h : history.FirstUnfed phi) (h' : history.FirstUnfed phi') :
    phi = phi' := by
  by_contra hne
  have hlt := h.2 phi' h'.1 (Ne.symm hne)
  have hlt' := h'.2 phi h.1 hne
  omega

end History

/-- The entries say what the history comes to. -/
structure Entries.Summarizes (entries : Entries) (history : History) : Prop where
  /-- The phis with an entry are those that were opened. -/
  opened : ∀ phi, phi ∈ entries.keys ↔ history.Opened phi
  /-- No phi has two entries, and they stand in the order of first opening. -/
  ordered : entries.keys.Pairwise fun phi other => history.firstOpened phi < history.firstOpened other
  /-- An entry is as the last opening and the contributions since then have made it. -/
  entry : ∀ phi entry, (phi, entry) ∈ entries →
    ∃ since, history.LastOpened phi entry.block since ∧ entry.inputs = since.inputs phi

namespace Entries.Summarizes

variable {entries entries' : Entries} {history : History} {phi : InstrId} {block source : BlockId} {value : Operand}
  {old : Entry}

theorem nodup (h : entries.Summarizes history) : entries.keys.Nodup := by
  apply h.ordered.imp
  intro phi other hlt heq
  rw [heq] at hlt
  omega

theorem ordered_entries (h : entries.Summarizes history) :
    entries.Pairwise fun e other => history.firstOpened e.1 < history.firstOpened other.1 := by
  have hordered := h.ordered
  rwa [keys, List.pairwise_map] at hordered

/-- The order stays what it was, whatever is asked next. -/
theorem ordered_append (h : entries.Summarizes history) (later : History) :
    entries.keys.Pairwise fun phi other => (history ++ later).firstOpened phi < (history ++ later).firstOpened other :=
  h.ordered.imp_of_mem fun {phi other} hphi hother hlt => by
    rwa [History.firstOpened_append_of_opened ((h.opened phi).mp hphi),
      History.firstOpened_append_of_opened ((h.opened other).mp hother)]

theorem openPhi (h : entries.Summarizes history) :
    (entries.insert phi ⟨block, []⟩).Summarizes (history ++ [Request.openPhi phi block]) where
  opened key := by
    rw [keys_insert, History.opened_append, History.opened_openPhi, ← h.opened key]
    by_cases hphi : phi ∈ entries.keys
    · rw [if_pos hphi]
      exact ⟨.inl, fun hkey => hkey.elim id fun heq => heq ▸ hphi⟩
    · rw [if_neg hphi, List.mem_append, List.mem_singleton]
  ordered := by
    have hold := h.ordered_append [Request.openPhi phi block]
    rw [keys_insert]
    by_cases hphi : phi ∈ entries.keys
    · rw [if_pos hphi]
      exact hold
    · rw [if_neg hphi]
      refine List.pairwise_append.mpr ⟨hold, List.pairwise_singleton _ _, fun key hkey other hother => ?_⟩
      have hopened := (h.opened key).mp hkey
      rw [List.mem_singleton.mp hother, History.firstOpened_append_of_opened hopened,
        History.firstOpened_openPhi (mt (h.opened phi).mpr hphi)]
      exact History.firstOpened_lt_length.mpr hopened
  entry key entry hmem := by
    rw [mem_insert_iff h.nodup] at hmem
    by_cases heq : key = phi
    · rw [if_pos heq] at hmem
      rw [heq, hmem]
      exact ⟨[], History.lastOpened_openPhi, rfl⟩
    · rw [if_neg heq] at hmem
      obtain ⟨since, hlast, hinputs⟩ := h.entry key entry hmem
      have hother : ¬ History.Opened [.openPhi phi block] key := mt History.opened_openPhi.mp heq
      exact ⟨_, hlast.append hother, by simp [hinputs]⟩

/-- A contribution opens no phi. -/
theorem contribute_of_entry (h : entries.Summarizes history) (hkeys : entries'.keys = entries.keys)
    (hentry : ∀ key entry, (key, entry) ∈ entries' → ∃ since,
      (history ++ [Request.contribute phi source value]).LastOpened key entry.block since ∧
        entry.inputs = since.inputs key) :
    entries'.Summarizes (history ++ [Request.contribute phi source value]) where
  opened key := by
    rw [hkeys, h.opened key]
    simp
  ordered := hkeys ▸ h.ordered_append _
  entry := hentry

theorem contribute (h : entries.Summarizes history) (hold : entries.find? phi = some old) :
    (entries.insert phi ⟨old.block, old.inputs ++ [⟨source, value⟩]⟩).Summarizes
      (history ++ [Request.contribute phi source value]) := by
  refine h.contribute_of_entry (keys_insert_of_find? hold) fun key entry hmem => ?_
  rw [mem_insert_iff h.nodup] at hmem
  by_cases heq : key = phi
  · rw [if_pos heq] at hmem
    obtain ⟨since, hlast, hinputs⟩ := h.entry phi old (mem_of_find? hold)
    rw [heq, hmem]
    exact ⟨_, hlast.append History.opened_contribute, by simp [hinputs]⟩
  · rw [if_neg heq] at hmem
    obtain ⟨since, hlast, hinputs⟩ := h.entry key entry hmem
    exact ⟨_, hlast.append History.opened_contribute, by simp [hinputs, Ne.symm heq]⟩

theorem refuse (h : entries.Summarizes history) (hnew : ¬ history.Opened phi) :
    entries.Summarizes (history ++ [Request.contribute phi source value]) := by
  refine h.contribute_of_entry rfl fun key entry hmem => ?_
  obtain ⟨since, hlast, hinputs⟩ := h.entry key entry hmem
  have hne : phi ≠ key := by
    rintro rfl
    exact hnew hlast.opened
  exact ⟨_, hlast.append History.opened_contribute, by simp [hinputs, hne]⟩

theorem opened_iff_find? (h : entries.Summarizes history) :
    history.Opened phi ↔ ∃ entry, entries.find? phi = some entry :=
  (h.opened phi).symm.trans mem_keys_iff

/-- One request, whether it succeeds or fails. -/
theorem after {recorder : Recorder} (h : recorder.entries.Summarizes history) (request : Request) :
    (recorder.after request).entries.Summarizes (history ++ [request]) := by
  cases request with
  | openPhi phi block => exact h.openPhi
  | contribute phi source value =>
      cases hfind : recorder.entries.find? phi with
      | none =>
          have hnew : ¬ history.Opened phi := by simp [h.opened_iff_find?, hfind]
          rw [Recorder.after, Request.run_contribute_of_none hfind]
          exact h.refuse hnew
      | some old =>
          rw [Recorder.after, Request.run_contribute_of_some hfind]
          exact h.contribute hfind

theorem unfed_iff (h : entries.Summarizes history) :
    history.Unfed phi ↔ ∃ entry, (phi, entry) ∈ entries ∧ entry.inputs = [] := by
  constructor
  · rintro ⟨block, since, hlast, hnone⟩
    obtain ⟨entry, hfind⟩ := h.opened_iff_find?.mp hlast.opened
    obtain ⟨since', hlast', hinputs⟩ := h.entry phi entry (mem_of_find? hfind)
    obtain ⟨_, rfl⟩ := hlast.unique hlast'
    exact ⟨entry, mem_of_find? hfind, hinputs.trans (History.inputs_eq_nil_iff.mpr hnone)⟩
  · rintro ⟨entry, hmem, hempty⟩
    obtain ⟨since, hlast, hinputs⟩ := h.entry phi entry hmem
    exact ⟨entry.block, since, hlast, History.inputs_eq_nil_iff.mp (hinputs.symm.trans hempty)⟩

theorem subset (h : entries.Summarizes history) (h' : entries'.Summarizes history) : entries ⊆ entries' := by
  rintro ⟨phi, entry⟩ hmem
  obtain ⟨since, hlast, hinputs⟩ := h.entry phi entry hmem
  obtain ⟨entry', hfind⟩ := h'.opened_iff_find?.mp hlast.opened
  obtain ⟨since', hlast', hinputs'⟩ := h'.entry phi entry' (mem_of_find? hfind)
  obtain ⟨hblock, rfl⟩ := hlast.unique hlast'
  have heq : entry = entry' := by
    obtain ⟨block, inputs⟩ := entry
    obtain ⟨block', inputs'⟩ := entry'
    exact congrArg₂ Entry.mk hblock (hinputs.trans hinputs'.symm)
  exact heq ▸ mem_of_find? hfind

/-- A history has one summary. -/
theorem unique (h : entries.Summarizes history) (h' : entries'.Summarizes history) : entries = entries' := by
  have hperm : entries.Perm entries' := (List.perm_ext_iff_of_nodup h.nodup.of_map h'.nodup.of_map).mpr fun e =>
    ⟨fun he => h.subset h' he, fun he => h'.subset h he⟩
  refine hperm.eq_of_pairwise (fun e other _ _ hlt hlt' => ?_) h.ordered_entries h'.ordered_entries
  omega

section Recorder

variable {recorder recorder' : Recorder} {error : BuildError} {table : Table}

theorem run_contribute_eq_error_iff (h : recorder.entries.Summarizes history) :
    (Request.contribute phi source value).run recorder = .error error recorder' ↔
      ¬ history.Opened phi ∧ error = .unresolvedPhi phi ∧ recorder' = recorder := by
  rw [h.opened_iff_find?]
  cases hfind : recorder.entries.find? phi with
  | none => simp [Request.run_contribute_of_none hfind, eq_comm]
  | some entry => simp [Request.run_contribute_of_some hfind]

theorem firstUnfed_of_finish (h : recorder.entries.Summarizes history) (hfinish : recorder.finish = .error error) :
    ∃ phi, error = .unresolvedPhi phi ∧ history.FirstUnfed phi := by
  obtain ⟨before, phi, entry, after, hentries, herror, hempty, hbefore⟩ := Recorder.finish_eq_error hfinish
  have hmem : (phi, entry) ∈ recorder.entries := by simp [hentries]
  refine ⟨phi, herror, h.unfed_iff.mpr ⟨entry, hmem, hempty⟩, fun other hother hne => ?_⟩
  obtain ⟨entry', hmem', hempty'⟩ := h.unfed_iff.mp hother
  have hafter : (other, entry') ∈ after := by
    rw [hentries, List.mem_append, List.mem_cons] at hmem'
    rcases hmem' with hmem' | heq | hmem'
    · exact absurd hempty' (hbefore _ hmem')
    · exact absurd (congrArg Prod.fst heq) hne
    · exact hmem'
  have hordered := h.ordered_entries
  rw [hentries, List.pairwise_append, List.pairwise_cons] at hordered
  exact hordered.2.1.1 _ hafter

theorem finish_eq_error_iff (h : recorder.entries.Summarizes history) :
    recorder.finish = .error error ↔ ∃ phi, error = .unresolvedPhi phi ∧ history.FirstUnfed phi := by
  refine ⟨h.firstUnfed_of_finish, ?_⟩
  rintro ⟨phi, rfl, hfirst⟩
  cases hfinish : recorder.finish with
  | ok table =>
      obtain ⟨entry, hmem, hempty⟩ := h.unfed_iff.mp hfirst.1
      exact absurd hempty ((Recorder.finish_eq_ok_iff.mp hfinish).2 _ hmem)
  | error error =>
      obtain ⟨phi', rfl, hfirst'⟩ := h.firstUnfed_of_finish hfinish
      rw [hfirst.unique hfirst']

theorem finish_eq_ok_iff (h : recorder.entries.Summarizes history) :
    recorder.finish = .ok table ↔ (∀ phi, ¬ history.Unfed phi) ∧ table.entries.Summarizes history := by
  have hfed : (∀ e ∈ recorder.entries, e.2.inputs ≠ []) ↔ ∀ phi, ¬ history.Unfed phi := by
    simp [h.unfed_iff]
  rw [Recorder.finish_eq_ok_iff, hfed, and_comm]
  exact and_congr_right fun _ => ⟨fun heq => heq ▸ h, fun htable => htable.unique h⟩

theorem finish_fails_iff (h : recorder.entries.Summarizes history) :
    (∃ error, recorder.finish = .error error) ↔ ∃ phi, history.Unfed phi := by
  constructor
  · rintro ⟨error, hfinish⟩
    obtain ⟨phi, _, hfirst⟩ := h.firstUnfed_of_finish hfinish
    exact ⟨phi, hfirst.1⟩
  · rintro ⟨phi, hunfed⟩
    cases hfinish : recorder.finish with
    | ok table => exact absurd hunfed ((h.finish_eq_ok_iff.mp hfinish).1 phi)
    | error error => exact ⟨error, rfl⟩

end Recorder

end Entries.Summarizes

/-- The recorder's entries sum up the requests that were made. -/
theorem History.summarizes_recorder (history : History) : history.recorder.entries.Summarizes history := by
  induction history using List.reverseRecOn with
  | nil => exact ⟨by simp [Opened, recorder, Recorder.empty, Entries.keys], .nil, fun _ _ h => by cases h⟩
  | append_singleton history request ih =>
      rw [recorder_append]
      exact ih.after request

/-- What a recorder does after any requests, failed ones included, is told by their history. A contribution fails if and
only if its phi was never opened, and then the recorder stays as it is. Finishing fails if and only if some opened phi
was given nothing after its last opening, and the error names the one of these that was opened first. Otherwise the
table is the summary of the history. -/
theorem recorder_refines_history (history : History) :
    (∀ phi source value error after,
      (Request.contribute phi source value).run history.recorder = .error error after ↔
        ¬ history.Opened phi ∧ error = .unresolvedPhi phi ∧ after = history.recorder) ∧
    ((∃ error, history.recorder.finish = .error error) ↔ ∃ phi, history.Unfed phi) ∧
    (∀ error, history.recorder.finish = .error error ↔
      ∃ phi, error = .unresolvedPhi phi ∧ history.FirstUnfed phi) ∧
    ∀ table, history.recorder.finish = .ok table ↔
      (∀ phi, ¬ history.Unfed phi) ∧ table.entries.Summarizes history := by
  have h := history.summarizes_recorder
  exact ⟨fun _ _ _ _ _ => h.run_contribute_eq_error_iff, h.finish_fails_iff, fun _ => h.finish_eq_error_iff,
    fun _ => h.finish_eq_ok_iff⟩

/-- The phi that was opened first is opened again after it got a value, and one that is not open is given a value. -/
def reopening : History :=
  [.contribute ⟨9⟩ ⟨0⟩ (.instr ⟨1⟩), .openPhi ⟨4⟩ ⟨3⟩, .contribute ⟨4⟩ ⟨1⟩ (.instr ⟨2⟩), .openPhi ⟨2⟩ ⟨5⟩,
    .openPhi ⟨4⟩ ⟨6⟩]

def completion : History :=
  [.contribute ⟨2⟩ ⟨4⟩ (.localVar "x"), .contribute ⟨4⟩ ⟨1⟩ (.instr ⟨7⟩), .contribute ⟨9⟩ ⟨2⟩ (.instr ⟨1⟩),
    .contribute ⟨4⟩ ⟨2⟩ (.localVar "a")]

def completed : Table :=
  ⟨[(⟨4⟩, ⟨⟨6⟩, [⟨⟨1⟩, .instr ⟨7⟩⟩, ⟨⟨2⟩, .localVar "a"⟩]⟩), (⟨2⟩, ⟨⟨5⟩, [⟨⟨4⟩, .localVar "x"⟩]⟩)]⟩

/-- Both phis are unfed at first. The one in the error is the one that was opened first, though its last opening is the
later one. -/
theorem recorder_refines_history_reopened :
    reopening.recorder.finish = .error (.unresolvedPhi ⟨4⟩) ∧ reopening.FirstUnfed ⟨4⟩ ∧
    (∀ source value, (Request.contribute ⟨9⟩ source value).run reopening.recorder =
      .error (.unresolvedPhi ⟨9⟩) reopening.recorder) ∧
    (reopening ++ completion).recorder.finish = .ok completed ∧
    completed.entries.Summarizes (reopening ++ completion) := by
  obtain ⟨hcontribute, _, herror, _⟩ := recorder_refines_history reopening
  obtain ⟨_, _, _, htable⟩ := recorder_refines_history (reopening ++ completion)
  have hfails : reopening.recorder.finish = .error (.unresolvedPhi ⟨4⟩) := by decide
  have hends : (reopening ++ completion).recorder.finish = .ok completed := by decide
  have hclosed : ¬ reopening.Opened ⟨9⟩ := by decide
  obtain ⟨phi, heq, hfirst⟩ := (herror _).mp hfails
  obtain rfl : ⟨4⟩ = phi := BuildError.unresolvedPhi.inj heq
  exact ⟨hfails, hfirst, fun source value => (hcontribute _ _ _ _ _).mpr ⟨hclosed, rfl, rfl⟩, hends,
    ((htable _).mp hends).2⟩

end ScriptSsa.Phi
