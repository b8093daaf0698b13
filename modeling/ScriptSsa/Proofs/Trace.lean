import Mathlib.Data.List.Forall2
import Mathlib.Data.Set.Insert
import ScriptSsa.Proofs.OpenBlocks
import ScriptSsa.Proofs.PhiRecord

/-!
Traces: how a construction that does not fail gets from one builder to another.

Every way to lower a construct comes down to the few moves below. Code stays inside expressions: it starts
and ends in a block that control has not left, and it keeps track of the instructions whose values can be
used where it has got to. Flow is made of statements and hands no value on. What holds after every trace is
proved once, by induction on the trace.
-/

namespace ScriptSsa

/-- The operand is a value, and one of those held if it is that of an instruction. -/
def Operand.HeldIn (held : Set InstrId) : Operand → Prop
  | instr id => id ∈ held
  | block _ => False
  | _ => True

theorem Operand.HeldIn.mono {held held' : Set InstrId} (h : held ⊆ held') {o : Operand}
    (ho : o.HeldIn held) : o.HeldIn held' := by
  cases o with
  | instr id => exact h ho
  | block => exact ho
  | _ => trivial

/-- The operand is no value, but stands for the function of one of the graphs. -/
def Operand.IsEntryOf (graphs : List Graph) (o : Operand) : Prop := ∃ g ∈ graphs, o = .block g.entry

/-- `Trace k held s held' t` leads from `s` to `t`. Code that starts with the values of `held` in reach ends
with those of `held'` in reach. -/
inductive Trace : Stage → Set InstrId → Builder → Set InstrId → Builder → Prop where
  | refl {held : Set InstrId} {s : Builder} : Trace .code held s held s
  | trans {held held₁ held₂ : Set InstrId} {s s₁ s₂ : Builder} (h₁ : Trace .code held s held₁ s₁)
      (h₂ : Trace .code held₁ s₁ held₂ s₂) : Trace .code held s held₂ s₂
  /-- An id is drawn for something that is no instruction. -/
  | draw {held : Set InstrId} {s : Builder} : Trace .code held s held s.draw
  | emit {held : Set InstrId} {s : Builder} {binding : Option String} {opcode : Opcode}
      {operands : List Operand} (hready : Stage.code.Ready s) (hplain : opcode.isPlain = true)
      (hheld : ∀ o ∈ operands, o.HeldIn held ∨ o.IsEntryOf s.finished.graphs) :
      Trace .code held s (if opcode.yieldsValue then insert s.supply.nextInstr held else held)
        (s.emit binding opcode operands)
  /-- The last instruction takes a binding. -/
  | rebind {held : Set InstrId} {s : Builder} {b bound : Block} {name : String} {value : Operand}
      (hready : Stage.code.Ready s) (hat : s.At b) (hbound : b.bindLast? name value = some bound) :
      Trace .code held s held (s.replace bound)
  /-- Two arms deliver a value each to the phi of a join. -/
  | merge {held held₁ held₂ : Set InstrId} {s s₁ s₂ : Builder} {condition v₁ v₂ : Operand}
      {trueFirst : Bool} {e₁ e₂ : Phi.Entry} (hready : Stage.code.Ready s)
      (hcondition : condition.HeldIn held)
      (hfirst : Trace .code held (s.openMerge condition trueFirst) held₁ s₁)
      (hready₁ : Stage.code.Ready s₁) (hv₁ : v₁.HeldIn held₁)
      (he₁ : s₁.phis.entries.find? s.supply.nextInstr = some e₁)
      (hsecond : Trace .code held
        ((s₁.deliver s.supply.nextInstr (s.later 2) e₁ v₁).enter (s.otherArm trueFirst)) held₂ s₂)
      (hready₂ : Stage.code.Ready s₂) (hv₂ : v₂.HeldIn held₂)
      (he₂ : s₂.phis.entries.find? s.supply.nextInstr = some e₂)
      (hjoin : (s₂.deliver s.supply.nextInstr (s.later 2) e₂ v₂).block? (s.later 2) =
        some (.empty (s.later 2))) :
      Trace .code held s (insert s.supply.nextInstr held)
        ((s₂.deliver s.supply.nextInstr (s.later 2) e₂ v₂).place s.supply.nextInstr (s.later 2))
  /-- A nested function is built on the side. -/
  | function {held : Set InstrId} {s t : Builder} {name : Option String} {table : Phi.Table}
      (hbody : Trace .flow ∅ s.nested ∅ t) (hphis : t.phis.finish = .ok table) :
      Trace .code held s held (s.resume t ⟨s.supply.nextBlock, name, t.blocks, table⟩)
  | skip {s : Builder} : Trace .flow ∅ s ∅ s
  | seq {s s₁ s₂ : Builder} (h₁ : Trace .flow ∅ s ∅ s₁) (h₂ : Trace .flow ∅ s₁ ∅ s₂) :
      Trace .flow ∅ s ∅ s₂
  /-- Where control has left, the next statement gets a block of its own. -/
  | reopen {s : Builder} : Trace .flow ∅ s ∅ s.reopen
  | code {held : Set InstrId} {s t : Builder} (hready : Stage.code.Ready s) (h : Trace .code ∅ s held t) :
      Trace .flow ∅ s ∅ t
  | ret {held : Set InstrId} {s t : Builder} {value : Operand} (hready : Stage.code.Ready s)
      (h : Trace .code ∅ s held t) (hready' : Stage.code.Ready t) (hvalue : value.HeldIn held) :
      Trace .flow ∅ s ∅ (t.emit none .ret [value])
  | branch {held : Set InstrId} {s s₀ s₁ s₂ : Builder} {condition : Operand}
      (hready : Stage.code.Ready s) (htest : Trace .code ∅ s held s₀) (hready₀ : Stage.code.Ready s₀)
      (hcondition : condition.HeldIn held)
      (hconsequent : Trace .flow ∅ ((s₀.split condition).enter (s₀.later 0)) ∅ s₁)
      (halternate : Trace .flow ∅ ((s₁.fallTo (s₀.later 2)).enter (s₀.later 1)) ∅ s₂) :
      Trace .flow ∅ s ∅ ((s₂.fallTo (s₀.later 2)).enter (s₀.later 2))
  | loop {held held' : Set InstrId} {s s₁ s₂ s₃ : Builder} {condition : Operand} {testFirst : Bool}
      {labels : List String} {frame : Loop} {outer : List Loop} (hready : Stage.code.Ready s)
      (htest : Trace .code ∅ (s.openLoop testFirst) held s₁) (hready₁ : Stage.code.Ready s₁)
      (hcondition : condition.HeldIn held)
      (hbody : Trace .flow ∅
        (s₁.openBody condition (s.later 4) (s.later 1) ⟨labels, s.later 0, s.later 0, [], s.later 1, []⟩) ∅ s₂)
      (hloops : s₂.loops = frame :: outer)
      (hupdate : Trace .code ∅ (s₂.openUpdate frame outer) held' s₃) :
      Trace .flow ∅ s ∅ (s₃.closeLoop frame (s.later 2))
  /-- A jump selects the innermost loop that accepts its label. -/
  | jump {s : Builder} {kind : Jump} {label : Option String} {inner : List Loop} {frame : Loop}
      {outer : List Loop} (hready : Stage.code.Ready s) (hloops : s.loops = inner ++ frame :: outer)
      (hinner : ∀ l ∈ inner, l.accepts label = false) (haccepts : frame.accepts label = true) :
      Trace .flow ∅ s ∅ (s.jumpTo kind inner frame outer)

namespace Phi

/-- What becomes of the recorder: no phi is opened twice or forgotten, and those that are opened on the way
get values. -/
structure Recorder.Keeps (r r' : Recorder) : Prop where
  nodup : r.entries.keys.Nodup → r'.entries.keys.Nodup
  stays : ∀ {phi entry}, r.entries.find? phi = some entry → ∃ entry', r'.entries.find? phi = some entry'
  filled : ∀ {phi entry}, r'.entries.find? phi = some entry → entry.inputs = [] →
    r.entries.find? phi = some entry

namespace Recorder.Keeps

variable {r r₁ r₂ : Recorder}

theorem refl (r : Recorder) : r.Keeps r := ⟨fun h => h, fun h => ⟨_, h⟩, fun h _ => h⟩

theorem trans (h₁ : r.Keeps r₁) (h₂ : r₁.Keeps r₂) : r.Keeps r₂ where
  nodup h := h₂.nodup (h₁.nodup h)
  stays h := by
    obtain ⟨_, hentry⟩ := h₁.stays h
    exact h₂.stays hentry
  filled h hempty := h₁.filled (h₂.filled h hempty) hempty

/-- Between the opening of a phi and its second value. -/
theorem merge {phi : InstrId} {join block block' : BlockId} {inputs inputs' : List Input}
    {input input' : Input} (h₁ : (r.openPhi phi join).Keeps r₁)
    (h₂ : Recorder.Keeps ⟨r₁.entries.insert phi ⟨block, inputs ++ [input]⟩⟩ r₂) :
    r.Keeps ⟨r₂.entries.insert phi ⟨block', inputs' ++ [input']⟩⟩ := by
  refine ⟨fun h => ?_, fun {key entry} h => ?_, fun {key entry} h hempty => ?_⟩
  · exact Entries.nodup_keys_insert
      (h₂.nodup (Entries.nodup_keys_insert (h₁.nodup (Entries.nodup_keys_insert h))))
  · by_cases hkey : key = phi
    · exact ⟨_, by rw [hkey, Entries.find?_insert_self]⟩
    · have hopened : (r.openPhi phi join).entries.find? key = some entry := by
        rw [openPhi, Entries.find?_insert_of_ne hkey, h]
      obtain ⟨e₁, he₁⟩ := h₁.stays hopened
      rw [← Entries.find?_insert_of_ne hkey] at he₁
      obtain ⟨e₂, he₂⟩ := h₂.stays he₁
      exact ⟨e₂, by rw [Entries.find?_insert_of_ne hkey, he₂]⟩
  · by_cases hkey : key = phi
    · rw [hkey, Entries.find?_insert_self] at h
      rw [← Option.some.inj h] at hempty
      simp at hempty
    · rw [Entries.find?_insert_of_ne hkey] at h
      have hr₁ := h₂.filled h hempty
      rw [Entries.find?_insert_of_ne hkey] at hr₁
      have hr := h₁.filled hr₁ hempty
      rwa [openPhi, Entries.find?_insert_of_ne hkey] at hr

end Recorder.Keeps

end Phi

theorem forall₂_trans {α : Type*} {R : α → α → Prop} (hR : ∀ {a b c}, R a b → R b c → R a c) {as bs cs : List α}
    (h : List.Forall₂ R as bs) (h' : List.Forall₂ R bs cs) : List.Forall₂ R as cs := by
  induction h generalizing cs with
  | nil => exact h'
  | cons hab _ ih =>
      cases h' with
      | cons hbc hrest => exact .cons (hR hab hbc) (ih hrest)

/-- What lowering a loop's body can do to the loop: the chains of its jumps get longer. -/
structure Loop.Grows (l l' : Loop) : Prop where
  labels : l'.labels = l.labels
  continueEntry : l'.continueEntry = l.continueEntry
  breakEntry : l'.breakEntry = l.breakEntry
  continues : l.continues <+: l'.continues
  breaks : l.breaks <+: l'.breaks

namespace Loop.Grows

theorem refl (l : Loop) : l.Grows l := ⟨rfl, rfl, rfl, List.prefix_rfl, List.prefix_rfl⟩

theorem trans {l₁ l₂ l₃ : Loop} (h₁ : l₁.Grows l₂) (h₂ : l₂.Grows l₃) : l₁.Grows l₃ :=
  ⟨h₂.labels.trans h₁.labels, h₂.continueEntry.trans h₁.continueEntry,
    h₂.breakEntry.trans h₁.breakEntry, h₁.continues.trans h₂.continues, h₁.breaks.trans h₂.breaks⟩

theorem extend (kind : Jump) (l : Loop) (join : BlockId) : l.Grows (l.extend kind join) := by
  cases kind with
  | exit => exact ⟨rfl, rfl, rfl, List.prefix_rfl, List.prefix_append _ _⟩
  | next => exact ⟨rfl, rfl, rfl, List.prefix_append _ _, List.prefix_rfl⟩

end Loop.Grows

/-- The instruction ids that have been drawn. -/
def Supply.drawn (a : Supply) : Set InstrId := {id | id.index < a.instrs}

theorem Supply.drawn_mono {a b : Supply} (h : a ≤ b) : a.drawn ⊆ b.drawn :=
  fun _ hid => Nat.lt_of_lt_of_le hid h.1

namespace Trace

variable {k : Stage} {held held' : Set InstrId} {s t : Builder}

/-- Code leaves the loops alone. -/
theorem loops_eq (h : Trace k held s held' t) : k = .code → t.loops = s.loops := by
  induction h with
  | trans _ _ ih₁ ih₂ => exact fun h => (ih₂ h).trans (ih₁ h)
  | merge _ _ _ _ _ _ _ _ _ _ _ ih₁ ih₂ => exact fun h => (ih₂ h).trans (ih₁ h)
  | refl | draw | emit | rebind | function => exact fun _ => rfl
  | skip | seq | reopen | code | ret | branch | loop | jump => exact fun h => nomatch h

/-- The loops stay on the stack, with longer chains. -/
theorem loops_grow (h : Trace k held s held' t) : List.Forall₂ Loop.Grows s.loops t.loops := by
  have hrefl : ∀ loops : List Loop, List.Forall₂ Loop.Grows loops loops :=
    fun loops => List.forall₂_same.mpr fun l _ => .refl l
  have htrans : ∀ {a b c : List Loop}, List.Forall₂ Loop.Grows a b → List.Forall₂ Loop.Grows b c →
      List.Forall₂ Loop.Grows a c := forall₂_trans fun h h' => h.trans h'
  induction h with
  | refl | draw | emit | rebind | function | skip => exact hrefl _
  | trans _ _ ih₁ ih₂ => exact htrans ih₁ ih₂
  | merge _ _ _ _ _ _ _ _ _ _ _ ih₁ ih₂ => exact htrans ih₁ ih₂
  | seq _ _ ih₁ ih₂ => exact htrans ih₁ ih₂
  | reopen =>
      rw [Builder.loops_reopen]
      exact hrefl _
  | code _ _ ih => exact ih
  | ret _ _ _ _ ih => exact ih
  | branch _ _ _ _ _ _ ih₀ ih₁ ih₂ =>
      refine htrans ih₀ (htrans ih₁ ?_)
      change List.Forall₂ Loop.Grows _ (Builder.fallTo _ _).loops
      rw [Builder.loops_fallTo]
      change List.Forall₂ Loop.Grows (Builder.fallTo _ _).loops _ at ih₂
      rwa [Builder.loops_fallTo] at ih₂
  | @loop held held' s s₁ s₂ s₃ condition testFirst labels frame outer _ _ _ _ _ hloops _ ih₁ ih₂ ih₃ =>
      rw [Builder.loops_closeLoop]
      have hbody : List.Forall₂ Loop.Grows
          (⟨labels, s.later 0, s.later 0, [], s.later 1, []⟩ :: s₁.loops) s₂.loops := ih₂
      rw [hloops] at hbody
      have hupdate : List.Forall₂ Loop.Grows outer s₃.loops := by
        change List.Forall₂ Loop.Grows (Builder.fallTo _ _).loops _ at ih₃
        rwa [Builder.loops_fallTo] at ih₃
      cases hbody with
      | cons _ houter => exact htrans ih₁ (htrans houter hupdate)
  | @jump s kind label inner frame outer _ hloops _ _ =>
      rw [Builder.loops_jumpTo, hloops]
      exact List.rel_append (hrefl inner) (.cons (.extend kind frame _) (hrefl outer))

/-- Ids are drawn and never given back. -/
theorem supply_le (h : Trace k held s held' t) : s.supply ≤ t.supply := by
  induction h with
  | refl | rebind | skip => exact le_refl _
  | draw | emit => exact Supply.le_dropInstr _
  | trans _ _ ih₁ ih₂ => exact ih₁.trans ih₂
  | seq _ _ ih₁ ih₂ => exact ih₁.trans ih₂
  | merge _ _ _ _ _ _ _ _ _ _ _ ih₁ ih₂ =>
      refine (Supply.le_dropInstr _).trans (Builder.supply_le_openMerge.trans (ih₁.trans ?_))
      exact (Supply.le_dropInstr _).trans (ih₂.trans (Supply.le_dropInstr _))
  | function _ _ ih => exact (Supply.le_dropBlock _).trans ih
  | reopen => exact Builder.supply_le_reopen
  | code _ _ ih => exact ih
  | ret _ _ _ _ ih => exact ih.trans (Supply.le_dropInstr _)
  | branch _ _ _ _ _ _ ih₀ ih₁ ih₂ =>
      have h₁ := Builder.supply_le_split.trans ih₁
      have h₂ := (le_of_eq Builder.supply_fallTo.symm).trans ih₂
      exact ih₀.trans (h₁.trans (h₂.trans (le_of_eq Builder.supply_fallTo.symm)))
  | loop _ _ _ _ _ _ _ ih₁ ih₂ ih₃ =>
      have h₁ := Builder.supply_le_openLoop.trans ih₁
      have h₂ := (Supply.le_dropInstr _).trans ih₂
      have h₃ := (le_of_eq Builder.supply_fallTo.symm).trans ih₃
      exact h₁.trans (h₂.trans (h₃.trans Builder.supply_le_closeLoop))
  | jump => exact Builder.supply_le_jumpTo

/-- The values in reach have been drawn. -/
theorem held_drawn (h : Trace k held s held' t) (hheld : held ⊆ s.supply.drawn) : held' ⊆ t.supply.drawn := by
  have hsupply := h.supply_le
  have hnext : ∀ {a b : Supply}, a.dropInstr ≤ b → a.nextInstr ∈ b.drawn := fun h => h.1
  induction h with
  | refl | skip => exact hheld
  | trans h₁ h₂ ih₁ ih₂ => exact ih₂ (ih₁ hheld h₁.supply_le) h₂.supply_le
  | emit =>
      split
      · exact Set.insert_subset (hnext (le_refl _)) (hheld.trans (Supply.drawn_mono hsupply))
      · exact hheld.trans (Supply.drawn_mono hsupply)
  | merge _ _ h₁ _ _ _ h₂ =>
      refine Set.insert_subset (hnext (Builder.supply_le_openMerge.trans (h₁.supply_le.trans ?_)))
        (hheld.trans (Supply.drawn_mono hsupply))
      exact (Supply.le_dropInstr _).trans (h₂.supply_le.trans (Supply.le_dropInstr _))
  | draw | rebind | function => exact hheld.trans (Supply.drawn_mono hsupply)
  | seq | reopen | code | ret | branch | loop | jump => exact Set.empty_subset _

/-- Blocks are added behind those that are there. -/
theorem ids_prefix (h : Trace k held s held' t) : s.ids <+: t.ids := by
  induction h with
  | refl | draw | skip | function => exact List.prefix_rfl
  | emit => exact Builder.ids_emit ▸ List.prefix_rfl
  | rebind _ hat hbound => exact Builder.ids_replace_bound hat hbound ▸ List.prefix_rfl
  | trans _ _ ih₁ ih₂ => exact ih₁.trans ih₂
  | seq _ _ ih₁ ih₂ => exact ih₁.trans ih₂
  | merge _ _ _ _ _ _ _ _ _ _ _ ih₁ ih₂ =>
      rw [Builder.ids_openMerge, List.append_assoc, List.append_assoc] at ih₁
      rw [Builder.ids_enter, Builder.ids_deliver] at ih₂
      rw [Builder.ids_place, Builder.ids_deliver]
      exact (List.prefix_append _ _).trans (ih₁.trans ih₂)
  | reopen => exact Builder.ids_prefix_reopen
  | code _ _ ih => exact ih
  | ret _ _ _ _ ih => rwa [Builder.ids_emit]
  | branch _ _ _ _ _ _ ih₀ ih₁ ih₂ =>
      rw [Builder.ids_enter, Builder.ids_split, List.append_assoc, List.append_assoc] at ih₁
      rw [Builder.ids_enter, Builder.ids_fallTo] at ih₂ ⊢
      exact ih₀.trans ((List.prefix_append _ _).trans (ih₁.trans ih₂))
  | loop _ _ _ _ _ _ _ ih₁ ih₂ ih₃ =>
      rw [Builder.ids_openLoop] at ih₁
      simp only [List.append_assoc] at ih₁
      rw [Builder.ids_openBody] at ih₂
      rw [Builder.openUpdate, Builder.ids_enter, Builder.ids_fallTo] at ih₃
      rw [Builder.ids_closeLoop]
      refine (List.prefix_append _ _).trans (ih₁.trans (ih₂.trans (ih₃.trans ?_)))
      exact List.prefix_append _ _
  | jump =>
      rw [Builder.ids_jumpTo]
      exact List.prefix_append _ _

/-- The recorder keeps every phi, and no phi without a value is left behind. -/
theorem phis_keep (h : Trace k held s held' t) : s.phis.Keeps t.phis := by
  induction h with
  | refl | draw | emit | rebind | function | skip => exact .refl _
  | trans _ _ ih₁ ih₂ => exact ih₁.trans ih₂
  | seq _ _ ih₁ ih₂ => exact ih₁.trans ih₂
  | merge _ _ _ _ _ _ _ _ _ _ _ ih₁ ih₂ => exact ih₁.merge ih₂
  | reopen =>
      rw [Builder.phis_reopen]
      exact .refl _
  | code _ _ ih => exact ih
  | ret _ _ _ _ ih => exact ih
  | branch _ _ _ _ _ _ ih₀ ih₁ ih₂ =>
      rw [Builder.phis_enter, Builder.phis_fallTo] at ih₂ ⊢
      exact ih₀.trans (ih₁.trans ih₂)
  | loop _ _ _ _ _ _ _ ih₁ ih₂ ih₃ =>
      rw [Builder.openUpdate, Builder.phis_enter, Builder.phis_fallTo] at ih₃
      rw [Builder.phis_closeLoop]
      exact ih₁.trans (ih₂.trans ih₃)
  | jump =>
      rw [Builder.phis_jumpTo]
      exact .refl _

/-- The phis of a finished function all have values. -/
theorem finish_phis (h : Trace k held s.nested held' t) : ∃ table, t.phis.finish = .ok table := by
  have hkeeps := h.phis_keep
  refine ⟨⟨t.phis.entries⟩, Phi.Recorder.finish_eq_ok_iff.mpr ⟨rfl, ?_⟩⟩
  rintro ⟨phi, entry⟩ hmem hempty
  have hfind := Phi.Entries.find?_of_mem (hkeeps.nodup List.nodup_nil) hmem
  exact nomatch hkeeps.filled hfind hempty

end Trace

theorem Trace.mem_tail {k : Stage} {held held' : Set InstrId} {s t : Builder} {id : BlockId}
    (h : Trace k held s held' t) (hid : id ∈ s.ids.tail) : id ∈ t.ids.tail := by
  obtain ⟨more, heq⟩ := h.ids_prefix
  rw [← heq, List.tail_append_of_ne_nil (List.ne_nil_of_mem (List.mem_of_mem_tail hid))]
  exact List.mem_append_left _ hid

/-- Every trace keeps the blocks in order. -/
theorem Trace.keeps {k : Stage} {held held' : Set InstrId} {s t : Builder} (h : Trace k held s held' t) :
    Keeps k s t := by
  refine ⟨fun {pending} hsound hfits => ?_, h.mem_tail⟩
  induction h generalizing pending with
  | refl => exact ⟨hsound, hfits⟩
  | trans _ _ ih₁ ih₂ =>
      obtain ⟨hsound₁, hfits₁⟩ := ih₁ hsound hfits
      exact ih₂ hsound₁ hfits₁
  | draw => exact ⟨hsound.draw, hfits⟩
  | emit _ hplain _ => exact ⟨hsound.emit, hfits.emit hplain⟩
  | rebind _ hat hbound => exact ⟨hsound.replace hat hbound, hfits.replace hat hbound⟩
  | merge _ _ hfirst _ _ _ hsecond _ _ _ _ ih₁ ih₂ =>
      obtain ⟨hsound₁, hopen₁⟩ := hsound.firstArm hfits ⟨ih₁, hfirst.mem_tail⟩
      obtain ⟨hsound₂, hopen₂⟩ := hsound₁.secondArm hopen₁ ⟨ih₂, hsecond.mem_tail⟩
      exact hsound₂.closeMerge hopen₂
  | function hbody _ _ =>
      refine ⟨hsound.of_blocks_eq rfl rfl rfl ?_, hfits⟩
      exact (Supply.le_dropBlock _).trans hbody.supply_le
  | skip => exact ⟨hsound, hfits⟩
  | seq _ _ ih₁ ih₂ =>
      obtain ⟨hsound₁, hfits₁⟩ := ih₁ hsound hfits
      exact ih₂ hsound₁ hfits₁
  | reopen =>
      obtain ⟨hreopen, hopen⟩ := hsound.reopen hfits
      rw [← Builder.loopsWaiting_reopen] at hreopen
      exact ⟨hreopen, .inl hopen⟩
  | code hready _ ih =>
      obtain ⟨hsound₁, hfits₁⟩ := ih hsound hready.1
      exact ⟨hsound₁, .inl hfits₁⟩
  | ret hready _ _ _ ih =>
      obtain ⟨hsound₁, hfits₁⟩ := ih hsound hready.1
      exact ⟨hsound₁.emit, .inr (Builder.IsOpen.ret hfits₁)⟩
  | branch hready _ _ _ hconsequent halternate ih₀ ih₁ ih₂ =>
      obtain ⟨hsound₀, hopen₀⟩ := ih₀ hsound hready.1
      obtain ⟨hsound₁, hfits₁⟩ := hsound₀.consequent hopen₀ ⟨ih₁, hconsequent.mem_tail⟩
      obtain ⟨hsound₂, hfits₂⟩ := hsound₁.alternate hfits₁ ⟨ih₂, halternate.mem_tail⟩
      obtain ⟨hsound₂', hat₂⟩ := hsound₂.fallThenEnter hfits₂ List.mem_cons_self
      rw [Builder.loopsWaiting_enter, Builder.loopsWaiting_fallTo]
      exact ⟨hsound₂', .inl (Builder.isOpen_of_empty hat₂)⟩
  | loop hready htest _ _ hbody hloops hupdate ih₁ ih₂ ih₃ =>
      have hend := hsound.loopEnd hready.1 ⟨ih₁, htest.mem_tail⟩ ⟨ih₂, hbody.mem_tail⟩ hloops ⟨ih₃, hupdate.mem_tail⟩
      obtain ⟨hsound', hat'⟩ := hend.closeLoop
      rw [← Builder.loopsWaiting_closeLoop] at hsound'
      exact ⟨hsound', .inl (Builder.isOpen_of_empty hat')⟩
  | jump hready hloops _ _ =>
      obtain ⟨hsound₁, hclosed⟩ := hsound.jumpTo hready.1 hloops
      exact ⟨hsound₁, .inr hclosed⟩

theorem Trace.ready {k : Stage} {held held' : Set InstrId} {s t : Builder} (h : Trace k held s held' t)
    (hs : k.Ready s) : k.Ready t :=
  h.keeps.ready hs

/-! A merge, a branch and a loop are ready for each of their parts, and the blocks that are linked between the
parts are still empty. -/

namespace Stage.Ready

variable {held held' : Set InstrId} {s s₁ s₂ : Builder} {condition : Operand} {trueFirst testFirst : Bool}
  {labels : List String}

theorem firstArm (h : Stage.code.Ready s) : Stage.code.Ready (s.openMerge condition trueFirst) := by
  obtain ⟨hopen, pending, hsound⟩ := h
  obtain ⟨hsound₀, hat⟩ := @Sound.openMerge _ _ condition trueFirst hsound hopen
  exact ⟨Builder.isOpen_of_empty hat, _ :: _ :: pending, hsound₀⟩

theorem join_empty₁ (h : Stage.code.Ready s) (hfirst : Trace .code held (s.openMerge condition trueFirst) held' s₁) :
    s₁.block? (s.later 2) = some (.empty (s.later 2)) := by
  obtain ⟨hopen, pending, hsound⟩ := h
  exact ((hsound.firstArm hopen hfirst.keeps).1.empty _ (by simp)).1

theorem secondArm {phi : InstrId} {entry : Phi.Entry} {value : Operand} (h : Stage.code.Ready s)
    (hfirst : Trace .code held (s.openMerge condition trueFirst) held' s₁) :
    Stage.code.Ready ((s₁.deliver phi (s.later 2) entry value).enter (s.otherArm trueFirst)) := by
  obtain ⟨hopen, pending, hsound⟩ := h
  obtain ⟨hsound₁, hopen₁⟩ := hsound.firstArm hopen hfirst.keeps
  obtain ⟨hsound₁', hat⟩ := @Sound.nextArm _ _ phi _ _ entry value hsound₁ hopen₁
  exact ⟨Builder.isOpen_of_empty hat, _ :: pending, hsound₁'⟩

theorem join_empty₂ {held₁ held₂ : Set InstrId} {phi : InstrId} {entry : Phi.Entry} {value : Operand}
    (h : Stage.code.Ready s) (hfirst : Trace .code held (s.openMerge condition trueFirst) held₁ s₁)
    (hsecond : Trace .code held' ((s₁.deliver phi (s.later 2) entry value).enter (s.otherArm trueFirst)) held₂ s₂) :
    s₂.block? (s.later 2) = some (.empty (s.later 2)) := by
  obtain ⟨hopen, pending, hsound⟩ := h
  obtain ⟨hsound₁, hopen₁⟩ := hsound.firstArm hopen hfirst.keeps
  exact ((hsound₁.secondArm hopen₁ hsecond.keeps).1.empty _ List.mem_cons_self).1

theorem consequent (h : Stage.code.Ready s) : Stage.flow.Ready ((s.split condition).enter (s.later 0)) := by
  obtain ⟨hopen, pending, hsound⟩ := h
  obtain ⟨hsound₀, hat⟩ := @Sound.openBranch _ _ condition hsound hopen
  exact ⟨.inl (Builder.isOpen_of_empty hat), _ :: _ :: pending, hsound₀⟩

theorem alternate (h : Stage.code.Ready s)
    (hconsequent : Trace .flow ∅ ((s.split condition).enter (s.later 0)) ∅ s₁) :
    Stage.flow.Ready ((s₁.fallTo (s.later 2)).enter (s.later 1)) := by
  obtain ⟨hopen, pending, hsound⟩ := h
  obtain ⟨hsound₁, hfits₁⟩ := hsound.consequent hopen hconsequent.keeps
  obtain ⟨hsound₁', hat⟩ := hsound₁.fallThenEnter hfits₁ (List.mem_cons_of_mem _ List.mem_cons_self)
  refine ⟨.inl (Builder.isOpen_of_empty hat), s.later 2 :: pending, ?_⟩
  rw [Builder.loopsWaiting_enter, Builder.loopsWaiting_fallTo]
  exact hsound₁'

theorem branchJoin_empty₁ (h : Stage.code.Ready s)
    (hconsequent : Trace .flow ∅ ((s.split condition).enter (s.later 0)) ∅ s₁) :
    s₁.block? (s.later 2) = some (.empty (s.later 2)) := by
  obtain ⟨hopen, pending, hsound⟩ := h
  exact ((hsound.consequent hopen hconsequent.keeps).1.empty _ (by simp)).1

theorem branchJoin_empty₂ (h : Stage.code.Ready s)
    (hconsequent : Trace .flow ∅ ((s.split condition).enter (s.later 0)) ∅ s₁)
    (halternate : Trace .flow ∅ ((s₁.fallTo (s.later 2)).enter (s.later 1)) ∅ s₂) :
    s₂.block? (s.later 2) = some (.empty (s.later 2)) := by
  obtain ⟨hopen, pending, hsound⟩ := h
  obtain ⟨hsound₁, hfits₁⟩ := hsound.consequent hopen hconsequent.keeps
  exact ((hsound₁.alternate hfits₁ halternate.keeps).1.empty _ List.mem_cons_self).1

theorem loopTest (h : Stage.code.Ready s) : Stage.code.Ready (s.openLoop testFirst) := by
  obtain ⟨hopen, pending, hsound⟩ := h
  obtain ⟨hsound₀, hat⟩ := @Sound.openLoop _ _ testFirst hsound hopen
  exact ⟨Builder.isOpen_of_empty hat, _ :: _ :: _ :: pending, hsound₀⟩

/-- The blocks of a loop that its test does not enter. -/
theorem loop_empty (h : Stage.code.Ready s) (htest : Trace .code held (s.openLoop testFirst) held' s₁)
    {id : BlockId} (hid : id ∈ [s.later 4, s.later 1, s.later 0]) : s₁.block? id = some (.empty id) := by
  obtain ⟨hopen, pending, hsound⟩ := h
  exact ((hsound.loopTest hopen htest.keeps).1.empty id (List.mem_append_left _ hid)).1

theorem loopBody (h : Stage.code.Ready s) (htest : Trace .code held (s.openLoop testFirst) held' s₁) :
    Stage.flow.Ready
      (s₁.openBody condition (s.later 4) (s.later 1) ⟨labels, s.later 0, s.later 0, [], s.later 1, []⟩) := by
  obtain ⟨hopen, pending, hsound⟩ := h
  obtain ⟨hsound₁, hopen₁⟩ := hsound.loopTest hopen htest.keeps
  obtain ⟨hsound₁', hat⟩ := @Sound.loopBody _ _ condition labels _ _ _ hsound₁ hopen₁
  exact ⟨.inl (Builder.isOpen_of_empty hat), pending, hsound₁'⟩

theorem continueEntry_empty {k : Stage} {frame : Loop} {outer : List Loop} (h : k.Ready s)
    (hloops : s.loops = frame :: outer) : s.block? frame.continueEntry = some (.empty frame.continueEntry) := by
  obtain ⟨_, pending, hsound⟩ := h
  refine (hsound.empty _ (List.mem_append_right _ ?_)).1
  simp [Builder.loopsWaiting, hloops, Loop.waiting]

theorem loopUpdate {frame : Loop} {outer : List Loop} (h : Stage.code.Ready s)
    (htest : Trace .code held (s.openLoop testFirst) held' s₁)
    (hbody : Trace .flow ∅
      (s₁.openBody condition (s.later 4) (s.later 1) ⟨labels, s.later 0, s.later 0, [], s.later 1, []⟩) ∅ s₂)
    (hloops : s₂.loops = frame :: outer) : Stage.code.Ready (s₂.openUpdate frame outer) := by
  obtain ⟨hfits₂, pending, hsound₂⟩ := hbody.ready (h.loopBody htest)
  obtain ⟨hsound₂', hat⟩ := hsound₂.loopUpdate hfits₂ hloops
  exact ⟨Builder.isOpen_of_empty hat, _, hsound₂'⟩

theorem loopEnd {held₂ : Set InstrId} {s₃ : Builder} {frame : Loop} {outer : List Loop}
    (h : Stage.code.Ready s) (htest : Trace .code held (s.openLoop testFirst) held' s₁)
    (hbody : Trace .flow ∅
      (s₁.openBody condition (s.later 4) (s.later 1) ⟨labels, s.later 0, s.later 0, [], s.later 1, []⟩) ∅ s₂)
    (hloops : s₂.loops = frame :: outer) (hupdate : Trace .code ∅ (s₂.openUpdate frame outer) held₂ s₃) :
    ∃ pending, LoopEnd frame (s.later 2) pending s₃ := by
  obtain ⟨hopen, pending, hsound⟩ := h
  exact ⟨pending, hsound.loopEnd hopen htest.keeps hbody.keeps hloops hupdate.keeps⟩

end Stage.Ready

/-- The graph is that of a function whose body a trace has built. -/
def Graph.Built (g : Graph) : Prop :=
  ∃ s t : Builder, Trace .flow ∅ s.nested ∅ t ∧ t.phis.finish = .ok g.phis ∧
    g.entry = s.supply.nextBlock ∧ g.blocks = t.blocks

namespace Trace

variable {k : Stage} {held held' : Set InstrId} {s t : Builder}

/-- The graphs that a trace queues. -/
theorem finished_built (h : Trace k held s held' t) {g : Graph} (hg : g ∈ t.finished.graphs) :
    g ∈ s.finished.graphs ∨ g.Built := by
  have hthen : ∀ {a b c : Builder}, (g ∈ c.finished.graphs → g ∈ b.finished.graphs ∨ g.Built) →
      (g ∈ b.finished.graphs → g ∈ a.finished.graphs ∨ g.Built) →
      g ∈ c.finished.graphs → g ∈ a.finished.graphs ∨ g.Built :=
    fun hc hb hg => (hc hg).elim hb .inr
  induction h with
  | refl | draw | emit | rebind | skip => exact .inl hg
  | trans _ _ ih₁ ih₂ => exact hthen ih₂ ih₁ hg
  | seq _ _ ih₁ ih₂ => exact hthen ih₂ ih₁ hg
  | merge _ _ _ _ _ _ _ _ _ _ _ ih₁ ih₂ => exact hthen ih₂ ih₁ hg
  | function hbody hphis ih =>
      rcases List.mem_append.mp hg with hg | hg
      · exact ih hg
      · rw [List.mem_singleton.mp hg]
        exact .inr ⟨_, _, hbody, hphis, rfl, rfl⟩
  | reopen =>
      rw [Builder.finished_reopen] at hg
      exact .inl hg
  | code _ _ ih => exact ih hg
  | ret _ _ _ _ ih => exact ih hg
  | branch _ _ _ _ _ _ ih₀ ih₁ ih₂ =>
      rw [Builder.finished_enter, Builder.finished_fallTo] at ih₂ hg
      exact hthen ih₂ (hthen ih₁ ih₀) hg
  | loop _ _ _ _ _ _ _ ih₁ ih₂ ih₃ =>
      rw [Builder.openUpdate, Builder.finished_enter, Builder.finished_fallTo] at ih₃
      rw [Builder.finished_closeLoop] at hg
      exact hthen ih₃ (hthen ih₂ ih₁) hg
  | jump =>
      rw [Builder.finished_jumpTo] at hg
      exact .inl hg

end Trace

end ScriptSsa
