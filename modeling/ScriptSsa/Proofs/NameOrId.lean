import ScriptSsa.Proofs.IdSupply
import ScriptSsa.Proofs.NamedValues
import ScriptSsa.Proofs.Promises

/-!
Every value of a finished graph is known by its name or by its id.

Lowering keeps names apart: expressions while the values around them are held, statements with nothing held. So no
bound instruction of a finished graph is referred to by id, and what a listing shows on the left of an instruction
tells which instruction an operand means.
-/

namespace ScriptSsa

open Build

/-- To lower a function takes ids and gives none back. -/
theorem lowerGraph_supply_le {names : Names} {fn : Function} {s t : Builder} {g : Graph}
    (h : lowerGraph names fn s = .ok g t) : s.supply ≤ t.supply := by
  obtain ⟨params, u, _, hbody, _, _, rfl⟩ := lowerGraph_eq_ok h
  obtain ⟨hlegal, _⟩ := (lowerBody_coheres _ _ s.nested s.coherent_nested (List.nil_subset _)).ok hbody
  exact (Supply.le_dropBlock _).trans (hlegal.stays s.coherent_nested).supply

/-- A nested function is built on the side. -/
theorem lowerFunction_apart (names : Names) (fn : Function) : KeepsApart ∅ (lowerFunction names fn) Operand.ids := by
  intro s v u held hrun hneeds hapart
  obtain ⟨_, g, t, _, hgraph, rfl, rfl⟩ := lowerFunction_eq_ok hrun
  have hsupply := lowerGraph_supply_le hgraph
  obtain ⟨_, body, _, _, _, _, rfl⟩ := lowerGraph_eq_ok hgraph
  have haside : Builder.NamesApart { s with supply := body.supply, finished := body.finished.push g } held :=
    hapart.of_blocks_eq rfl rfl hsupply
  have hoperands : idsOf [.block g.entry] ⊆ held := idsOf_cons_subset (fun _ hid => nomatch hid) idsOf_nil_subset
  refine ⟨hsupply.trans ((Supply.le_dropInstr _).trans (Supply.le_dropInstr _)), fun id hid hdrawn => ?_,
    (haside.draw.emit hoperands).mono (Set.union_subset (Set.subset_insert _ _) fun id hid => ?_)⟩
  · obtain rfl := Operand.instr.inj hid
    exact absurd (Supply.drawn_mono (hsupply.trans (Supply.le_dropInstr _)) hdrawn) (Nat.lt_irrefl _)
  · exact .inl (Operand.instr.inj hid).symm

/-! Statements, with nothing held before and after them. -/

namespace Build

variable {α β : Type}

def LeavesApart (m : Build α) : Prop := ∀ s a t, m s = .ok a t → s.NamesApart ∅ → t.NamesApart ∅

namespace LeavesApart

variable {m : Build α} {f : α → Build β} {gives : α → Set InstrId}

theorem pure {a : α} : LeavesApart (Pure.pure a : Build α) := by
  rintro s _ _ ⟨⟩ h
  exact h

theorem fail {e : BuildError} : LeavesApart (Build.fail e : Build α) := fun _ _ _ h => nomatch h

theorem bind (hm : LeavesApart m) (hf : ∀ a, LeavesApart (f a)) : LeavesApart (m >>= f) := by
  intro s b u h hapart
  obtain ⟨a, t, hrun, hrest⟩ := bind_eq_ok h
  exact hf a t b u hrest (hm s a t hrun hapart)

/-- Behind code, what it has given is let go. -/
theorem of_code (h : KeepsApart ∅ m gives) : LeavesApart m := by
  intro s a t hrun hapart
  obtain ⟨_, _, hapart⟩ := h s a t ∅ hrun (Set.Subset.refl _) hapart
  exact hapart.mono (Set.empty_subset _)

/-- A step that only looks. -/
theorem of_idle (h : ∀ s a t, m s = .ok a t → t = s) : LeavesApart m := by
  intro s a t hrun hapart
  rw [h s a t hrun]
  exact hapart

end LeavesApart

theorem leavesApart_newBlock : LeavesApart newBlock := by
  rintro s _ _ ⟨⟩ h
  exact h.alloc

theorem leavesApart_switchTo (id : BlockId) : LeavesApart (switchTo id) := by
  intro s a t hrun h
  obtain ⟨_, rfl⟩ := switchTo_eq_ok hrun
  exact h.enter id

theorem leavesApart_link (id : BlockId) (succs : List BlockId) : LeavesApart (link id succs) := by
  intro s a t hrun h
  obtain ⟨_, _, rfl⟩ := link_eq_ok hrun
  exact h.link id succs

theorem leavesApart_current : LeavesApart current := by
  refine .of_idle ?_
  rintro s _ _ ⟨⟩
  rfl

theorem leavesApart_getBlock (id : BlockId) : LeavesApart (getBlock id) := by
  refine .of_idle fun s a t h => ?_
  unfold getBlock at h
  split at h
  · cases h
    rfl
  · cases h

theorem leavesApart_linkCurrent (succs : List BlockId) : LeavesApart (linkCurrent succs) :=
  leavesApart_current.bind fun id => leavesApart_link id succs

theorem leavesApart_isTerminated : LeavesApart isTerminated :=
  leavesApart_current.bind fun id => (leavesApart_getBlock id).bind fun _ => .pure

theorem leavesApart_fallThrough (target : BlockId) : LeavesApart (fallThrough target) := by
  refine leavesApart_isTerminated.bind fun terminated => ?_
  cases terminated with
  | true => exact .pure
  | false => exact leavesApart_linkCurrent [target]

theorem leavesApart_ensureOpen : LeavesApart ensureOpen := by
  refine leavesApart_isTerminated.bind fun terminated => ?_
  cases terminated with
  | true => exact leavesApart_newBlock.bind fun id => leavesApart_switchTo id
  | false => exact .pure

theorem leavesApart_pushLoop (loop : Loop) : LeavesApart (pushLoop loop) := by
  rintro s _ _ ⟨⟩ h
  exact h.of_blocks_eq rfl rfl (le_refl _)

theorem leavesApart_popLoop : LeavesApart popLoop := by
  intro s a t h hapart
  unfold popLoop at h
  split at h
  · cases h
    exact hapart.of_blocks_eq rfl rfl (le_refl _)
  · cases h

theorem leavesApart_setLoops (loops : List Loop) : LeavesApart (setLoops loops) := by
  rintro s _ _ ⟨⟩ h
  exact h.of_blocks_eq rfl rfl (le_refl _)

variable {test : Build Operand}

/-- A test and the branch on it. -/
theorem leavesApart_perform (opcode : Opcode) (htest : KeepsApart ∅ test Operand.ids) :
    LeavesApart (test >>= fun v => perform opcode [v]) :=
  .of_code (htest.bind fun _ _ _ hv => keepsApart_perform (idsOf_cons_subset hv idsOf_nil_subset))

/-- The condition is held until the branch and not beyond. -/
theorem leavesApart_branch {consequent alternate : Build Unit} (htest : KeepsApart ∅ test Operand.ids)
    (hconsequent : LeavesApart consequent) (halternate : LeavesApart alternate) :
    LeavesApart (branch test consequent alternate) := by
  rw [branch, ← bind_assoc]
  refine (leavesApart_perform .branch htest).bind fun _ => ?_
  refine leavesApart_newBlock.bind fun onTrue => leavesApart_newBlock.bind fun onFalse => ?_
  refine leavesApart_newBlock.bind fun join => (leavesApart_linkCurrent _).bind fun _ => ?_
  refine (leavesApart_switchTo onTrue).bind fun _ => hconsequent.bind fun _ => ?_
  refine (leavesApart_fallThrough join).bind fun _ => (leavesApart_switchTo onFalse).bind fun _ => ?_
  exact halternate.bind fun _ => (leavesApart_fallThrough join).bind fun _ => leavesApart_switchTo join

theorem leavesApart_closeContinues (loop : Loop) (header : BlockId) : LeavesApart (closeContinues loop header) := by
  unfold closeContinues
  cases loop.continues with
  | nil => exact leavesApart_linkCurrent [header]
  | cons first _ => exact (leavesApart_linkCurrent [first]).bind fun _ => leavesApart_link _ _

/-- Likewise the condition of a loop. -/
theorem leavesApart_loop {labels : List String} {testFirst : Bool} {update body : Build Unit}
    (htest : KeepsApart ∅ test Operand.ids) (hupdate : LeavesApart update) (hbody : LeavesApart body) :
    LeavesApart (loop labels testFirst test update body) := by
  refine leavesApart_newBlock.bind fun continueEntry => leavesApart_newBlock.bind fun breakEntry => ?_
  refine leavesApart_newBlock.bind fun header => leavesApart_newBlock.bind fun testBlock => ?_
  refine leavesApart_newBlock.bind fun bodyBlock => (leavesApart_linkCurrent _).bind fun _ => ?_
  refine (leavesApart_link _ _).bind fun _ => (leavesApart_switchTo testBlock).bind fun _ => ?_
  rw [← bind_assoc]
  refine (leavesApart_perform .branch htest).bind fun _ => (leavesApart_linkCurrent _).bind fun _ => ?_
  refine (leavesApart_pushLoop _).bind fun _ => (leavesApart_switchTo bodyBlock).bind fun _ => ?_
  refine hbody.bind fun _ => leavesApart_popLoop.bind fun loop => (leavesApart_fallThrough _).bind fun _ => ?_
  refine (leavesApart_switchTo _).bind fun _ => hupdate.bind fun _ => ?_
  refine (leavesApart_closeContinues loop header).bind fun _ => leavesApart_newBlock.bind fun after => ?_
  exact (leavesApart_link _ _).bind fun _ => leavesApart_switchTo after

theorem leavesApart_jump (kind : Jump) (label : Option String) : LeavesApart (jump kind label) := by
  have hget : LeavesApart (get : Build Builder) := by
    refine .of_idle ?_
    rintro s _ _ ⟨⟩
    rfl
  have hextend : ∀ loop join, LeavesApart (extendChain kind loop join) := by
    intro loop join
    rw [extendChain_eq_ite]
    split
    · exact (leavesApart_link _ _).bind fun _ => .pure
    · split
      · exact .pure
      · exact .fail
  refine hget.bind fun s => ?_
  dsimp only
  split
  · exact .fail
  · refine leavesApart_newBlock.bind fun join => (leavesApart_linkCurrent [join]).bind fun _ => ?_
    exact (hextend _ _).bind fun _ => leavesApart_setLoops _

end Build

/-- Code keeps names apart if it refers to what it knows. Statements leave nothing held. -/
abbrev apartness : Judgement where
  code _ _ owed known m gives _ _ :=
    ∀ needs, (∀ o ∈ owed ++ known, o.ids ⊆ needs) → KeepsApart needs m fun a => idsOf (gives a)
  inner _ _ m _ := LeavesApart m
  flow _ _ m _ := LeavesApart m

theorem idsOf_alone : (fun v : Operand => idsOf v.alone) = Operand.ids := by
  funext v
  ext id
  exact List.mem_singleton.trans eq_comm

theorem idsOf_nothing {α : Type} : (fun a : α => idsOf (nothing a)) = Nothing := by
  funext a
  exact Set.subset_empty_iff.mp idsOf_nil_subset

theorem Build.KeepsApart.of_code {f : Frame} {names : Names} {owed known : List Operand} {m : Build Operand}
    {writes : List String} {σ : Summary} {needs : Set InstrId}
    (hm : apartness.code f names owed known m Operand.alone writes σ) (h : ∀ o ∈ owed ++ known, o.ids ⊆ needs) :
    KeepsApart needs m Operand.ids :=
  idsOf_alone ▸ hm needs h

/-- Operands of an instruction are handles or held values, so all their ids are needed. -/
theorem idsOf_used_subset {owed known values : List Operand} {needs : Set InstrId}
    (h : ∀ o ∈ owed ++ known, o.ids ⊆ needs) (hvalues : values ⊆ known) : idsOf (owed ++ values) ⊆ needs :=
  idsOf_subset_iff.mpr (forall_mem_used h hvalues)

/-- What is held is told by the operands at hand, those owed and those known. -/
theorem apartness_isClosed : apartness.IsClosed where
  pure hgives needs h := .pure (idsOf_used_subset h hgives)
  refuse _ _ _ := .fail
  bind hm hk needs h := by
    refine (hm needs (forall_mem_front h)).bind fun a needs' hsub ha => hk a needs' ?_
    exact forall_mem_behind (fun o ho => (h o ho).trans hsub) (idsOf_subset_iff.mp ha)
  weaken hm hsub needs h := hm needs (forall_mem_used h hsub)
  perm hm _ := hm
  constant hk needs h := by
    refine keepsApart_freshInstr.bind fun _ needs' hsub _ => hk needs' ?_
    exact forall_mem_drawn (fun o ho => (h o ho).trans hsub) (by simp [Operand.ids])
  count hk needs h := by
    refine keepsApart_freshInstr.bind fun _ needs' hsub _ => hk needs' ?_
    exact forall_mem_drawn (fun o ho => (h o ho).trans hsub) (by simp [Operand.ids])
  emit values _ _ _ _ hvalues needs h := by
    rw [idsOf_alone]
    exact keepsApart_emit (idsOf_used_subset h hvalues)
  perform values _ _ _ _ hvalues needs h := by
    rw [idsOf_nothing]
    exact keepsApart_perform (idsOf_used_subset h hvalues)
  read _ needs _ := by
    rw [idsOf_alone]
    exact keepsApart_readName _
  write _ hm needs _ := by
    rw [idsOf_alone]
    have hm : KeepsApart ∅ _ Operand.ids := .of_code hm (by simp)
    exact keepsApart_writeName hm.anywhere hm.givesNew _
  writeResult values _ _ _ _ _ hvalues needs h := by
    rw [idsOf_alone]
    exact keepsApart_writeResult (idsOf_used_subset h hvalues) _
  merge hcondition hfirst hsecond needs h := by
    rw [idsOf_alone]
    exact keepsApart_merge (h _ hcondition) (.of_code hfirst h) (.of_code hsecond h)
  plainCall _ hfunction hvalues needs h := by
    rw [idsOf_alone]
    refine (KeepsApart.of_code hfunction h).bind fun _ _ _ hf => (hvalues _ (by simp)).bind fun _ _ hsub hargs => ?_
    exact keepsApart_call (hf.trans hsub) (fun _ _ => keepsApart_emit idsOf_nil_subset) hargs
  methodCall hkey hobject hvalues needs h := by
    rw [idsOf_alone, lowerExpr]
    refine (KeepsApart.of_code hkey h).bind fun _ _ _ hk => ?_
    refine (KeepsApart.of_code hobject (by simp)).bind fun _ _ hsub ho => ?_
    have hload := idsOf_cons_subset ho (idsOf_cons_subset (hk.trans hsub) idsOf_nil_subset)
    refine (keepsApart_emit hload).bind fun _ _ hsub₁ hf => (hvalues _ (by simp)).bind fun _ _ hsub₂ hargs => ?_
    exact keepsApart_call (hf.trans hsub₂) (fun _ hsub₃ => .pure (ho.trans (hsub₁.trans (hsub₂.trans hsub₃)))) hargs
  construct hfunction hvalues needs h := by
    rw [idsOf_alone, lowerExpr]
    refine (KeepsApart.of_code hfunction h).bind fun _ _ _ hf => (hvalues _ (by simp)).bind fun _ _ hsub hargs => ?_
    exact keepsApart_new (hf.trans hsub) hargs
  function _ _ _ _ _ _ needs _ := by
    rw [idsOf_alone]
    exact (lowerFunction_apart _ _).anywhere
  skip := .pure
  seq hm hm' := hm.bind fun _ => hm'
  ensureOpen hm := leavesApart_ensureOpen.bind fun _ => hm
  ofCode hm := .of_code (hm ∅ (by simp))
  ofFlow hm := hm
  after hm hm' := (LeavesApart.of_code (hm ∅ (by simp))).bind fun _ => hm'
  branch htest hconsequent halternate := leavesApart_branch (.of_code htest (by simp)) hconsequent halternate
  loop htest hupdate hbody :=
    leavesApart_loop (.of_code htest (by simp)) (LeavesApart.of_code (hupdate ∅ (by simp))) hbody
  jump kind label := leavesApart_jump kind label
  ret hresult := leavesApart_perform .ret (.of_code hresult (by simp))

theorem lowerBody_apart (names : Names) (f : Frame) : LeavesApart (lowerBody names f) := by
  obtain ⟨_, hdeclared⟩ := @lowerDeclared_judged _ apartness_isClosed f names f.body (List.Subset.refl _)
    (List.Subset.refl _)
  have hstmts := @lowerStmts_judged _ apartness_isClosed f names f.body (List.Subset.refl _) (List.Subset.refl _)
  refine (LeavesApart.of_code (keepsApart_prologue f.scope)).bind fun _ => ?_
  exact (LeavesApart.of_code (hdeclared ∅ (by simp))).bind fun _ => hstmts

theorem Builder.namesApart_nested (s : Builder) : s.nested.NamesApart ∅ := by
  have hinstrs : s.nested.instrs = [] := rfl
  refine ⟨fun i hi => ?_, fun id hid => ?_, Set.empty_subset _, fun i hi => ?_, fun b hb l hl => ?_⟩
  · rw [hinstrs] at hi
    cases hi
  · obtain ⟨i, hi, _⟩ := hid
    rw [hinstrs] at hi
    cases hi
  · rw [hinstrs] at hi
    cases hi
  · rw [List.mem_singleton.mp hb] at hl
    cases hl

/-! Finished graphs. -/

/-- What is shown on the left is an id exactly if nothing is bound there. -/
theorem Instr.target_eq_text {i : Instr} {id : InstrId} :
    i.target = (Operand.instr id).text ↔ i.binding = none ∧ i.id = id := by
  have hname : ∀ name, "@" ++ name ≠ id.text := by
    intro name h
    have hfront := congrArg (fun text => text.toList.head?) h
    simp [InstrId.text] at hfront
  have htext : i.id.text = id.text ↔ i.id = id := by
    constructor
    · intro h
      have hindex : i.id.index.repr = id.index.repr := by
        simpa [InstrId.text] using h
      have hdigits := congrArg (fun text => Nat.ofDigitChars 10 text.toList 0) hindex
      exact congrArg InstrId.mk (by simpa [Nat.toList_repr, Nat.ofDigitChars_toDigits] using hdigits)
    · exact congrArg InstrId.text
  rw [Instr.target, Operand.text]
  cases i.binding with
  | none => simpa using htext
  | some name => simpa using hname name

namespace Graph.Built

variable {g : Graph} {t : Builder}

/-- Names stand apart from ids all along, so also in the finished graph. -/
theorem bound_unreferenced (h : g.Built) (ht : t.NamesApart ∅) (hblocks : g.blocks = t.blocks) {i : Instr}
    (hi : i ∈ g.instrs) (hbinding : i.binding ≠ none) :
    i.opcode.yieldsValue = true ∧ i.opcode ≠ .phi ∧ .instr i.id ∉ g.operands := by
  have hinstrs : g.instrs = t.instrs := congrArg (List.flatMap Block.instrs) hblocks
  obtain ⟨hyields, hphi, hrefs, _⟩ := ht.bound i (hinstrs ▸ hi) hbinding
  refine ⟨hyields, hphi, fun hmem => hrefs ?_⟩
  obtain ⟨j, hj, hoperand⟩ := h.mem_operands hmem
  exact ⟨j, hinstrs ▸ hj, hoperand⟩

/-- An id that is referred to belongs to an instruction of the same graph. -/
theorem mem_instrIds_of_operand (h : g.Built) {id : InstrId} (hid : .instr id ∈ g.operands) : id ∈ g.instrIds := by
  obtain ⟨j, hj, hoperand⟩ := h.mem_operands hid
  exact h.operand_mem hj hoperand

/-- Where what is bound is not referred to by id, a listing shows which instruction an operand means. -/
theorem shown_once (h : g.Built) (hbound : ∀ i ∈ g.instrs, i.binding ≠ none → .instr i.id ∉ g.operands)
    {id : InstrId} (hid : .instr id ∈ g.operands) :
    ∃ i, i.id = id ∧ g.instrs.filter (fun j => j.target = (Operand.instr id).text) = [i] := by
  obtain ⟨i, hi, rfl⟩ := Graph.mem_instrIds.mp (h.mem_instrIds_of_operand hid)
  have hunbound : i.binding = none := by
    by_contra hbinding
    exact hbound i hi hbinding hid
  have hnodup := h.placed.1
  refine ⟨i, rfl, by_contra fun hne => ?_⟩
  rcases ((hnodup.of_map _).filter _).ne_singleton_iff i |>.mp hne with hnil | ⟨k, hk, hki⟩
  · have hmem : i ∈ g.instrs.filter fun j => j.target = (Operand.instr i.id).text :=
      List.mem_filter.mpr ⟨hi, decide_eq_true (Instr.target_eq_text.mpr ⟨hunbound, rfl⟩)⟩
    rw [hnil] at hmem
    cases hmem
  · obtain ⟨hk, htarget⟩ := List.mem_filter.mp hk
    obtain ⟨_, hsame⟩ := Instr.target_eq_text.mp (of_decide_eq_true htarget)
    exact hki (List.inj_on_of_nodup_map hnodup hk hi hsame)

end Graph.Built

/-- Graphs of one construction share no id. -/
theorem Numbered.graph_eq {before after : Supply} {graphs : List Graph} (h : Numbered before after graphs)
    {g g' : Graph} (hg : g ∈ graphs) (hg' : g' ∈ graphs) {id : InstrId} (hid : id ∈ g.instrIds)
    (hid' : id ∈ g'.instrIds) : g = g' := by
  have hsymm : Std.Symm (Function.onFun List.Disjoint Graph.instrIds) := ⟨fun _ _ hdisjoint => hdisjoint.symm⟩
  by_contra hne
  exact (List.nodup_flatMap.mp h.instrs).2.forall hg hg' hne hid hid'

/-- The values of a construction are known by name or by id, never by both. -/
structure NamedOrNumbered (graphs : List Graph) : Prop where
  /-- What is bound is a value, and nothing refers to it by its id. -/
  bound : ∀ g ∈ graphs, ∀ i ∈ g.instrs, i.binding ≠ none →
    i.opcode.yieldsValue = true ∧ i.opcode ≠ .phi ∧ ∀ g' ∈ graphs, .instr i.id ∉ g'.operands
  /-- An id that stands as an operand stands on the left of exactly one instruction, the one it means. -/
  shown : ∀ g ∈ graphs, ∀ id, .instr id ∈ g.operands →
    ∃ i, i.id = id ∧ g.instrs.filter (fun j => j.target = (Operand.instr id).text) = [i]

/-- In the graphs of a script, bound values are apart from those that are referred to by id. -/
theorem values_are_named_or_numbered (p : Program) (supply : Supply) (graphs : List Graph)
    (h : (constructWith p supply).1 = .ok graphs) : NamedOrNumbered graphs := by
  have hbuilt := built_of_constructUsing h
  obtain ⟨_, hlowers⟩ := (constructUsing_settles p Scope.resolve supply).2.1 graphs h
  have hbound : ∀ g ∈ graphs, ∀ i ∈ g.instrs, i.binding ≠ none →
      i.opcode.yieldsValue = true ∧ i.opcode ≠ .phi ∧ .instr i.id ∉ g.operands := by
    intro g hg i hi hbinding
    obtain ⟨k, hk, rfl⟩ := List.getElem_of_mem hg
    have hlower := hlowers.get (hlowers.length_eq ▸ hk) hk
    obtain ⟨params, outer, s, u, _, _, hrun⟩ := hlower.run
    obtain ⟨t, hbody, _, hgraph, _⟩ := inNewGraph_eq_ok hrun
    have hapart := lowerBody_apart _ _ s.nested () t hbody s.namesApart_nested
    exact (hbuilt _ hg).bound_unreferenced hapart (congrArg Graph.blocks hgraph) hi hbinding
  refine ⟨fun g hg i hi hbinding => ?_, fun g hg id hid => ?_⟩
  · obtain ⟨hyields, hphi, hfree⟩ := hbound g hg i hi hbinding
    refine ⟨hyields, hphi, fun g' hg' hmem => hfree ?_⟩
    -- an operand of another graph means an instruction of that graph
    have hid' := (hbuilt g' hg').mem_instrIds_of_operand hmem
    rw [(numbered_of_constructWith h).graph_eq hg hg' (Graph.mem_instrIds.mpr ⟨i, hi, rfl⟩) hid']
    exact hmem
  · exact (hbuilt g hg).shown_once (fun i hi hbinding => (hbound g hg i hi hbinding).2.2) hid

/-- `function f(a) { var x = a || g, y = x++, z = []; return z[y] = a ? x : function () { return a; }; }` -/
def counterScript : Program :=
  ⟨[.function (.plain (some "f") ["a"]
    [.var ⟨.var, [⟨.ident "x", some (.logical .or (.ident "a") (.ident "g"))⟩,
        ⟨.ident "y", some (.update .increment false (.ident "x"))⟩, ⟨.ident "z", some (.array [])⟩]⟩,
      .ret (some (.assign .assign (.member (.ident "z") (.ident "y") true)
        (.conditional (.ident "a") (.ident "x") (.function (.plain none [] [.ret (some (.ident "a"))])))))])]⟩

def counterGraphs : List Graph := (constructWith counterScript .fresh).1.toOption.getD []

/-- Here a phi, an old value and an array are bound, the first two through a `nop`. -/
theorem values_are_named_or_numbered_counter :
    (constructWith counterScript .fresh).1 = .ok counterGraphs ∧
    counterGraphs.map (fun g => (g.instrs.filter fun i => i.binding.isSome).map Instr.opcode) =
      [[.function], [], [.literal, .literal, .literal, .nop, .binary, .nop, .array]] ∧
    NamedOrNumbered counterGraphs :=
  ⟨by decide +kernel, by decide +kernel,
    values_are_named_or_numbered counterScript .fresh counterGraphs (by decide +kernel)⟩

end ScriptSsa
