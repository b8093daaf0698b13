import ScriptSsa.Proofs.IdSupply
import ScriptSsa.Proofs.LoweringSteps

/-!
The graphs of a script follow the tree of its functions.

The only operand that is no value is the entry of a nested function's graph, and only the instruction that yields
the function has it. So a step adds such an operand exactly where it queues the graph of a nested function, and that
graph is queued behind those of the functions further inside. By induction on the tree of functions, the graphs are
those of its nodes, each after the graphs below it, and each refers to the graphs directly below it and to no other.
-/

namespace ScriptSsa

open Build

/-- A block is an operand only where a function is made from the graph that the block is the entry of. -/
def Instr.RefersAlone (i : Instr) : Prop :=
  ∀ id, .block id ∈ i.operands → i.opcode = .function ∧ i.operands = [.block id]

/-- The blocks that instructions have as operands. -/
def Instr.references (i : Instr) : List BlockId := i.operands.filterMap Operand.block?

def Block.references (b : Block) : List BlockId := b.instrs.flatMap Instr.references

theorem filterMap_block?_of_values {isLocal : String → Prop} {operands : List Operand}
    (h : ∀ o ∈ operands, o.IsValue isLocal) : operands.filterMap Operand.block? = [] := by
  rw [List.filterMap_eq_nil_iff]
  intro o ho
  cases o with
  | block id => exact (h _ ho).elim
  | _ => rfl

theorem Instr.refersAlone_of_values {isLocal : String → Prop} {i : Instr} (h : ∀ o ∈ i.operands, o.IsValue isLocal) :
    i.RefersAlone :=
  fun _ hid => (h _ hid).elim

namespace Builder

def references (s : Builder) : List BlockId := s.blocks.flatMap Block.references

/-- Ids are unique, and blocks are operands only where they should be. -/
structure Tidy (s : Builder) : Prop where
  fresh : s.Fresh
  nodup : s.ids.Nodup
  refers : ∀ b ∈ s.blocks, ∀ i ∈ b.instrs, i.RefersAlone

variable {s t : Builder} {id : BlockId}

theorem tidy_nested (s : Builder) : s.nested.Tidy where
  fresh := by
    intro id hid
    rw [List.mem_singleton.mp hid]
    exact Nat.lt_succ_self _
  nodup := List.nodup_singleton _
  refers := by
    intro b hb i hi
    rw [List.mem_singleton.mp hb] at hi
    cases hi

theorem references_emit {b : Block} {binding : Option String} {opcode : Opcode} {operands : List Operand}
    (hnodup : s.ids.Nodup) (hat : s.At b) :
    (s.emit binding opcode operands).references.Perm (s.references ++ operands.filterMap Operand.block?) := by
  refine (perm_flatMap_modifyBlock (s := s.draw) _ hnodup hat ?_).trans List.perm_append_comm
  rw [Block.references, List.flatMap_append, List.flatMap_singleton]
  exact List.perm_append_comm

namespace Tidy

theorem aside (h : s.Tidy) (hblocks : t.blocks = s.blocks) (hsupply : s.supply ≤ t.supply) : t.Tidy where
  fresh := by
    intro id hid
    rw [ids, hblocks] at hid
    exact Nat.lt_of_lt_of_le (h.fresh id hid) hsupply.2
  nodup := by
    rw [ids, hblocks]
    exact h.nodup
  refers := hblocks ▸ h.refers

theorem alloc (h : s.Tidy) : s.alloc.Tidy where
  fresh := h.fresh.alloc
  nodup := by
    rw [ids_alloc]
    exact h.nodup.append (List.nodup_singleton _)
      (List.disjoint_singleton.mpr (h.fresh.later_notMem 0))
  refers := by
    intro b hb i hi
    rcases List.mem_append.mp hb with hb | hb
    · exact h.refers b hb i hi
    · rw [List.mem_singleton.mp hb] at hi
      cases hi

theorem modifyBlock {f : Block → Block} (h : s.Tidy) (hid : ∀ b, b.id = id → (f b).id = id)
    (hf : ∀ b ∈ s.blocks, b.id = id → ∀ i ∈ (f b).instrs, i.RefersAlone) : (s.modifyBlock id f).Tidy where
  fresh := by
    intro j hj
    rw [ids_modifyBlock hid] at hj
    exact h.fresh j hj
  nodup := by
    rw [ids_modifyBlock hid]
    exact h.nodup
  refers := by
    intro b hb i hi
    obtain ⟨c, hc, rfl⟩ := List.mem_map.mp hb
    split at hi
    · next hcid => exact hf c hc hcid i hi
    · exact h.refers c hc i hi

theorem emit {binding : Option String} {opcode : Opcode} {operands : List Operand} (h : s.Tidy)
    (hnew : Instr.RefersAlone ⟨s.supply.nextInstr, opcode, operands, binding⟩) :
    (s.emit binding opcode operands).Tidy := by
  have hdraw : s.draw.Tidy := h.aside rfl (Supply.le_dropInstr _)
  refine hdraw.modifyBlock (fun _ hid => hid) fun b hb _ i hi => ?_
  rcases List.mem_append.mp hi with hi | hi
  · exact h.refers b hb i hi
  · rw [List.mem_singleton.mp hi]
    exact hnew

end Tidy

end Builder

/-- The graph at the top of the tree is that of its function. It refers to the graphs directly below it, once to
each. -/
structure FunctionTree.IsLowered (tree : FunctionTree (Function × Graph)) : Prop where
  run : ∃ names s t, lowerGraph names tree.label.1 s = .ok tree.label.2 t
  name : tree.label.2.name = tree.label.1.name
  references : (tree.label.2.blocks.flatMap Block.references).Perm (tree.inner.map fun t => t.label.2.entry)
  refers : ∀ b ∈ tree.label.2.blocks, ∀ i ∈ b.instrs, i.RefersAlone

/-- Between two builders, the graphs of the trees are queued in order, and the ones on top are referred to. -/
structure Queued (forest : List (FunctionTree (Function × Graph))) (s t : Builder) : Prop where
  supply : s.supply ≤ t.supply
  tidy : s.Tidy → t.Tidy
  finished : t.finished.graphs = s.finished.graphs ++ (FunctionTree.postorderAll forest).map Prod.snd
  references : s.Tidy → t.references.Perm (s.references ++ forest.map fun tree => tree.label.2.entry)

namespace Queued

variable {forest forest' : List (FunctionTree (Function × Graph))} {s t u : Builder} {id : BlockId}

theorem trans (h : Queued forest s t) (h' : Queued forest' t u) : Queued (forest ++ forest') s u where
  supply := le_trans h.supply h'.supply
  tidy hs := h'.tidy (h.tidy hs)
  finished := by
    rw [h'.finished, h.finished, FunctionTree.postorderAll_append, List.map_append, List.append_assoc]
  references hs := by
    rw [List.map_append, ← List.append_assoc]
    exact (h'.references (h.tidy hs)).trans ((h.references hs).append_right _)

/-- A change that queues nothing. -/
theorem quiet (hsupply : s.supply ≤ t.supply) (htidy : s.Tidy → t.Tidy) (hfinished : t.finished = s.finished)
    (hreferences : s.Tidy → t.references = s.references) : Queued [] s t where
  supply := hsupply
  tidy := htidy
  finished := by
    rw [hfinished]
    exact (List.append_nil _).symm
  references hs := by
    rw [hreferences hs]
    exact .of_eq (List.append_nil _).symm

/-- A change that leaves the blocks alone. -/
theorem aside (hsupply : s.supply ≤ t.supply) (hblocks : t.blocks = s.blocks) (hfinished : t.finished = s.finished) :
    Queued [] s t :=
  quiet hsupply (fun hs => hs.aside hblocks hsupply) hfinished fun _ => congrArg (List.flatMap Block.references) hblocks

theorem alloc : Queued [] s s.alloc := by
  refine quiet (Supply.le_dropBlock _) Builder.Tidy.alloc rfl fun _ => ?_
  rw [Builder.references, Builder.alloc, List.flatMap_append]
  exact List.append_nil _

theorem link (succs : List BlockId) : Queued [] s (s.link id succs) := by
  refine quiet (le_refl _) (fun hs => ?_) rfl fun _ => ?_
  · exact hs.modifyBlock (fun _ hid => hid) fun b hb _ => hs.refers b hb
  · exact Builder.flatMap_modifyBlock fun _ _ _ => rfl

theorem emit {isLocal : String → Prop} {binding : Option String} {opcode : Opcode} {operands : List Operand}
    (hvalues : ∀ o ∈ operands, o.IsValue isLocal) : Queued [] s (s.emit binding opcode operands) := by
  refine quiet (Supply.le_dropInstr _) (fun hs => hs.emit (Instr.refersAlone_of_values hvalues)) rfl fun _ => ?_
  refine Builder.flatMap_modifyBlock (s := s.draw) fun b _ _ => ?_
  rw [Block.references, List.flatMap_append, List.flatMap_singleton, Instr.references,
    filterMap_block?_of_values hvalues, List.append_nil, Block.references]

/-- The binding of an instruction does not show. -/
theorem bindLocal {isLocal : String → Prop} {name : String} {value : Operand} (hvalue : value.IsValue isLocal) :
    Queued [] s (s.bindLocal name value) := by
  rw [Builder.bindLocal]
  cases hbound : (s.block? s.current).bind fun b => b.bindLast? name value with
  | none => exact emit fun o ho => List.mem_singleton.mp ho ▸ hvalue
  | some bound =>
      obtain ⟨b, hat, hlast⟩ := Option.bind_eq_some_iff.mp hbound
      have hid : bound.id = s.current := (Block.bindLast?_id hlast).trans (Builder.block?_id hat)
      obtain ⟨init, last, hinstrs, _, _, _, _, hb⟩ := Block.bindLast?_eq_some hlast
      have hunique : s.Tidy → ∀ c ∈ s.blocks, c.id = s.current → c = b := by
        intro hs c hc hcid
        have hfound := Builder.block?_of_mem hs.nodup hc
        rw [hcid] at hfound
        exact Option.some.inj (hfound.symm.trans hat)
      refine quiet (le_refl _) (fun hs => ?_) rfl fun hs => ?_
      · refine hs.modifyBlock (fun _ _ => hid) fun c hc hcid i hi => ?_
        have hrefers := hs.refers b (Builder.mem_of_block? hat)
        rw [hb] at hi
        rw [hinstrs] at hrefers
        rcases List.mem_append.mp hi with hi | hi
        · exact hrefers i (List.mem_append_left _ hi)
        · rw [List.mem_singleton.mp hi]
          exact hrefers last (List.mem_append_right _ List.mem_cons_self)
      · refine Builder.flatMap_modifyBlock fun c hc hcid => ?_
        rw [hunique hs c hc hcid, hb, Block.references, Block.references, hinstrs, List.flatMap_append,
          List.flatMap_append]
        rfl

theorem place {b : Block} {phi : InstrId} {join : BlockId} (hjoin : s.block? join = some b) (hempty : b.instrs = []) :
    Queued [] s (s.place phi join) := by
  have hnew : Instr.RefersAlone ⟨phi, .phi, [], none⟩ := fun _ hid => nomatch hid
  refine quiet (le_refl _) (fun hs => ?_) rfl fun hs => ?_
  · refine Builder.Tidy.modifyBlock (hs.aside (t := s.enter join) rfl (le_refl _)) (fun _ hid => hid) ?_
    intro c _ _ i hi
    rw [List.mem_singleton.mp hi]
    exact hnew
  · refine Builder.flatMap_modifyBlock (s := s.enter join) fun c hc hcid => ?_
    have hfound := Builder.block?_of_mem hs.nodup hc
    rw [hcid, hjoin] at hfound
    rw [← Option.some.inj hfound, Block.references, Block.references, hempty]
    rfl

end Queued

/-- A function has been lowered from one builder to the other, with the graphs of the forest for the functions
inside it. -/
structure LoweredAside (fn : Function) (g : Graph) (forest : List (FunctionTree (Function × Graph)))
    (s t : Builder) : Prop where
  functions : FunctionTree.mapAll Prod.fst forest = fn.tree.inner
  lowered : ∀ node ∈ (FunctionTree.node (fn, g) forest).nodes, node.IsLowered
  outer : t.blocks = s.blocks ∧ t.current = s.current
  supply : s.supply ≤ t.supply
  finished : t.finished.graphs = s.finished.graphs ++ (FunctionTree.postorderAll forest).map Prod.snd

theorem LoweredAside.queued {fn : Function} {g : Graph} {forest : List (FunctionTree (Function × Graph))}
    {s t : Builder} {b : Block} (h : LoweredAside fn g forest s t) (hat : s.At b) :
    Queued [.node (fn, g) forest] s (t.closure g) := by
  obtain ⟨hblocks, hcurrent⟩ := h.outer
  have hsupply : s.supply ≤ t.supply.dropInstr := le_trans h.supply (Supply.le_dropInstr _)
  have hnew : ∀ id, Instr.RefersAlone ⟨id, .function, [.block g.entry], none⟩ := by
    intro id j hj
    rw [Operand.block.inj (List.mem_singleton.mp hj)]
    exact ⟨rfl, rfl⟩
  have hdrawn : s.Tidy → (Builder.draw { t with finished := t.finished.push g }).Tidy :=
    fun hs => hs.aside hblocks hsupply
  refine ⟨le_trans hsupply (Supply.le_dropInstr _), fun hs => (hdrawn hs).emit (hnew _), ?_, fun hs => ?_⟩
  · change t.finished.graphs ++ [g] = _
    rw [h.finished, FunctionTree.postorderAll, FunctionTree.postorder, FunctionTree.postorderAll, List.append_nil,
      List.map_append, List.append_assoc]
    rfl
  · have hat' : (Builder.draw { t with finished := t.finished.push g }).At b := by
      change t.block? t.current = some b
      rw [hcurrent, Builder.block?, hblocks]
      exact hat
    have hreferences : (Builder.draw { t with finished := t.finished.push g }).references = s.references :=
      congrArg (List.flatMap Block.references) hblocks
    rw [← hreferences]
    exact Builder.references_emit (hdrawn hs).nodup hat'

theorem Steps.queued {names : Names} {isLocal : String → Prop} {trees : List (FunctionTree Function)} {s t : Builder}
    (h : Steps names isLocal trees s t)
    (ih : ∀ tree ∈ trees, ∀ fn names s g t, fn.tree = tree → lowerGraph names fn s = .ok g t →
      ∃ forest, LoweredAside fn g forest s t) :
    ∃ forest, FunctionTree.mapAll Prod.fst forest = trees ∧
      (∀ node ∈ FunctionTree.nodesAll forest, node.IsLowered) ∧ Queued forest s t := by
  -- All changes but two leave no nested function behind.
  have hnone : ∀ node ∈ FunctionTree.nodesAll ([] : List (FunctionTree (Function × Graph))), node.IsLowered := by
    rw [FunctionTree.nodesAll]
    exact List.forall_mem_nil _
  induction h with
  | trans _ _ ih₁ ih₂ =>
      obtain ⟨forest, htrees, hlowered, hqueued⟩ := ih₁ fun tree htree => ih tree (List.mem_append_left _ htree)
      obtain ⟨forest', htrees', hlowered', hqueued'⟩ := ih₂ fun tree htree => ih tree (List.mem_append_right _ htree)
      refine ⟨forest ++ forest', ?_, ?_, hqueued.trans hqueued'⟩
      · rw [FunctionTree.mapAll_eq, List.map_append, ← FunctionTree.mapAll_eq, ← FunctionTree.mapAll_eq, htrees,
          htrees']
      · rw [FunctionTree.nodesAll_append]
        exact List.forall_mem_append.mpr ⟨hlowered, hlowered'⟩
  | @function s t b fn g hat hrun =>
      obtain ⟨forest, haside⟩ := ih fn.tree List.mem_cons_self fn names s g t rfl hrun
      refine ⟨[.node (fn, g) forest], ?_, ?_, haside.queued hat⟩
      · rw [FunctionTree.mapAll, FunctionTree.map, haside.functions, FunctionTree.mapAll, fn.tree_eq]
        rfl
      · rw [FunctionTree.nodesAll, FunctionTree.nodesAll, List.append_nil]
        exact haside.lowered
  | refl => exact ⟨[], rfl, hnone, .aside (le_refl _) rfl rfl⟩
  | draw => exact ⟨[], rfl, hnone, .aside (Supply.le_dropInstr _) rfl rfl⟩
  | alloc => exact ⟨[], rfl, hnone, .alloc⟩
  | enter => exact ⟨[], rfl, hnone, .aside (le_refl _) rfl rfl⟩
  | link => exact ⟨[], rfl, hnone, .link _⟩
  | emit hvalues => exact ⟨[], rfl, hnone, .emit hvalues⟩
  | bind _ hvalue => exact ⟨[], rfl, hnone, .bindLocal hvalue⟩
  | place hjoin hempty => exact ⟨[], rfl, hnone, .place hjoin hempty⟩
  | withPhis => exact ⟨[], rfl, hnone, .aside (le_refl _) rfl rfl⟩
  | withLoops => exact ⟨[], rfl, hnone, .aside (le_refl _) rfl rfl⟩

/-- By induction from the innermost functions outwards. -/
theorem lowerGraph_lowers (tree : FunctionTree Function) : ∀ fn names s g t, fn.tree = tree →
    lowerGraph names fn s = .ok g t → ∃ forest, LoweredAside fn g forest s t := by
  induction tree using FunctionTree.induct with
  | node label inner ih =>
      intro fn names s g u htree hrun
      obtain ⟨params, t, _, hbody, _, hg, hu⟩ := lowerGraph_eq_ok hrun
      have hruns : Takes (names.enter (Frame.mk fn.name params fn.body).scope) (fun _ => True) (lowerBody _ _) _ _ :=
        lowerBody_steps (f := ⟨fn.name, params, fn.body⟩) (fun _ => trivial) fun _ _ => trivial
      have hsteps := (hruns s.nested () t hbody).1
      have hinner : declaredTreesOf fn.body ++ treesOf fn.body = inner := by
        rw [fn.tree_eq] at htree
        exact (FunctionTree.node.inj htree).2
      obtain ⟨forest, hfunctions, hlowered, hqueued⟩ := hsteps.queued fun tree hmem => ih tree (hinner ▸ hmem)
      have hroot : FunctionTree.IsLowered (.node (fn, g) forest) := by
        have hblocks : g.blocks = t.blocks := congrArg Graph.blocks hg
        refine ⟨⟨names, s, u, hrun⟩, congrArg Graph.name hg, ?_, ?_⟩
        · change (g.blocks.flatMap Block.references).Perm _
          rw [hblocks]
          exact hqueued.references s.tidy_nested
        · change ∀ b ∈ g.blocks, _
          rw [hblocks]
          exact (hqueued.tidy s.tidy_nested).refers
      refine ⟨forest, ?_, List.forall_mem_cons.mpr ⟨hroot, hlowered⟩, ?_, ?_, ?_⟩
      · rw [hfunctions, fn.tree_eq]
        rfl
      · rw [hu]
        exact ⟨rfl, rfl⟩
      · rw [hu]
        exact le_trans (Supply.le_dropBlock _) hqueued.supply
      · rw [hu]
        exact hqueued.finished

/-! The whole script. -/

namespace FunctionTree

variable {α β : Type}

mutual

theorem postorder_map (f : α → β) : (tree : FunctionTree α) → (tree.map f).postorder = tree.postorder.map f
  | node label inner => by
    rw [map, postorder, postorder, postorderAll_mapAll f inner, List.map_append]
    rfl

theorem postorderAll_mapAll (f : α → β) :
    (trees : List (FunctionTree α)) → postorderAll (mapAll f trees) = (postorderAll trees).map f
  | [] => rfl
  | tree :: trees => by
    rw [mapAll, postorderAll, postorderAll, postorder_map f tree, postorderAll_mapAll f trees, List.map_append]

end

mutual

/-- The labels are those of the nodes. -/
theorem mem_postorder {x : α} : (tree : FunctionTree α) → (x ∈ tree.postorder ↔ ∃ node ∈ tree.nodes, node.label = x)
  | node label inner => by
    rw [postorder, nodes, List.mem_append, List.mem_singleton, List.exists_mem_cons_iff, mem_postorderAll inner]
    exact or_comm.trans (or_congr_left eq_comm)

theorem mem_postorderAll {x : α} :
    (trees : List (FunctionTree α)) → (x ∈ postorderAll trees ↔ ∃ node ∈ nodesAll trees, node.label = x)
  | [] => by
    simp [postorderAll, nodesAll]
  | tree :: trees => by
    simp only [postorderAll, nodesAll, List.mem_append, mem_postorder tree, mem_postorderAll trees, or_and_right,
      exists_or]

end

mutual

/-- Together, the graphs of a tree refer to all of them but the one on top. -/
theorem references_perm : (tree : FunctionTree (Function × Graph)) → (∀ node ∈ tree.nodes, node.IsLowered) →
    (tree.postorder.flatMap fun x => x.2.blocks.flatMap Block.references).Perm
      ((postorderAll tree.inner).map fun x => x.2.entry)
  | node label inner, h => by
    obtain ⟨hroot, hinner⟩ := List.forall_mem_cons.mp h
    rw [postorder, List.flatMap_append, List.flatMap_singleton]
    exact (hroot.references.append_left _).trans (referencesAll_perm inner hinner)

theorem referencesAll_perm : (trees : List (FunctionTree (Function × Graph))) →
    (∀ node ∈ nodesAll trees, node.IsLowered) →
    ((postorderAll trees).flatMap (fun x => x.2.blocks.flatMap Block.references) ++
      trees.map fun tree => tree.label.2.entry).Perm ((postorderAll trees).map fun x => x.2.entry)
  | [], _ => .refl _
  | node label inner :: trees, h => by
    rw [nodesAll, List.forall_mem_append] at h
    have hfirst := references_perm (node label inner) h.1
    have hrest := referencesAll_perm trees h.2
    rw [List.perm_iff_count] at hfirst hrest ⊢
    intro id
    have hfirst := hfirst id
    have hrest := hrest id
    simp only [postorderAll, postorder, FunctionTree.label, FunctionTree.inner, List.flatMap_append, List.map_append,
      List.map_cons, List.map_nil, List.count_append, List.count_cons, List.count_nil] at hfirst hrest ⊢
    omega

end

/-- The graph on top, then the others, each after those below it. -/
def graphs (tree : FunctionTree (Function × Graph)) : List Graph :=
  tree.label.2 :: (postorderAll tree.inner).map Prod.snd

variable {tree : FunctionTree (Function × Graph)}

theorem mem_graphs {g : Graph} : g ∈ tree.graphs ↔ ∃ node ∈ tree.nodes, node.label.2 = g := by
  obtain ⟨label, inner⟩ := tree
  have hinner : g ∈ (postorderAll inner).map Prod.snd ↔ ∃ node ∈ nodesAll inner, node.label.2 = g := by
    rw [List.mem_map]
    constructor
    · rintro ⟨x, hx, rfl⟩
      obtain ⟨n, hn, rfl⟩ := (mem_postorderAll inner).mp hx
      exact ⟨n, hn, rfl⟩
    · rintro ⟨n, hn, rfl⟩
      exact ⟨n.label, (mem_postorderAll inner).mpr ⟨n, hn, rfl⟩, rfl⟩
  rw [graphs, nodes, List.mem_cons, List.exists_mem_cons_iff]
  exact or_congr eq_comm hinner

theorem graphs_references (h : ∀ node ∈ tree.nodes, node.IsLowered) :
    (tree.graphs.flatMap fun g => g.blocks.flatMap Block.references).Perm (tree.graphs.tail.map Graph.entry) := by
  have hperm := references_perm tree h
  obtain ⟨label, inner⟩ := tree
  rw [postorder, List.flatMap_append, List.flatMap_singleton] at hperm
  rw [graphs, List.flatMap_cons, List.flatMap_map, List.tail_cons, List.map_map]
  exact List.perm_append_comm.trans hperm

theorem countP_graphs (h : ∀ node ∈ tree.nodes, node.IsLowered) (name : Option String) :
    tree.graphs.tail.countP (fun g => g.name = name) = countNamed name (mapAll Prod.fst tree.inner) := by
  have hname : ∀ x ∈ postorderAll tree.inner, x.2.name = x.1.name := by
    intro x hx
    obtain ⟨n, hn, rfl⟩ := (mem_postorderAll tree.inner).mp hx
    refine (h n ?_).name
    obtain ⟨label, inner⟩ := tree
    exact List.mem_cons_of_mem _ hn
  rw [graphs, List.tail_cons, List.countP_map, countNamed, postorderAll_mapAll, List.countP_map]
  refine List.countP_congr fun x hx => ?_
  simp only [Function.comp, hname x hx]

end FunctionTree

/-- The blocks that are operands somewhere in the graph. -/
def Graph.references (g : Graph) : List BlockId := g.operands.filterMap Operand.block?

/-- The table of phis adds no references. -/
theorem Graph.Built.references_eq {g : Graph} (h : g.Built) (hrefers : ∀ b ∈ g.blocks, ∀ i ∈ b.instrs, i.RefersAlone) :
    g.references = g.blocks.flatMap Block.references := by
  have hphis : (g.phis.entries.flatMap fun e => e.2.inputs.map Phi.Input.value).filterMap Operand.block? = [] := by
    rw [List.filterMap_eq_nil_iff]
    intro o ho
    obtain ⟨⟨phi, e⟩, he, ho⟩ := List.mem_flatMap.mp ho
    obtain ⟨input, hinput, rfl⟩ := List.mem_map.mp ho
    obtain ⟨b, hb, _, _, init, last, hinstrs, _, hoperands⟩ := h.phisAgree.delivered phi e he input hinput
    cases hvalue : input.value with
    | block id =>
        have hlast := hrefers b hb last (hinstrs ▸ List.mem_append_right _ List.mem_cons_self) id
        rw [hoperands, hvalue] at hlast
        cases (hlast (List.mem_cons_of_mem _ List.mem_cons_self)).2
    | _ => rfl
  rw [Graph.references, Graph.operands, List.filterMap_append, hphis, List.append_nil, Graph.instrs,
    List.filterMap_flatMap, List.flatMap_assoc]
  rfl

theorem sublist_blockIds {graphs : List Graph} (h : ∀ g ∈ graphs, g.Built) :
    (graphs.map Graph.entry).Sublist (graphs.flatMap Graph.blockIds) := by
  induction graphs with
  | nil => exact .slnil
  | cons g graphs ih =>
      obtain ⟨hg, hrest⟩ := List.forall_mem_cons.mp h
      exact (List.singleton_sublist.mpr hg.entry_mem).append (ih hrest)

/-- The graphs of a script, in order, follow the tree of its functions: there is one for each function. -/
structure FollowTree (p : Program) (graphs : List Graph) (tree : FunctionTree (Function × Graph)) : Prop where
  functions : tree.map Prod.fst = p.main.tree
  /-- The graph of the top level comes first, and every other graph after those of the functions inside. -/
  order : graphs = tree.graphs
  lowers : ∀ node ∈ tree.nodes, ∃ names s t, lowerGraph names node.label.1 s = .ok node.label.2 t
  name : ∀ node ∈ tree.nodes, node.label.2.name = node.label.1.name
  /-- A graph refers once to the graph of each function directly inside, and to nothing else. -/
  references : ∀ node ∈ tree.nodes, node.label.2.references.Perm (node.inner.map fun f => f.label.2.entry)
  refers : ∀ g ∈ graphs, ∀ i ∈ g.instrs, i.RefersAlone
  /-- So every graph but the first is referred to once in all. -/
  all : (graphs.flatMap Graph.references).Perm (graphs.tail.map Graph.entry)
  distinct : (graphs.map Graph.entry).Nodup
  /-- A walk over the script meets as many functions of each name. -/
  walk : ∀ name, graphs.tail.countP (fun g => g.name = name) = (p.walk fun _ => true).count (.function name)

/-- The graph of the top level is lowered as any other. -/
theorem lowerGraph_of_constructWith {p : Program} {supply : Supply} {graphs : List Graph}
    (h : (constructWith p supply).1 = .ok graphs) :
    ∃ main t, lowerGraph .outermost p.main (Builder.start supply) = .ok main t ∧
      graphs = main :: t.finished.graphs := by
  have hlower : lowerProgram .outermost p = lowerGraph .outermost p.main := rfl
  rw [constructWith, constructUsing, hlower] at h
  cases hrun : lowerGraph .outermost p.main (Builder.start supply) with
  | error e t =>
      rw [hrun] at h
      cases h
  | ok main t =>
      rw [hrun] at h
      exact ⟨main, t, rfl, (Except.ok.inj h).symm⟩

/-- No function is lost and none is built twice: the graphs follow the tree of functions. -/
theorem graphs_follow_functions (p : Program) (supply : Supply) (graphs : List Graph)
    (h : (constructWith p supply).1 = .ok graphs) : ∃ tree, FollowTree p graphs tree := by
  have hbuilt := built_of_constructUsing h
  have hnumbered := numbered_of_constructWith h
  obtain ⟨hsupported, _⟩ := (constructUsing_settles p Scope.resolve supply).2.1 graphs h
  obtain ⟨main, t, hrun, hgraphs⟩ := lowerGraph_of_constructWith h
  obtain ⟨forest, haside⟩ := lowerGraph_lowers p.main.tree p.main .outermost _ main t rfl hrun
  have horder : graphs = (FunctionTree.node (p.main, main) forest).graphs := by
    rw [hgraphs, haside.finished]
    rfl
  have hrefers : ∀ g ∈ graphs, ∀ b ∈ g.blocks, ∀ i ∈ b.instrs, i.RefersAlone := by
    intro g hg
    obtain ⟨node, hnode, rfl⟩ := FunctionTree.mem_graphs.mp (horder ▸ hg)
    exact (haside.lowered node hnode).refers
  have hreferences : ∀ g ∈ graphs, g.references = g.blocks.flatMap Block.references :=
    fun g hg => (hbuilt g hg).references_eq (hrefers g hg)
  refine ⟨.node (p.main, main) forest, ?_, horder, fun node hnode => (haside.lowered node hnode).run,
    fun node hnode => (haside.lowered node hnode).name, fun node hnode => ?_, fun g hg i hi => ?_, ?_, ?_,
    fun name => ?_⟩
  · rw [FunctionTree.map, haside.functions, p.main.tree_eq]
    rfl
  · rw [hreferences _ (horder ▸ FunctionTree.mem_graphs.mpr ⟨node, hnode, rfl⟩)]
    exact (haside.lowered node hnode).references
  · obtain ⟨b, hb, hi⟩ := List.mem_flatMap.mp hi
    exact hrefers g hg b hb i hi
  · rw [List.flatMap_congr hreferences, horder]
    exact FunctionTree.graphs_references haside.lowered
  · have hids : (supply.blocksTo (constructWith p supply).2).Nodup :=
      (List.Ico.nodup _ _).map fun _ _ hid => BlockId.mk.inj hid
    exact (hnumbered.blocks.nodup_iff.mpr hids).sublist (sublist_blockIds hbuilt)
  · have hinner : FunctionTree.mapAll Prod.fst forest = declaredTreesOf p.body ++ treesOf p.body := haside.functions
    rw [horder, FunctionTree.countP_graphs haside.lowered]
    change countNamed name (FunctionTree.mapAll Prod.fst forest) = countEvents name (walkStmts (fun _ => true) p.body)
    rw [hinner, countNamed_append, count_walkStmts name p.body [] hsupported]

/-- `while (a) { function f(x) { return; g(function () {}); } } h = function k() { if (b) function m() {} };` -/
def hoistingScript : Program :=
  ⟨[.whileLoop (.ident "a") (.block [.function (.plain (some "f") ["x"]
      [.ret none, .expr (.call (.ident "g") [.function (.plain none [] [])])])]),
    .expr (.assign .assign (.ident "h") (.function (.plain (some "k") []
      [.branch (.ident "b") (.function (.plain (some "m") [] [])) none])))]⟩

def hoistingGraphs : List Graph := (constructWith hoistingScript .fresh).1.toOption.getD []

theorem graphs_follow_functions_nested :
    (constructWith hoistingScript .fresh).1 = .ok hoistingGraphs ∧
    hoistingGraphs.map (fun g => (g.name, g.references.length)) =
      [(none, 2), (none, 0), (some "f", 1), (some "m", 0), (some "k", 1)] ∧
    ∃ tree, FollowTree hoistingScript hoistingGraphs tree :=
  ⟨by decide +kernel, by decide +kernel,
    graphs_follow_functions hoistingScript .fresh hoistingGraphs (by decide +kernel)⟩

end ScriptSsa
