import ScriptSsa.Proofs.LoweringTrace
import ScriptSsa.Proofs.Respelling

/-!
Construction does not depend on the spelling.

Respelled expressions are lowered by the same steps. Respelled statements do the same wherever lowering can stand: the
one difference is that an empty block as `else` first asks for an open block, and the block of the branch not taken is
always open, for nothing has been put into it. That lowering keeps to such places is known from its traces, so the
recursion on the syntax tree goes along with theirs.
-/

namespace ScriptSsa

namespace Build

variable {α β : Type} {s t : Builder}

theorem bind_eq_bind {m m' : Build α} {f f' : α → Build β} (hm : m s = m' s)
    (hf : ∀ a t, m s = .ok a t → f a t = f' a t) : (m >>= f) s = (m' >>= f') s := by
  cases h : m s with
  | ok a t => rw [bind_ok h, bind_ok (hm.symm.trans h), hf a t h]
  | error e t => rw [bind_error h, bind_error (hm.symm.trans h)]

/-- A first step whose outcome is known. -/
theorem step_eq_step {m : Build α} {f f' : α → Build β} {a : α} (h : m s = .ok a t) (hf : f a t = f' a t) :
    (m >>= f) s = (m >>= f') s := by
  rw [bind_ok h, bind_ok h, hf]

theorem inNewGraph_eq_inNewGraph {name : Option String} {body body' : Build Unit} (h : body s.nested = body' s.nested) :
    inNewGraph name body s = inNewGraph name body' s := by
  rw [Builder.nested] at h
  rw [inNewGraph, inNewGraph, h]

/-- Statements that do the same wherever the one before can end. -/
def SameFlow (m m' : Build Unit) : Prop := ∀ s, Stage.flow.Ready s → m s = m' s

/-- Statements that do the same in an open block. -/
def SameOpenFlow (m m' : Build Unit) : Prop := ∀ s, Stage.code.Ready s → m s = m' s

variable {E : BuildError → Prop} {m m' n n' : Build Unit}

theorem SameFlow.of_eq (h : m = m') : SameFlow m m' := fun _ _ => h ▸ rfl

theorem SameOpenFlow.of_eq (h : m = m') : SameOpenFlow m m' := fun _ _ => h ▸ rfl

theorem SameFlow.sameOpenFlow (h : SameFlow m m') : SameOpenFlow m m' := fun s hs => h s (Stage.Ready.flow hs)

theorem SameFlow.seq (hm : IsFlow E m) (h : SameFlow m m') (h' : SameFlow n n') :
    SameFlow (m >>= fun _ => n) (m' >>= fun _ => n') :=
  fun s hs => bind_eq_bind (h s hs) fun _ t hrun => h' t (((hm s hs).ok hrun).ready hs)

theorem SameOpenFlow.after (hm : IsCode E ∅ m Any) (h : SameOpenFlow n n') :
    SameOpenFlow (m >>= fun _ => n) (m >>= fun _ => n') := by
  refine fun s hs => bind_eq_bind rfl fun _ t hrun => h t ?_
  obtain ⟨_, _, _, htrace⟩ := (hm s hs).ok hrun
  exact htrace.ready hs

theorem SameOpenFlow.ensureOpen (h : SameOpenFlow m m') :
    SameFlow (ensureOpen >>= fun _ => m) (Build.ensureOpen >>= fun _ => m') := by
  rintro s ⟨hfits, pending, hsound⟩
  obtain ⟨b, hat⟩ := hsound.at_current
  obtain ⟨hsound', hopen⟩ := hsound.reopen hfits
  rw [← Builder.loopsWaiting_reopen] at hsound'
  exact step_eq_step (ensureOpen_eq hat) (h _ ⟨hopen, pending, hsound'⟩)

/-- In an open block an empty block finds nothing to open. -/
theorem sameOpenFlow_skip : SameOpenFlow (pure ()) (ensureOpen >>= fun _ => pure ()) := by
  intro s hs
  obtain ⟨b, hat, _⟩ := hs.1
  have hterminated : s.terminated = false := Builder.IsOpen.terminated hs.1
  rw [bind_ok (ensureOpen_eq hat), Builder.reopen, hterminated]
  rfl

theorem sameOpenFlow_branch {test : Build Operand} {consequent consequent' alternate alternate' : Build Unit}
    (htest : IsCode E ∅ test Value) (hconsequent : IsFlow E consequent) (hthen : SameFlow consequent consequent')
    (helse : SameOpenFlow alternate alternate') :
    SameOpenFlow (branch test consequent alternate) (branch test consequent' alternate') := by
  intro s hs
  refine bind_eq_bind rfl fun v s₀ hrun => ?_
  obtain ⟨_, _, _, htrace⟩ := (htest s hs).ok hrun
  obtain ⟨hopen₀, pending, hsound₀⟩ := htrace.ready hs
  obtain ⟨hsound₀', hat₀⟩ := @Sound.openBranch _ _ v hsound₀ hopen₀
  have hready₀ : Stage.flow.Ready ((s₀.split v).enter (s₀.later 0)) :=
    ⟨.inl (Builder.isOpen_of_empty hat₀), _ :: _ :: pending, hsound₀'⟩
  obtain ⟨b, hb, hsuccs⟩ := hopen₀.unlinked
  refine step_eq_step (perform_eq hb) ?_
  refine step_eq_step newBlock_eq (step_eq_step newBlock_eq (step_eq_step newBlock_eq ?_))
  refine step_eq_step
    (linkCurrent_eq (Builder.At_alloc (Builder.At_alloc (Builder.At_alloc (Builder.At_emit hb)))) hsuccs (by simp)) ?_
  have hfirst : s₀.later 0 ∈ (s₀.split v).ids := by simp
  refine step_eq_step (switchTo_eq hfirst) (bind_eq_bind (hthen _ hready₀) fun _ s₁ hrun₁ => ?_)
  -- The other arm starts in its own block, which the first one has left empty.
  have htrace₁ := (hconsequent _ hready₀).ok hrun₁
  obtain ⟨hsound₁, hfits₁⟩ := hsound₀.consequent hopen₀ htrace₁.keeps
  obtain ⟨b₁, hb₁⟩ := hsound₁.at_current
  have hmem₁ : s₀.later 1 ∈ s₁.ids := hsound₁.mem_ids (by simp)
  have hlast₁ : s₀.later 2 ∈ s₁.ids := hsound₁.mem_ids (by simp)
  obtain ⟨hsound₁', hat₁⟩ := hsound₁.fallThenEnter hfits₁ (List.mem_cons_of_mem _ List.mem_cons_self)
  rw [← Builder.loopsWaiting_fallTo] at hsound₁'
  have hready₁ : Stage.code.Ready ((s₁.fallTo (s₀.later 2)).enter (s₀.later 1)) :=
    ⟨Builder.isOpen_of_empty hat₁, _ :: pending, hsound₁'⟩
  refine step_eq_step (fallThrough_eq hb₁ hlast₁) (step_eq_step (switchTo_eq (by rwa [Builder.ids_fallTo])) ?_)
  exact bind_eq_bind (helse _ hready₁) fun _ _ _ => rfl

theorem sameOpenFlow_loop {labels : List String} {testFirst : Bool} {test : Build Operand}
    {update body body' : Build Unit} (htest : IsCode E ∅ test Value) (hbody : SameFlow body body') :
    SameOpenFlow (loop labels testFirst test update body) (loop labels testFirst test update body') := by
  rintro s ⟨hopen, pending, hsound⟩
  obtain ⟨b, hb, hsuccs⟩ := hopen.unlinked
  obtain ⟨hsound₀, hat₀⟩ := @Sound.openLoop _ _ testFirst hsound hopen
  have hready₀ : Stage.code.Ready (s.openLoop testFirst) :=
    ⟨Builder.isOpen_of_empty hat₀, _ :: _ :: _ :: pending, hsound₀⟩
  refine step_eq_step newBlock_eq (step_eq_step newBlock_eq (step_eq_step newBlock_eq
    (step_eq_step newBlock_eq (step_eq_step newBlock_eq ?_))))
  refine step_eq_step (linkCurrent_eq (Builder.At_alloc (Builder.At_alloc (Builder.At_alloc (Builder.At_alloc
    (Builder.At_alloc hb))))) hsuccs (by simp)) ?_
  refine step_eq_step (link_eq (hsound.fresh.block?_header (Builder.mem_ids_of_block? hb)) rfl ?_) ?_
  · split <;> simp
  refine step_eq_step (switchTo_eq ?_) ?_
  · change s.later 3 ∈ (s.openLoop testFirst).ids
    simp
  refine bind_eq_bind rfl fun v s₁ hrun => ?_
  obtain ⟨_, _, _, htrace⟩ := (htest _ hready₀).ok hrun
  obtain ⟨hsound₁, hopen₁⟩ := hsound.loopTest hopen htrace.keeps
  obtain ⟨hsound₁', hat₁⟩ := @Sound.loopBody _ _ v labels _ _ _ hsound₁ hopen₁
  have hready₁ : Stage.flow.Ready
      (s₁.openBody v (s.later 4) (s.later 1) ⟨labels, s.later 0, s.later 0, [], s.later 1, []⟩) :=
    ⟨.inl (Builder.isOpen_of_empty hat₁), pending, hsound₁'⟩
  obtain ⟨b₁, hb₁, hsuccs₁⟩ := hopen₁.unlinked
  have hmem₁ : s.later 4 ∈ s₁.ids := hsound₁.mem_ids (by simp)
  have hbreak₁ : s.later 1 ∈ s₁.ids := hsound₁.mem_ids (by simp)
  refine step_eq_step (perform_eq hb₁) (step_eq_step (linkCurrent_eq (Builder.At_emit hb₁) hsuccs₁ ?_) ?_)
  · simpa using ⟨hmem₁, hbreak₁⟩
  refine step_eq_step rfl (step_eq_step (switchTo_eq ?_) (bind_eq_bind (hbody _ hready₁) fun _ _ _ => rfl))
  change s.later 4 ∈ ((s₁.emit none .branch [v]).link s₁.current [s.later 4, s.later 1]).ids
  rwa [Builder.ids_link, Builder.ids_emit]

/-! Keys. -/

theorem memberKey_respells {computed : Bool} {property property' : Expr} {evaluate evaluate' : Build Operand}
    (h : Expr.Respells computed property property') (hevaluate : computed = true → evaluate' = evaluate) :
    memberKey property' computed evaluate' = memberKey property computed evaluate := by
  cases computed with
  | true => exact hevaluate rfl
  | false => simp only [memberKey, Bool.false_eq_true, if_false, h.ident?_eq, h.kind_eq]

theorem propertyKey_respells {kind : PropertyKind} {computed : Bool} {key key' : Expr}
    (h : Expr.Respells computed key key') : propertyKey kind computed key' = propertyKey kind computed key := by
  cases computed with
  | true => rfl
  | false => cases h <;> rfl

/-- A step by one is the compound assignment of the number one. -/
theorem assignName_compound (names : Names) (name : String) (op : UpdateOp) :
    assignName names name op.compound (literal one) = updateName names name op true := by
  rw [assignName, op.binary?_compound]
  rfl

theorem assignMember_compound (op : UpdateOp) (place : Build Target) :
    assignMember op.compound place (literal one) = updateMember op true place := by
  rw [assignMember, op.binary?_compound]
  rfl

end Build

open Build

variable {p : Program} {rule : List Scope → Access → String → Except Fault Resolution}

/-- The body of a function: first values, hoisted functions, statements. -/
theorem sameOpenFlow_body {f : Frame} {outer : List Frame} (hnest : Nest p (f :: outer)) {body' : List Stmt}
    (hdeclared : lowerDeclared (Names.inside rule (f :: outer)) body' =
      lowerDeclared (Names.inside rule (f :: outer)) f.body)
    (hstmts : SameFlow (lowerStmts (Names.inside rule (f :: outer)) f.body)
      (lowerStmts (Names.inside rule (f :: outer)) body')) :
    SameOpenFlow
      (do
        prologue (Names.inside rule (f :: outer)) f.scope
        lowerDeclared (Names.inside rule (f :: outer)) f.body
        lowerStmts (Names.inside rule (f :: outer)) f.body)
      (do
        prologue (Names.inside rule (f :: outer)) f.scope
        lowerDeclared (Names.inside rule (f :: outer)) body'
        lowerStmts (Names.inside rule (f :: outer)) body') := by
  have hprologue : IsCode (Refusal p rule) ∅ (prologue (Names.inside rule (f :: outer)) f.scope) Any :=
    isCode_prologue fun name hname => hnest.mayLookUp (.inr ⟨rfl, Frame.mem_declared_of_param hname⟩)
  have hfunctions := @lowerDeclared_isCode p rule f outer hnest f.body (List.Subset.refl _) (List.Subset.refl _) ∅
  rw [hdeclared]
  exact .after hprologue (.after hfunctions hstmts.sameOpenFlow)

mutual

theorem lowerExpr_respells {f : Frame} {outer : List Frame} (hnest : Nest p (f :: outer)) :
    (e : Expr) → e.items ⊆ itemsOf f.body → ∀ evaluated e', Expr.Respells evaluated e e' →
      lowerExpr (Names.inside rule (f :: outer)) e' = lowerExpr (Names.inside rule (f :: outer)) e
  | .ident _, _, _, _, h | .literal _, _, _, _, h | .this, _, _, _, h | .unsupported _, _, _, _, h => by
    cases h
    rfl
  | .array es, hi, _, _, h => by
    rw [Expr.items] at hi
    have helements := lowerElements_respells hnest es hi
    cases h with
    | array hes => simp only [lowerExpr, helements _ _ _ hes, hes.length_eq]
  | .object ps, hi, _, _, h => by
    rw [Expr.items] at hi
    have hproperties := lowerProperties_respells hnest ps hi
    cases h with
    | object hps => simp only [lowerExpr, hproperties _ _ hps, hps.length_eq]
  | .function fn, hi, _, _, h => by
    have hfunction := lowerFunction_respells hnest fn (hi (by simp [Expr.items]))
    cases h with
    | function hf => rw [lowerExpr, lowerExpr, hfunction _ hf]
  | .unary op argument, hi, _, _, h => by
    rw [Expr.items] at hi
    have hargument := lowerExpr_respells hnest argument hi
    have hmember := memberParts_respells hnest argument hi
    cases h with
    | unary _ he =>
        have heq := hargument _ _ he
        cases op with
        | delete =>
            cases he with
            | member ho hp =>
                obtain ⟨hkey, hobject, _⟩ := hmember _ _ _ _ _ rfl ho hp
                simp only [lowerExpr, hkey, hobject]
            | _ => simp only [lowerExpr] at heq ⊢ <;> rw [heq]
        | _ => simp only [lowerExpr, heq]
  | .update op isPrefix argument, hi, _, _, h => by
    have hmember := memberParts_respells hnest argument
    cases h with
    | update _ _ he =>
        cases he with
        | member ho hp =>
            simp only [Expr.items] at hi
            obtain ⟨hkey, _, hchain⟩ := hmember (by simpa only [Expr.items] using hi) _ _ _ _ _ rfl ho hp
            simp only [lowerExpr, lowerTarget_member, hkey, hchain]
        | _ => simp only [lowerExpr, Expr.kind]
    | stepName _ name =>
        simp only [lowerExpr, Expr.one]
        exact assignName_compound _ name op
    | stepMember _ ho hp =>
        simp only [Expr.items] at hi
        obtain ⟨hkey, _, hchain⟩ := hmember (by simpa only [Expr.items] using hi) _ _ _ _ _ rfl ho hp
        simp only [lowerExpr, lowerTarget_member, Expr.one, hkey, hchain]
        exact assignMember_compound op _
  | .binary _ left right, hi, _, _, h => by
    rw [Expr.items, List.append_subset] at hi
    cases h with
    | binary _ hl hr =>
        rw [lowerExpr, lowerExpr, lowerExpr_respells hnest left hi.1 _ _ hl, lowerExpr_respells hnest right hi.2 _ _ hr]
  | .logical _ left right, hi, _, _, h => by
    rw [Expr.items, List.append_subset] at hi
    cases h with
    | logical _ hl hr =>
        rw [lowerExpr, lowerExpr, lowerExpr_respells hnest left hi.1 _ _ hl, lowerExpr_respells hnest right hi.2 _ _ hr]
  | .assign op left right, hi, _, _, h => by
    have hmember := memberParts_respells hnest left
    have hright := lowerExpr_respells hnest right
    cases h with
    | assign _ hl hr =>
        cases hl with
        | ident name =>
            rw [Expr.items, List.cons_append, List.cons_subset, List.append_subset] at hi
            simp only [lowerExpr, hright hi.2.2 _ _ hr]
        | member ho hp =>
            simp only [Expr.items, List.append_subset] at hi
            obtain ⟨hkey, _, hchain⟩ :=
              hmember (by simpa only [Expr.items, List.append_subset] using hi.1) _ _ _ _ _ rfl ho hp
            simp only [lowerExpr, lowerTarget_member, hkey, hchain, hright hi.2 _ _ hr]
        | _ => simp only [lowerExpr, Expr.kind]
  | .conditional t c a, hi, _, _, h => by
    rw [Expr.items, List.append_subset, List.append_subset] at hi
    cases h with
    | conditional ht hc ha =>
        rw [lowerExpr, lowerExpr, lowerExpr_respells hnest t hi.1.1 _ _ ht, lowerExpr_respells hnest c hi.1.2 _ _ hc,
          lowerExpr_respells hnest a hi.2 _ _ ha]
  | .sequence es, hi, _, _, h => by
    rw [Expr.items] at hi
    cases h with
    | sequence hes => rw [lowerExpr, lowerExpr, lowerSequence_respells hnest es hi _ hes]
  | .member o p computed, hi, _, _, h => by
    rw [Expr.items, List.append_subset] at hi
    have hproperty := lowerExpr_respells hnest p
    cases h with
    | member ho hp =>
        have hkey := memberKey_respells hp fun hcomputed => hproperty (by simpa [hcomputed] using hi.2) _ _ hp
        rw [lowerExpr, lowerExpr, hkey, lowerExpr_respells hnest o hi.1 _ _ ho]
  | .call callee arguments, hi, _, _, h => by
    rw [Expr.items, List.append_subset] at hi
    have hcallee := lowerExpr_respells hnest callee hi.1
    have hmember := memberParts_respells hnest callee hi.1
    have harguments := lowerExprs_respells hnest arguments hi.2
    cases h with
    | call hf hes =>
        have heq := hcallee _ _ hf
        cases hf with
        | member ho hp =>
            obtain ⟨hkey, hobject, _⟩ := hmember _ _ _ _ _ rfl ho hp
            simp only [lowerExpr, hkey, hobject, harguments _ hes]
        | _ => simp only [lowerExpr, harguments _ hes] at heq ⊢ <;> rw [heq]
  | .new callee arguments, hi, _, _, h => by
    rw [Expr.items, List.append_subset] at hi
    cases h with
    | new hf hes =>
        rw [lowerExpr, lowerExpr, lowerExpr_respells hnest callee hi.1 _ _ hf,
          lowerExprs_respells hnest arguments hi.2 _ hes]
termination_by structural e => e

/-- The parts of a member expression. -/
theorem memberParts_respells {f : Frame} {outer : List Frame} (hnest : Nest p (f :: outer)) :
    (e : Expr) → e.items ⊆ itemsOf f.body → ∀ object property computed object' property',
      e = .member object property computed → Expr.Respells true object object' →
      Expr.Respells computed property property' →
      memberKey property' computed (lowerExpr (Names.inside rule (f :: outer)) property') =
        memberKey property computed (lowerExpr (Names.inside rule (f :: outer)) property) ∧
      lowerExpr (Names.inside rule (f :: outer)) object' = lowerExpr (Names.inside rule (f :: outer)) object ∧
      lowerChain (Names.inside rule (f :: outer)) (lowerExpr (Names.inside rule (f :: outer)) object') object' =
        lowerChain (Names.inside rule (f :: outer)) (lowerExpr (Names.inside rule (f :: outer)) object) object
  | .member object property computed, hi, _, _, _, object', property', rfl, ho, hp => by
    rw [Expr.items, List.append_subset] at hi
    have hproperty := lowerExpr_respells hnest property
    have hobject := lowerExpr_respells hnest object hi.1 _ _ ho
    refine ⟨memberKey_respells hp fun hcomputed => ?_, hobject, ?_⟩
    · exact hproperty (by simpa [hcomputed] using hi.2) _ _ hp
    · rw [hobject]
      exact lowerChain_respells hnest object hi.1 _ _ ho
termination_by structural e => e

theorem lowerChain_respells {f : Frame} {outer : List Frame} (hnest : Nest p (f :: outer))
    {evaluate : Build Operand} : (e : Expr) → e.items ⊆ itemsOf f.body → ∀ evaluated e', Expr.Respells evaluated e e' →
      lowerChain (Names.inside rule (f :: outer)) evaluate e' = lowerChain (Names.inside rule (f :: outer)) evaluate e
  | .member o p computed, hi, _, _, h => by
    rw [Expr.items, List.append_subset] at hi
    have hproperty := lowerExpr_respells hnest p
    cases h with
    | member ho hp =>
        have hkey := memberKey_respells hp fun hcomputed => hproperty (by simpa [hcomputed] using hi.2) _ _ hp
        rw [lowerChain, lowerChain, hkey, lowerExpr_respells hnest o hi.1 _ _ ho,
          lowerChain_respells hnest o hi.1 _ _ ho]
  | .ident _, _, _, _, h | .literal _, _, _, _, h | .this, _, _, _, h | .array _, _, _, _, h | .object _, _, _, _, h
  | .function _, _, _, _, h | .unary _ _, _, _, _, h | .update _ _ _, _, _, _, h | .binary _ _ _, _, _, _, h
  | .logical _ _ _, _, _, _, h | .assign _ _ _, _, _, _, h | .conditional _ _ _, _, _, _, h
  | .sequence _, _, _, _, h | .call _ _, _, _, _, h | .new _ _, _, _, _, h | .unsupported _, _, _, _, h => by
    cases h <;> simp only [lowerChain]
termination_by structural e => e

theorem lowerExprs_respells {f : Frame} {outer : List Frame} (hnest : Nest p (f :: outer)) :
    (es : List Expr) → itemsOfExprs es ⊆ itemsOf f.body → ∀ es', List.Forall₂ (Expr.Respells true) es es' →
      lowerExprs (Names.inside rule (f :: outer)) es' = lowerExprs (Names.inside rule (f :: outer)) es
  | [], _, _, h => by
    cases h
    rfl
  | e :: es, hi, _, h => by
    rw [itemsOfExprs, List.append_subset] at hi
    cases h with
    | cons he hes =>
        rw [lowerExprs, lowerExprs, lowerExpr_respells hnest e hi.1 _ _ he, lowerExprs_respells hnest es hi.2 _ hes]
termination_by structural es => es

theorem lowerSequence_respells {f : Frame} {outer : List Frame} (hnest : Nest p (f :: outer)) :
    (es : List Expr) → itemsOfExprs es ⊆ itemsOf f.body → ∀ es', List.Forall₂ (Expr.Respells true) es es' →
      lowerSequence (Names.inside rule (f :: outer)) es' = lowerSequence (Names.inside rule (f :: outer)) es
  | [], _, _, h => by
    cases h
    rfl
  | e :: es, hi, _, h => by
    rw [itemsOfExprs, List.append_subset] at hi
    cases h with
    | cons he hes =>
        have hfirst := lowerExpr_respells hnest e hi.1 _ _ he
        have hrest := lowerSequence_respells hnest es hi.2 _ hes
        cases hes with
        | nil => rw [lowerSequence, lowerSequence, hfirst]
        | cons _ _ => simp only [lowerSequence, hfirst, hrest]
termination_by structural es => es

theorem lowerElements_respells {f : Frame} {outer : List Frame} (hnest : Nest p (f :: outer)) :
    (es : List (Option Expr)) → itemsOfElements es ⊆ itemsOf f.body → ∀ array index es',
      List.Forall₂ (Option.Rel (Expr.Respells true)) es es' →
      lowerElements (Names.inside rule (f :: outer)) array index es' =
        lowerElements (Names.inside rule (f :: outer)) array index es
  | [], _, _, _, _, h => by
    cases h
    rfl
  | none :: es, hi, array, index, _, h => by
    rw [itemsOfElements] at hi
    cases h with
    | cons he hes =>
        cases he
        rw [lowerElements, lowerElements, lowerElements_respells hnest es hi _ _ _ hes]
  | some e :: es, hi, array, index, _, h => by
    rw [itemsOfElements, List.append_subset] at hi
    cases h with
    | cons he hes =>
        cases he with
        | some he =>
            rw [lowerElements, lowerElements, lowerExpr_respells hnest e hi.1 _ _ he,
              lowerElements_respells hnest es hi.2 _ _ _ hes]
termination_by structural es => es

theorem lowerProperties_respells {f : Frame} {outer : List Frame} (hnest : Nest p (f :: outer)) :
    (ps : List Property) → itemsOfProperties ps ⊆ itemsOf f.body → ∀ object ps',
      List.Forall₂ Property.Respells ps ps' →
      lowerProperties (Names.inside rule (f :: outer)) object ps' =
        lowerProperties (Names.inside rule (f :: outer)) object ps
  | [], _, _, _, h => by
    cases h
    rfl
  | ⟨key, value, kind, computed⟩ :: ps, hi, object, _, h => by
    rw [itemsOfProperties, List.append_subset, List.append_subset] at hi
    cases h with
    | cons hp hps =>
        cases hp with
        | mk _ hkey hvalue =>
            rw [lowerProperties, lowerProperties, propertyKey_respells hkey,
              lowerExpr_respells hnest value hi.1.2 _ _ hvalue, lowerProperties_respells hnest ps hi.2 _ _ hps]
termination_by structural ps => ps

theorem lowerFunction_respells {f : Frame} {outer : List Frame} (hnest : Nest p (f :: outer)) :
    (fn : Function) → Item.function fn ∈ itemsOf f.body → ∀ fn', Function.Respells fn fn' →
      lowerFunction (Names.inside rule (f :: outer)) fn' = lowerFunction (Names.inside rule (f :: outer)) fn
  | ⟨name, params, body, isGenerator, isAsync⟩, hi, _, h => by
    cases h with
    | mk _ _ _ hparams hbody =>
        rw [lowerFunction, lowerFunction, Scope.ofFunction_respells hparams hbody]
        refine congrArg (checkOrdinary isGenerator isAsync >>= ·) (funext fun _ => ?_)
        rcases Scope.ofFunction_cases name params body with ⟨names, hidents, hscope⟩ | ⟨_, what, hscope⟩
        · rw [hscope]
          have hinner : Nest p (⟨name, names, body⟩ :: f :: outer) := .inside hnest hi hidents
          have hsame := @sameOpenFlow_body p rule _ _ hinner _
            (lowerDeclared_respells hinner body (List.Subset.refl _) _ hbody)
            (lowerStmts_respells hinner body (List.Subset.refl _) (List.Subset.refl _) _ hbody)
          -- The graph depends on what its body does in a builder of its own, which is always ready.
          refine congrArg (· >>= functionValue) (funext fun s => ?_)
          exact (inNewGraph_eq_inNewGraph (hsame s.nested s.ready_nested)).symm
        · rw [hscope]
          rfl
termination_by structural fn => fn

theorem lowerDeclared_respells {f : Frame} {outer : List Frame} (hnest : Nest p (f :: outer)) :
    (body : List Stmt) → itemsOf body ⊆ itemsOf f.body → ∀ body', List.Forall₂ Stmt.Respells body body' →
      lowerDeclared (Names.inside rule (f :: outer)) body' = lowerDeclared (Names.inside rule (f :: outer)) body
  | [], _, _, h => by
    cases h
    rfl
  | s :: ss, hi, _, h => by
    rw [itemsOf, List.append_subset] at hi
    cases h with
    | cons h hrest =>
        rw [lowerDeclared, lowerDeclared, lowerDeclaredIn_respells hnest s hi.1 _ h,
          lowerDeclared_respells hnest ss hi.2 _ hrest]
termination_by structural body => body

theorem lowerDeclaredIn_respells {f : Frame} {outer : List Frame} (hnest : Nest p (f :: outer)) :
    (s : Stmt) → s.items ⊆ itemsOf f.body → ∀ s', Stmt.Respells s s' →
      lowerDeclaredIn (Names.inside rule (f :: outer)) s' = lowerDeclaredIn (Names.inside rule (f :: outer)) s
  | .function fn, hi, _, h => by
    rw [Stmt.items, List.cons_subset] at hi
    have hfunction := lowerFunction_respells hnest fn hi.1
    cases h with
    | function hf =>
        rw [lowerDeclaredIn, lowerDeclaredIn, hfunction _ hf]
        cases hf
        rfl
  | .block body, hi, _, h => by
    rw [Stmt.items] at hi
    cases h with
    | block hbody => rw [lowerDeclaredIn, lowerDeclaredIn, lowerDeclared_respells hnest body hi _ hbody]
  | .branch _ c a, hi, _, h => by
    rw [Stmt.items, List.append_subset, List.append_subset] at hi
    have hc := lowerDeclaredIn_respells hnest c hi.1.2
    have ha := lowerDeclaredInAlternate_respells hnest a hi.2
    cases h with
    | branch _ h h' => rw [lowerDeclaredIn, lowerDeclaredIn, hc _ h, ha _ h']
    | elseEmpty _ h => simp only [lowerDeclaredIn, lowerDeclaredInAlternate, hc _ h]
    | elseBlock _ h => simp only [lowerDeclaredIn, lowerDeclaredInAlternate, lowerDeclared, hc _ h]
  | .whileLoop _ b, hi, _, h => by
    rw [Stmt.items, List.append_subset] at hi
    have hb := lowerDeclaredIn_respells hnest b hi.2
    cases h with
    | whileLoop _ h | whileFor _ h => rw [lowerDeclaredIn, lowerDeclaredIn, hb _ h]
  | .doWhile b _, hi, _, h => by
    rw [Stmt.items, List.append_subset] at hi
    cases h with
    | doWhile hb _ => rw [lowerDeclaredIn, lowerDeclaredIn, lowerDeclaredIn_respells hnest b hi.1 _ hb]
  | .forLoop _ _ _ b, hi, _, h => by
    rw [Stmt.items, List.append_subset] at hi
    have hb := lowerDeclaredIn_respells hnest b hi.2
    cases h with
    | forLoop _ _ _ h | testTrue _ _ h => rw [lowerDeclaredIn, lowerDeclaredIn, hb _ h]
  | .labeled _ b, hi, _, h => by
    rw [Stmt.items] at hi
    cases h with
    | labeled _ hb => rw [lowerDeclaredIn, lowerDeclaredIn, lowerDeclaredIn_respells hnest b hi _ hb]
  | .var _, _, _, h | .expr _, _, _, h | .empty, _, _, h | .jump _ _, _, _, h | .ret _, _, _, h
  | .unsupported _, _, _, h => by
    cases h
    simp only [lowerDeclaredIn]
termination_by structural s => s

theorem lowerDeclaredInAlternate_respells {f : Frame} {outer : List Frame} (hnest : Nest p (f :: outer)) :
    (a : Option Stmt) → itemsOfAlternate a ⊆ itemsOf f.body → ∀ a', Option.Rel Stmt.Respells a a' →
      lowerDeclaredInAlternate (Names.inside rule (f :: outer)) a' =
        lowerDeclaredInAlternate (Names.inside rule (f :: outer)) a
  | none, _, _, h => by
    cases h
    rfl
  | some s, hi, _, h => by
    rw [itemsOfAlternate] at hi
    cases h with
    | some h =>
        rw [lowerDeclaredInAlternate, lowerDeclaredInAlternate, lowerDeclaredIn_respells hnest s hi _ h]
termination_by structural a => a

theorem lowerStmts_respells {f : Frame} {outer : List Frame} (hnest : Nest p (f :: outer)) :
    (body : List Stmt) → itemsOf body ⊆ itemsOf f.body → declarationsOf body ⊆ declarationsOf f.body →
      ∀ body', List.Forall₂ Stmt.Respells body body' →
      SameFlow (lowerStmts (Names.inside rule (f :: outer)) body) (lowerStmts (Names.inside rule (f :: outer)) body')
  | [], _, _, _, h => by
    cases h
    exact .of_eq rfl
  | s :: ss, hi, hd, _, h => by
    rw [itemsOf, List.append_subset] at hi
    rw [declarationsOf, List.append_subset] at hd
    cases h with
    | cons h hrest =>
        rw [lowerStmts, lowerStmts]
        exact .seq (lowerStmt_isFlow hnest s hi.1 hd.1) (lowerStmt_respells hnest s hi.1 hd.1 _ h).1
          (lowerStmts_respells hnest ss hi.2 hd.2 _ hrest)
termination_by structural body => body

/-- A statement, and what it is behind labels. -/
theorem lowerStmt_respells {f : Frame} {outer : List Frame} (hnest : Nest p (f :: outer)) :
    (s : Stmt) → s.items ⊆ itemsOf f.body → s.declarations ⊆ declarationsOf f.body → ∀ s', Stmt.Respells s s' →
      SameFlow (lowerStmt (Names.inside rule (f :: outer)) s) (lowerStmt (Names.inside rule (f :: outer)) s') ∧
      ∀ labels, SameOpenFlow (lowerLabeled (Names.inside rule (f :: outer)) labels s)
        (lowerLabeled (Names.inside rule (f :: outer)) labels s')
  | .function _, _, _, _, h | .empty, _, _, _, h | .jump _ _, _, _, _, h | .unsupported _, _, _, _, h => by
    cases h
    exact ⟨.of_eq (by simp only [lowerStmt]), fun _ => .of_eq (by simp only [lowerLabeled, Stmt.kind])⟩
  | .var d, hi, _, _, h => by
    rw [Stmt.items] at hi
    cases h with
    | var hd =>
        refine ⟨.of_eq ?_, fun _ => .of_eq (by simp only [lowerLabeled, Stmt.kind])⟩
        rw [lowerStmt, lowerStmt, lowerVarDecl_respells hnest d hi _ hd]
  | .expr e, hi, _, _, h => by
    rw [Stmt.items] at hi
    cases h with
    | expr he =>
        refine ⟨.of_eq ?_, fun _ => .of_eq (by simp only [lowerLabeled, Stmt.kind])⟩
        rw [lowerStmt, lowerStmt, lowerExpr_respells hnest e hi _ _ he]
  | .block body, hi, hd, _, h => by
    rw [Stmt.items] at hi
    rw [Stmt.declarations] at hd
    cases h with
    | block hbody =>
        refine ⟨?_, fun _ => .of_eq (by simp only [lowerLabeled, Stmt.kind])⟩
        rw [lowerStmt, lowerStmt]
        exact (lowerStmts_respells hnest body hi hd _ hbody).sameOpenFlow.ensureOpen
  | .branch t c a, hi, hd, _, h => by
    rw [Stmt.items, List.append_subset, List.append_subset] at hi
    rw [Stmt.declarations, List.append_subset] at hd
    have htest := lowerExpr_respells hnest t hi.1.1 true
    have hthen := lowerStmt_respells hnest c hi.1.2 hd.1
    have helse := lowerAlternate_respells hnest a hi.2 hd.2
    have hcode := @lowerExpr_isCode p rule f outer hnest t hi.1.1 ∅
    have hflow := @lowerStmt_isFlow p rule f outer hnest c hi.1.2 hd.1
    cases h with
    | branch ht hc ha =>
        refine ⟨?_, fun _ => .of_eq (by simp only [lowerLabeled, Stmt.kind])⟩
        rw [lowerStmt, lowerStmt, htest _ ht]
        exact (sameOpenFlow_branch hcode hflow (hthen _ hc).1 (helse _ ha)).ensureOpen
    | elseEmpty ht hc =>
        refine ⟨?_, fun _ => .of_eq (by simp only [lowerLabeled, Stmt.kind])⟩
        simp only [lowerStmt, lowerAlternate, htest _ ht]
        exact (sameOpenFlow_branch hcode hflow (hthen _ hc).1 (.of_eq rfl)).ensureOpen
    | elseBlock ht hc =>
        refine ⟨?_, fun _ => .of_eq (by simp only [lowerLabeled, Stmt.kind])⟩
        simp only [lowerStmt, lowerAlternate, lowerStmts, htest _ ht]
        exact (sameOpenFlow_branch hcode hflow (hthen _ hc).1 sameOpenFlow_skip).ensureOpen
  | .whileLoop t b, hi, hd, s', h => by
    rw [Stmt.items, List.append_subset] at hi
    rw [Stmt.declarations] at hd
    have htest := lowerExpr_respells hnest t hi.1 true
    have hbody := lowerStmt_respells hnest b hi.2 hd
    have hcode := @lowerExpr_isCode p rule f outer hnest t hi.1 ∅
    cases h with
    | whileLoop ht hb =>
        simp only [lowerStmt, lowerLabeled, htest _ ht]
        exact ⟨(sameOpenFlow_loop hcode (hbody _ hb).1).ensureOpen, fun _ => sameOpenFlow_loop hcode (hbody _ hb).1⟩
    | whileFor ht hb =>
        simp only [lowerStmt, lowerLabeled, lowerInit, lowerTest, lowerUpdate, pure_bind, htest _ ht]
        exact ⟨(sameOpenFlow_loop hcode (hbody _ hb).1).ensureOpen, fun _ => sameOpenFlow_loop hcode (hbody _ hb).1⟩
  | .doWhile b t, hi, hd, _, h => by
    rw [Stmt.items, List.append_subset] at hi
    rw [Stmt.declarations] at hd
    have hcode := @lowerExpr_isCode p rule f outer hnest t hi.2 ∅
    cases h with
    | doWhile hb ht =>
        have hbody := (lowerStmt_respells hnest b hi.1 hd _ hb).1
        simp only [lowerStmt, lowerLabeled, lowerExpr_respells hnest t hi.2 _ _ ht]
        exact ⟨(sameOpenFlow_loop hcode hbody).ensureOpen, fun _ => sameOpenFlow_loop hcode hbody⟩
  | .forLoop i t u b, hi, hd, _, h => by
    rw [Stmt.items, List.append_subset, List.append_subset, List.append_subset] at hi
    rw [Stmt.declarations, List.append_subset] at hd
    have hinit := lowerInit_respells hnest i hi.1.1.1
    have htest := lowerTest_respells hnest t hi.1.1.2
    have hupdate := lowerUpdate_respells hnest u hi.1.2
    have hbody := lowerStmt_respells hnest b hi.2 hd.2
    have hcode := @lowerTest_isCode p rule f outer hnest t hi.1.1.2 ∅
    have hbefore := @lowerInit_isCode p rule f outer hnest i hi.1.1.1 hd.1 ∅
    have hloop : ∀ {b'} labels, Stmt.Respells b b' → SameOpenFlow
        (lowerInit (Names.inside rule (f :: outer)) i >>= fun _ => loop labels true
          (lowerTest (Names.inside rule (f :: outer)) t) (lowerUpdate (Names.inside rule (f :: outer)) u)
          (lowerStmt (Names.inside rule (f :: outer)) b))
        (lowerInit (Names.inside rule (f :: outer)) i >>= fun _ => loop labels true
          (lowerTest (Names.inside rule (f :: outer)) t) (lowerUpdate (Names.inside rule (f :: outer)) u)
          (lowerStmt (Names.inside rule (f :: outer)) b')) :=
      fun _ hb => .after hbefore (sameOpenFlow_loop hcode (hbody _ hb).1)
    cases h with
    | forLoop hi' ht hu hb =>
        simp only [lowerStmt, lowerLabeled, hinit _ hi', htest _ ht, hupdate _ hu]
        exact ⟨(hloop [] hb).ensureOpen, fun labels => hloop labels hb⟩
    | testTrue hi' hu hb =>
        simp only [lowerStmt, lowerLabeled, hinit _ hi', hupdate _ hu]
        simp only [lowerTest, lowerExpr] at hloop ⊢
        exact ⟨(hloop [] hb).ensureOpen, fun labels => hloop labels hb⟩
  | .ret e, hi, _, _, h => by
    rw [Stmt.items] at hi
    cases h with
    | ret he =>
        refine ⟨.of_eq ?_, fun _ => .of_eq (by simp only [lowerLabeled, Stmt.kind])⟩
        rw [lowerStmt, lowerStmt, lowerResult_respells hnest e hi _ he]
  | .labeled label b, hi, hd, _, h => by
    rw [Stmt.items] at hi
    rw [Stmt.declarations] at hd
    cases h with
    | labeled _ hb =>
        have hlabeled := (lowerStmt_respells hnest b hi hd _ hb).2
        simp only [lowerStmt, lowerLabeled]
        exact ⟨(hlabeled [label]).ensureOpen, fun labels => hlabeled (labels ++ [label])⟩
termination_by structural s => s

theorem lowerAlternate_respells {f : Frame} {outer : List Frame} (hnest : Nest p (f :: outer)) :
    (a : Option Stmt) → itemsOfAlternate a ⊆ itemsOf f.body → declarationsOfAlternate a ⊆ declarationsOf f.body →
      ∀ a', Option.Rel Stmt.Respells a a' →
      SameOpenFlow (lowerAlternate (Names.inside rule (f :: outer)) a)
        (lowerAlternate (Names.inside rule (f :: outer)) a')
  | none, _, _, _, h => by
    cases h
    exact .of_eq rfl
  | some s, hi, hd, _, h => by
    rw [itemsOfAlternate] at hi
    rw [declarationsOfAlternate] at hd
    cases h with
    | some h =>
        rw [lowerAlternate, lowerAlternate]
        exact (lowerStmt_respells hnest s hi hd _ h).1.sameOpenFlow
termination_by structural a => a

theorem lowerVarDecl_respells {f : Frame} {outer : List Frame} (hnest : Nest p (f :: outer)) :
    (d : VarDecl) → d.items ⊆ itemsOf f.body → ∀ d', VarDecl.Respells d d' →
      lowerVarDecl (Names.inside rule (f :: outer)) d' = lowerVarDecl (Names.inside rule (f :: outer)) d
  | ⟨kind, ds⟩, hi, _, h => by
    rw [VarDecl.items] at hi
    cases h with
    | mk _ hds => rw [lowerVarDecl, lowerVarDecl, lowerDeclarators_respells hnest ds hi _ hds]
termination_by structural d => d

theorem lowerDeclarators_respells {f : Frame} {outer : List Frame} (hnest : Nest p (f :: outer)) :
    (ds : List Declarator) → itemsOfDeclarators ds ⊆ itemsOf f.body → ∀ ds',
      List.Forall₂ Declarator.Respells ds ds' →
      lowerDeclarators (Names.inside rule (f :: outer)) ds' = lowerDeclarators (Names.inside rule (f :: outer)) ds
  | [], _, _, h => by
    cases h
    rfl
  | ⟨target, none⟩ :: ds, hi, _, h => by
    rw [itemsOfDeclarators, List.append_subset] at hi
    have hrest := lowerDeclarators_respells hnest ds hi.2
    cases h with
    | cons hd hds =>
        cases hd with
        | mk htarget hinit =>
            cases hinit
            cases htarget with
            | ident name => rw [lowerDeclarators, lowerDeclarators, hrest _ hds]
            | _ => simp only [lowerDeclarators, Expr.kind]
  | ⟨target, some init⟩ :: ds, hi, _, h => by
    rw [itemsOfDeclarators, List.append_subset, List.append_subset] at hi
    have hvalue := lowerExpr_respells hnest init hi.1.2 true
    have hrest := lowerDeclarators_respells hnest ds hi.2
    cases h with
    | cons hd hds =>
        cases hd with
        | mk htarget hinit =>
            cases hinit with
            | some hinit =>
                cases htarget with
                | ident name => rw [lowerDeclarators, lowerDeclarators, hvalue _ hinit, hrest _ hds]
                | _ => simp only [lowerDeclarators, Expr.kind]
termination_by structural ds => ds

theorem lowerInit_respells {f : Frame} {outer : List Frame} (hnest : Nest p (f :: outer)) :
    (i : Option ForInit) → itemsOfInit i ⊆ itemsOf f.body → ∀ i', Option.Rel ForInit.Respells i i' →
      lowerInit (Names.inside rule (f :: outer)) i' = lowerInit (Names.inside rule (f :: outer)) i
  | none, _, _, h => by
    cases h
    rfl
  | some (.var d), hi, _, h => by
    rw [itemsOfInit] at hi
    cases h with
    | some h =>
        cases h with
        | var hd => rw [lowerInit, lowerInit, lowerVarDecl_respells hnest d hi _ hd]
  | some (.expr e), hi, _, h => by
    rw [itemsOfInit] at hi
    cases h with
    | some h =>
        cases h with
        | expr he => rw [lowerInit, lowerInit, lowerExpr_respells hnest e hi _ _ he]
termination_by structural i => i

theorem lowerTest_respells {f : Frame} {outer : List Frame} (hnest : Nest p (f :: outer)) :
    (e : Option Expr) → itemsOfOptional e ⊆ itemsOf f.body → ∀ e', Option.Rel (Expr.Respells true) e e' →
      lowerTest (Names.inside rule (f :: outer)) e' = lowerTest (Names.inside rule (f :: outer)) e
  | none, _, _, h => by
    cases h
    rfl
  | some e, hi, _, h => by
    rw [itemsOfOptional] at hi
    cases h with
    | some he => rw [lowerTest, lowerTest, lowerExpr_respells hnest e hi _ _ he]
termination_by structural e => e

theorem lowerUpdate_respells {f : Frame} {outer : List Frame} (hnest : Nest p (f :: outer)) :
    (e : Option Expr) → itemsOfOptional e ⊆ itemsOf f.body → ∀ e', Option.Rel (Expr.Respells true) e e' →
      lowerUpdate (Names.inside rule (f :: outer)) e' = lowerUpdate (Names.inside rule (f :: outer)) e
  | none, _, _, h => by
    cases h
    rfl
  | some e, hi, _, h => by
    rw [itemsOfOptional] at hi
    cases h with
    | some he => rw [lowerUpdate, lowerUpdate, lowerExpr_respells hnest e hi _ _ he]
termination_by structural e => e

theorem lowerResult_respells {f : Frame} {outer : List Frame} (hnest : Nest p (f :: outer)) :
    (e : Option Expr) → itemsOfOptional e ⊆ itemsOf f.body → ∀ e', Option.Rel (Expr.Respells true) e e' →
      lowerResult (Names.inside rule (f :: outer)) e' = lowerResult (Names.inside rule (f :: outer)) e
  | none, _, _, h => by
    cases h
    rfl
  | some e, hi, _, h => by
    rw [itemsOfOptional] at hi
    cases h with
    | some he => rw [lowerResult, lowerResult, lowerExpr_respells hnest e hi _ _ he]
termination_by structural e => e

end

theorem lowerProgram_respells {p q : Program} (h : p.Respells q) :
    lowerProgram ⟨[], rule⟩ q = lowerProgram ⟨[], rule⟩ p := by
  have hnest : Nest p [⟨none, [], p.body⟩] := .top
  have hsame := @sameOpenFlow_body p rule _ _ hnest _ (lowerDeclared_respells hnest p.body (List.Subset.refl _) _ h)
    (lowerStmts_respells hnest p.body (List.Subset.refl _) (List.Subset.refl _) _ h)
  rw [lowerProgram, lowerProgram, Scope.ofFunction_respells .nil h]
  exact funext fun s => (inNewGraph_eq_inNewGraph (hsame s.nested s.ready_nested)).symm

theorem constructWith_respells {p q : Program} (h : p.Respells q) (supply : Supply) :
    constructWith q supply = constructWith p supply := by
  rw [constructWith, constructWith, constructUsing, constructUsing, Names.outermost, lowerProgram_respells h]

/-- A respelled script has the same graphs, with the same ids, or is refused for the same reason, and the same ids are
drawn from every supply. -/
theorem construction_ignores_spelling {p q : Program} (h : p.Respells q) :
    construct q = construct p ∧ ∀ supply, constructWith q supply = constructWith p supply :=
  ⟨congrArg Prod.fst (constructWith_respells h .fresh), constructWith_respells h⟩

/-- `function f(x) { while (x) if (++x) for (;;) --o.p; } l: while (y) if (z) break l;` -/
def looseScript : Program :=
  ⟨[.function (.plain (some "f") ["x"]
      [.whileLoop (.ident "x") (.branch (.update .increment true (.ident "x"))
        (.forLoop none none none (.expr (.update .decrement true (.dot (.ident "o") "p")))) none)]),
    .labeled "l" (.whileLoop (.ident "y") (.branch (.ident "z") (.jump .exit (some "l")) none))]⟩

/-- `function f(x) { for (; x;) if (x += 1) for (; true;) o.p -= 1; else {} } l: for (; y;) if (z) break l; else;` -/
def strictScript : Program :=
  ⟨[.function (.plain (some "f") ["x"]
      [.forLoop none (some (.ident "x")) none (.branch (.assign .add (.ident "x") .one)
        (.forLoop none (some (.literal (.bool true))) none (.expr (.assign .sub (.dot (.ident "o") "p") .one)))
        (some (.block [])))]),
    .labeled "l" (.forLoop none (some (.ident "y")) none
      (.branch (.ident "z") (.jump .exit (some "l")) (some .empty)))]⟩

theorem construction_ignores_spelling_loose :
    looseScript.Respells strictScript ∧ (construct looseScript).isOk = true ∧
    construct strictScript = construct looseScript := by
  have hstep : Expr.Respells true (.update .decrement true (.dot (.ident "o") "p"))
      (.assign .sub (.dot (.ident "o") "p") .one) := .stepMember .decrement (.ident "o") (.ident "p")
  have hbody : Stmt.Respells _ _ := .whileFor (.ident "x")
    (.elseBlock (.stepName .increment "x") (.testTrue .none .none (.expr hstep)))
  have hloop : Stmt.Respells _ _ := .labeled "l"
    (.whileFor (.ident "y") (.elseEmpty (.ident "z") (.jump .exit (some "l"))))
  have h : looseScript.Respells strictScript :=
    .cons (.function (.mk _ _ _ (.cons (.ident "x") .nil) (.cons hbody .nil))) (.cons hloop .nil)
  exact ⟨h, by decide +kernel, (construction_ignores_spelling h).1⟩

end ScriptSsa
