import ScriptSsa.Proofs.LexicalScope
import ScriptSsa.Proofs.MemberPaths
import ScriptSsa.Proofs.OpenBlocks
import ScriptSsa.Proofs.Summary

/-!
What a judgement on code has to satisfy to hold of everything that is lowered.

Code is put together from few steps: ids are drawn, instructions are emitted, names are read and written, and there
are merges, calls, nested functions and the patterns of blocks that statements make. `Judgement.IsClosed` asks of a
judgement one rule for each of them. The operations of the language follow from these rules, whatever the judgement
says.

The rules keep track of operands by what they are. A constant or a count is a handle: an id is drawn for it, and it
is owed to the next instruction that is emitted for it, where it comes before all other operands. Every other operand
is known by the time it is used.
-/

namespace ScriptSsa

open Build

/-- The body of a function: first values, hoisted functions, statements. -/
def lowerBody (names : Names) (f : Frame) : Build Unit := do
  prologue names f.scope
  lowerDeclared names f.body
  lowerStmts names f.body

/-- What is refused before anything is lowered. -/
theorem lowerFunction_eq_unsupported (names : Names) (fn : Function)
    (h : (!fn.isGenerator && !fn.isAsync && fn.params.all fun e => e.ident?.isSome) = false) :
    ∃ what, lowerFunction names fn = unsupported what := by
  obtain ⟨name, params, body, isGenerator, isAsync⟩ := fn
  cases isGenerator with
  | true => exact ⟨"generator function", rfl⟩
  | false =>
      cases isAsync with
      | true => exact ⟨"async function", rfl⟩
      | false =>
          rcases Scope.ofFunction_cases name params body with ⟨idents, rfl, _⟩ | ⟨_, what, hscope⟩
          · simp [Expr.ident?] at h
          · refine ⟨what, ?_⟩
            rw [lowerFunction, hscope]
            rfl

/-- An ordinary function whose parameters are identifiers is lowered in a graph of its own. -/
theorem lowerFunction_eq_nested (names : Names) {fn : Function} {params : List String}
    (hgenerator : fn.isGenerator = false) (hasync : fn.isAsync = false) (hparams : fn.params = params.map Expr.ident) :
    lowerFunction names fn =
      inNewGraph fn.name (lowerBody (names.enter (Frame.mk fn.name params fn.body).scope)
        ⟨fn.name, params, fn.body⟩) >>= functionValue := by
  obtain ⟨name, _, body, isGenerator, isAsync⟩ := fn
  subst hgenerator hasync hparams
  rw [lowerFunction, Scope.ofFunction_idents]
  rfl

/-- Whether an id is drawn for the operand itself. -/
def Operand.isHandle : Operand → Bool
  | constant _ | count _ | block _ => true
  | instr _ | localVar _ => false

/-- Whether the instruction pushes an argument or takes arguments. -/
def Opcode.passesArgs : Opcode → Bool
  | pushArg | call | new => true
  | _ => false

/-- The local variable that an item writes, if it does. -/
def Item.localWrite? (names : Names) : Item → Option String
  | use ⟨.write, name⟩ => if names.find .write name = .ok .localVar then some name else none
  | use ⟨.read, _⟩ | function _ => none

/-- The local variables that are written, once for each write. -/
def localWrites (names : Names) (items : List Item) : List String := items.filterMap (Item.localWrite? names)

section

variable {names : Names} {items items' : List Item}

theorem localWrites_append :
    localWrites names (items ++ items') = localWrites names items ++ localWrites names items' :=
  List.filterMap_append

/-- A compound assignment reads the variable, which does not count. -/
theorem localWrites_assign {name : String} {compound : Bool} :
    localWrites names (.use ⟨.write, name⟩ :: if compound then [.use ⟨.read, name⟩] else []) =
      localWrites names [.use ⟨.write, name⟩] := by
  cases compound <;> rfl

end

/-! The operands in the results of code. -/

abbrev Operand.alone (v : Operand) : List Operand := [v]

abbrev Target.operands (target : Target) : List Operand := [target.object, target.key]

abbrev Chain.operands (chain : Chain) : List Operand := chain.base :: chain.keys

abbrev nothing {α : Type} (_ : α) : List Operand := []

/-! What holds of all operands at hand, as code goes on. -/

section

variable {holds : Operand → Prop} {owed owed' known values : List Operand}

theorem forall_mem_used (h : ∀ o ∈ owed ++ known, holds o) (hvalues : values ⊆ known) :
    ∀ o ∈ owed ++ values, holds o := by
  obtain ⟨howed, hknown⟩ := List.forall_mem_append.mp h
  exact List.forall_mem_append.mpr ⟨howed, fun o ho => hknown o (hvalues ho)⟩

/-- A handle is drawn. -/
theorem forall_mem_drawn {o : Operand} (h : ∀ o ∈ owed ++ known, holds o) (ho : holds o) :
    ∀ o' ∈ owed ++ [o] ++ known, holds o' := by
  obtain ⟨howed, hknown⟩ := List.forall_mem_append.mp h
  exact List.forall_mem_append.mpr
    ⟨List.forall_mem_append.mpr ⟨howed, List.forall_mem_singleton.mpr ho⟩, hknown⟩

/-- What stands in front uses the first handles. -/
theorem forall_mem_front (h : ∀ o ∈ owed ++ owed' ++ known, holds o) : ∀ o ∈ owed ++ known, holds o := by
  obtain ⟨howed, hknown⟩ := List.forall_mem_append.mp h
  exact List.forall_mem_append.mpr ⟨(List.forall_mem_append.mp howed).1, hknown⟩

/-- What stands behind uses the other handles, and the result of what stands in front. -/
theorem forall_mem_behind (h : ∀ o ∈ owed ++ owed' ++ known, holds o) (hvalues : ∀ o ∈ values, holds o) :
    ∀ o ∈ owed' ++ (values ++ known), holds o := by
  obtain ⟨howed, hknown⟩ := List.forall_mem_append.mp h
  exact List.forall_mem_append.mpr
    ⟨(List.forall_mem_append.mp howed).2, List.forall_mem_append.mpr ⟨hvalues, hknown⟩⟩

end

/-- A judgement on code, in the function `f` and under `names`. -/
structure Judgement where
  /-- Of code that uses the handles of `owed` and the operands of `known`, and binds the local variables of `writes`.
  `gives` lists the operands in its result. -/
  code : {α : Type} → (f : Frame) → (names : Names) → (owed known : List Operand) → Build α →
    (gives : α → List Operand) → (writes : List String) → Summary → Prop
  /-- Of what stands in a statement: it starts where control can go on. -/
  inner : (f : Frame) → (names : Names) → Build Unit → Summary → Prop
  /-- Of statements. -/
  flow : (f : Frame) → (names : Names) → Build Unit → Summary → Prop

namespace Judgement

structure IsClosed (J : Judgement) : Prop where
  pure {α : Type} {f : Frame} {names : Names} {known : List Operand} {a : α} {gives : α → List Operand}
    (hgives : gives a ⊆ known) : J.code f names [] known (Pure.pure a) gives [] .idle
  /-- Nothing is said of what is refused, but that it is not supported. -/
  refuse {α : Type} {f : Frame} {names : Names} {owed known : List Operand} {what : String}
    {gives : α → List Operand} {writes : List String} {σ : Summary} (hσ : ∀ loops, σ.supported loops = false) :
    J.code f names owed known (unsupported what : Build α) gives writes σ
  bind {α β : Type} {f : Frame} {names : Names} {owed owed' known : List Operand} {m : Build α} {k : α → Build β}
    {gives : α → List Operand} {gives' : β → List Operand} {writes writes' : List String} {σ τ : Summary}
    (hm : J.code f names owed known m gives writes σ)
    (hk : ∀ a, J.code f names owed' (gives a ++ known) (k a) gives' writes' τ) :
    J.code f names (owed ++ owed') known (m >>= k) gives' (writes ++ writes') (σ ++ τ)
  weaken {α : Type} {f : Frame} {names : Names} {owed known known' : List Operand} {m : Build α}
    {gives : α → List Operand} {writes : List String} {σ : Summary} (hm : J.code f names owed known m gives writes σ)
    (hsub : known ⊆ known') : J.code f names owed known' m gives writes σ
  perm {α : Type} {f : Frame} {names : Names} {owed known : List Operand} {m : Build α} {gives : α → List Operand}
    {writes writes' : List String} {σ : Summary} (hm : J.code f names owed known m gives writes σ)
    (hperm : writes.Perm writes') : J.code f names owed known m gives writes' σ
  constant {α : Type} {f : Frame} {names : Names} {owed known : List Operand} {c : Constant}
    {k : Operand → Build α} {gives : α → List Operand} {writes : List String} {σ : Summary}
    (hk : J.code f names (owed ++ [.constant c]) known (k (.constant c)) gives writes σ) :
    J.code f names owed known (constant c >>= k) gives writes σ
  count {α : Type} {f : Frame} {names : Names} {owed known : List Operand} {n : Nat} {k : Operand → Build α}
    {gives : α → List Operand} {writes : List String} {σ : Summary}
    (hk : J.code f names (owed ++ [.count n]) known (k (.count n)) gives writes σ) :
    J.code f names owed known (count n >>= k) gives writes σ
  emit {f : Frame} {names : Names} {owed known : List Operand} {opcode : Opcode} (values : List Operand)
    (hplain : opcode.isPlain = true) (hyields : opcode.yieldsValue = true) (hargs : opcode.passesArgs = false)
    (howed : owed.all Operand.isHandle = true) (hvalues : values ⊆ known) :
    J.code f names owed known (emit opcode (owed ++ values)) Operand.alone [] .idle
  perform {f : Frame} {names : Names} {owed known : List Operand} {opcode : Opcode} (values : List Operand)
    (hplain : opcode.isPlain = true) (hyields : opcode.yieldsValue = false) (hargs : opcode.passesArgs = false)
    (howed : owed.all Operand.isHandle = true) (hvalues : values ⊆ known) :
    J.code f names owed known (perform opcode (owed ++ values)) nothing [] .idle
  read {f : Frame} {names : Names} {known : List Operand} {name : String} (hlooks : f.Looks .read name) :
    J.code f names [] known (readName names name) Operand.alone [] (.read names name)
  /-- A value that is written has just been made, by code that knows of none before it. -/
  write {f : Frame} {names : Names} {known : List Operand} {name : String} {m : Build Operand}
    {writes : List String} {σ : Summary} (hlooks : f.Looks .write name)
    (hm : J.code f names [] [] m Operand.alone writes σ) :
    J.code f names [] known (m >>= writeName names name) Operand.alone
      (writes ++ localWrites names [.use ⟨.write, name⟩]) σ
  /-- Or by the instruction before. -/
  writeResult {f : Frame} {names : Names} {owed known : List Operand} {name : String} {opcode : Opcode}
    (values : List Operand) (hlooks : f.Looks .write name) (hplain : opcode.isPlain = true)
    (hyields : opcode.yieldsValue = true) (hargs : opcode.passesArgs = false)
    (howed : owed.all Operand.isHandle = true) (hvalues : values ⊆ known) :
    J.code f names owed known (Build.emit opcode (owed ++ values) >>= writeName names name) Operand.alone
      (localWrites names [.use ⟨.write, name⟩]) .idle
  merge {f : Frame} {names : Names} {known : List Operand} {condition : Operand} {trueFirst : Bool}
    {first second : Build Operand} {writes writes' : List String} {σ τ : Summary} (hcondition : condition ∈ known)
    (hfirst : J.code f names [] known first Operand.alone writes σ)
    (hsecond : J.code f names [] known second Operand.alone writes' τ) :
    J.code f names [] known (Build.merge condition trueFirst first second) Operand.alone (writes ++ writes')
      (.merge ++ (σ ++ τ))
  plainCall {f : Frame} {names : Names} {callee : Expr} {arguments : List Expr} {writes writes' : List String}
    (hcallee : ∀ object property computed, callee ≠ .member object property computed)
    (hfunction : J.code f names [] [] (lowerExpr names callee) Operand.alone writes (callee.summary names))
    (hvalues : J.code f names [] [] (lowerExprs names arguments) id writes' (summaryOfExprs names arguments)) :
    J.code f names [] [] (do
        let function ← lowerExpr names callee
        call function (Build.emit .global []) (← lowerExprs names arguments))
      Operand.alone (writes ++ writes') ((Expr.call callee arguments).summary names)
  methodCall {f : Frame} {names : Names} {object property : Expr} {computed : Bool} {arguments : List Expr}
    {writes writes' writes'' : List String}
    (hkey : J.code f names [] [] (memberKey property computed (lowerExpr names property)) Operand.alone writes
      (keySummary names property computed))
    (hobject : J.code f names [] [] (lowerExpr names object) Operand.alone writes' (object.summary names))
    (hvalues : J.code f names [] [] (lowerExprs names arguments) id writes'' (summaryOfExprs names arguments)) :
    J.code f names [] [] (lowerExpr names (.call (.member object property computed) arguments)) Operand.alone
      (writes ++ (writes' ++ writes'')) ((Expr.call (.member object property computed) arguments).summary names)
  construct {f : Frame} {names : Names} {callee : Expr} {arguments : List Expr} {writes writes' : List String}
    (hfunction : J.code f names [] [] (lowerExpr names callee) Operand.alone writes (callee.summary names))
    (hvalues : J.code f names [] [] (lowerExprs names arguments) id writes' (summaryOfExprs names arguments)) :
    J.code f names [] [] (lowerExpr names (.new callee arguments)) Operand.alone (writes ++ writes')
      ((Expr.new callee arguments).summary names)
  /-- An ordinary function whose parameters are identifiers. -/
  function {f : Frame} {names : Names} {fn : Function} {params : List String} {writes : List String}
    (hitem : Item.function fn ∈ itemsOf f.body) (hgenerator : fn.isGenerator = false)
    (hasync : fn.isAsync = false) (hparams : fn.params = params.map Expr.ident)
    (hdeclared : J.code ⟨fn.name, params, fn.body⟩ (names.enter (Frame.mk fn.name params fn.body).scope) [] []
      (lowerDeclared (names.enter (Frame.mk fn.name params fn.body).scope) fn.body) nothing writes
      (declaredSummaryOf (names.enter (Frame.mk fn.name params fn.body).scope) fn.body))
    (hstmts : J.flow ⟨fn.name, params, fn.body⟩ (names.enter (Frame.mk fn.name params fn.body).scope)
      (lowerStmts (names.enter (Frame.mk fn.name params fn.body).scope) fn.body)
      (summaryOf (names.enter (Frame.mk fn.name params fn.body).scope) fn.body)) :
    J.code f names [] [] (lowerFunction names fn) Operand.alone [] (fn.summary names)
  skip {f : Frame} {names : Names} : J.flow f names (Pure.pure ()) .idle
  seq {f : Frame} {names : Names} {m m' : Build Unit} {σ τ : Summary} (hm : J.flow f names m σ)
    (hm' : J.flow f names m' τ) : J.flow f names (m >>= fun _ => m') (σ ++ τ)
  ensureOpen {f : Frame} {names : Names} {m : Build Unit} {σ : Summary} (hm : J.inner f names m σ) :
    J.flow f names (ensureOpen >>= fun _ => m) σ
  ofCode {f : Frame} {names : Names} {m : Build Unit} {writes : List String} {σ : Summary}
    (hm : J.code f names [] [] m nothing writes σ) : J.inner f names m σ
  ofFlow {f : Frame} {names : Names} {m : Build Unit} {σ : Summary} (hm : J.flow f names m σ) : J.inner f names m σ
  after {f : Frame} {names : Names} {m m' : Build Unit} {writes : List String} {σ τ : Summary}
    (hm : J.code f names [] [] m nothing writes σ) (hm' : J.inner f names m' τ) :
    J.inner f names (m >>= fun _ => m') (σ ++ τ)
  branch {f : Frame} {names : Names} {test : Build Operand} {consequent alternate : Build Unit}
    {writes : List String} {σ τ υ : Summary} (htest : J.code f names [] [] test Operand.alone writes σ)
    (hconsequent : J.flow f names consequent τ) (halternate : J.flow f names alternate υ) :
    J.inner f names (branch test consequent alternate) (σ ++ (τ ++ υ))
  loop {f : Frame} {names : Names} {labels : List String} {testFirst : Bool} {test : Build Operand}
    {update body : Build Unit} {writes writes' : List String} {σ τ υ : Summary}
    (htest : J.code f names [] [] test Operand.alone writes σ)
    (hupdate : J.code f names [] [] update nothing writes' υ) (hbody : J.flow f names body τ) :
    J.inner f names (loop labels testFirst test update body) (σ ++ (τ.inLoop labels ++ υ))
  jump {f : Frame} {names : Names} (kind : Jump) (label : Option String) :
    J.inner f names (jump kind label) (.jump label)
  ret {f : Frame} {names : Names} {result : Build Operand} {writes : List String} {σ : Summary}
    (hresult : J.code f names [] [] result Operand.alone writes σ) :
    J.inner f names (result >>= fun value => Build.perform .ret [value]) σ

namespace IsClosed

variable {J : Judgement} (h : J.IsClosed) {α β : Type} {f : Frame} {names : Names} {owed known : List Operand}
  {m : Build α} {k : α → Build β} {gives : α → List Operand} {gives' : β → List Operand}
  {writes writes' : List String} {σ τ : Summary}

include h

/-! Code in front of other code. -/

/-- What stands in front knows of nothing before it, and what is owed is used up behind. -/
theorem next (hm : J.code f names [] [] m gives writes σ)
    (hk : ∀ a, J.code f names owed (gives a ++ known) (k a) gives' writes' τ) :
    J.code f names owed known (m >>= k) gives' (writes ++ writes') (σ ++ τ) :=
  h.bind (h.weaken hm (List.nil_subset _)) hk

theorem before (hm : J.code f names [] known m gives [] .idle)
    (hk : ∀ a, J.code f names owed (gives a ++ known) (k a) gives' writes σ) :
    J.code f names owed known (m >>= k) gives' writes σ := by
  have hbind := h.bind hm hk
  rwa [Summary.idle_append] at hbind

/-- What is owed is used up at once. -/
theorem first (hm : J.code f names owed known m gives [] .idle)
    (hk : ∀ a, J.code f names [] (gives a ++ known) (k a) gives' writes σ) :
    J.code f names owed known (m >>= k) gives' writes σ := by
  have hbind := h.bind hm hk
  rwa [Summary.idle_append, List.append_nil] at hbind

theorem behind (hm : J.code f names [] known m gives writes σ)
    (hk : ∀ a, J.code f names owed (gives a ++ known) (k a) gives' [] .idle) :
    J.code f names owed known (m >>= k) gives' writes σ := by
  have hbind := h.bind hm hk
  rwa [Summary.append_idle, List.append_nil] at hbind

/-- Nothing is left to do behind. -/
theorem finish (hm : J.code f names owed known m gives writes σ)
    (hk : ∀ a, J.code f names [] (gives a ++ known) (k a) gives' [] .idle) :
    J.code f names owed known (m >>= k) gives' writes σ := by
  have hbind := h.bind hm hk
  rwa [Summary.append_idle, List.append_nil, List.append_nil] at hbind

/-- What stands in front is all that counts, and what is bound is bound behind it. -/
theorem ahead (hm : J.code f names [] known m gives [] σ)
    (hk : ∀ a, J.code f names owed (gives a ++ known) (k a) gives' writes .idle) :
    J.code f names owed known (m >>= k) gives' writes σ := by
  have hbind := h.bind hm hk
  rwa [Summary.append_idle] at hbind

theorem refused {what : String} (hσ : ∀ loops, σ.supported loops = false) :
    J.inner f names (unsupported what) σ := by
  have hcode : J.code f names [] [] (unsupported what : Build Unit) nothing [] σ := h.refuse hσ
  exact h.ofCode hcode

/-! Operations. -/

theorem literal (c : Constant) : J.code f names [] known (literal c) Operand.alone [] .idle :=
  h.constant (h.emit [] rfl rfl rfl rfl (List.nil_subset _))

theorem unary (op : UnaryOp) {v : Operand} (hv : v ∈ known) :
    J.code f names [] known (unary op v) Operand.alone [] .idle :=
  h.constant (h.emit [v] rfl rfl rfl rfl (by simpa using hv))

theorem binary (op : BinaryOp) {left right : Operand} (hleft : left ∈ known) (hright : right ∈ known) :
    J.code f names [] known (binary op left right) Operand.alone [] .idle :=
  h.constant (h.emit [left, right] rfl rfl rfl rfl (by simp [hleft, hright]))

theorem loadProperty {target : Target} (htarget : target.operands ⊆ known) :
    J.code f names [] known (loadProperty target) Operand.alone [] .idle :=
  h.emit target.operands rfl rfl rfl rfl htarget

theorem storeProperty {target : Target} {v : Operand} (htarget : target.operands ⊆ known) (hv : v ∈ known) :
    J.code f names [] known (storeProperty target v) nothing [] .idle :=
  h.perform [target.object, target.key, v] rfl rfl rfl rfl (by simp_all)

/-- The key of a property access is evaluated only if it is computed. -/
theorem memberKey {property : Expr} {computed : Bool} {evaluate : Build Operand}
    (hevaluate : computed = true →
      J.code f names [] [] evaluate Operand.alone (localWrites names property.items) (property.summary names)) :
    J.code f names [] [] (memberKey property computed evaluate) Operand.alone
      (localWrites names (if computed then property.items else [])) (keySummary names property computed) := by
  cases computed with
  | true => exact hevaluate rfl
  | false =>
      cases property with
      | ident name => exact h.literal _
      | _ => exact h.refuse fun _ => rfl

theorem propertyKey (kind : PropertyKind) (computed : Bool) (key : Expr) :
    J.code f names [] [] (propertyKey kind computed key) Operand.alone
      (localWrites names (if computed then key.items else [])) (propertyKeySummary names kind computed key) := by
  cases kind with
  | init =>
      cases computed with
      | true => exact h.refuse fun _ => rfl
      | false =>
          cases key with
          | ident name => exact h.literal _
          | literal l => exact h.literal _
          | _ => exact h.refuse fun _ => rfl
  | _ => exact h.refuse fun _ => rfl

theorem loadChain (chain : Chain) :
    J.code f names [] chain.operands (loadChain chain) Operand.alone [] .idle := by
  obtain ⟨base, keys⟩ := chain
  induction keys with
  | nil => exact h.pure (List.Subset.refl _)
  | cons key keys ih =>
      rw [loadChain_cons]
      exact h.before (h.weaken ih (by simp)) fun object => h.loadProperty (by simp)

theorem target {key : Build Operand} {chain : Build Chain} (hkey : J.code f names [] [] key Operand.alone writes σ)
    (hchain : J.code f names [] [] chain Chain.operands writes' τ) :
    J.code f names [] [] (target key chain) Target.operands (writes ++ writes') (σ ++ τ) := by
  refine h.bind hkey fun key => h.behind (h.weaken hchain (List.nil_subset _)) fun chain => ?_
  refine h.before (h.weaken (h.loadChain chain) (List.subset_append_left _ _)) fun object => h.pure ?_
  simp

theorem logical {op : LogicalOp} {left right : Build Operand} (hleft : J.code f names [] [] left Operand.alone writes σ)
    (hright : J.code f names [] [] right Operand.alone writes' τ) :
    J.code f names [] [] (logical op left right) Operand.alone (writes ++ writes') (σ ++ (.merge ++ (.idle ++ τ))) :=
  h.next hleft fun v => h.merge (by simp) (h.pure (by simp)) (h.weaken hright (List.nil_subset _))

theorem conditional {test consequent alternate : Build Operand} {writes'' : List String} {υ : Summary}
    (htest : J.code f names [] [] test Operand.alone writes σ)
    (hconsequent : J.code f names [] [] consequent Operand.alone writes' τ)
    (halternate : J.code f names [] [] alternate Operand.alone writes'' υ) :
    J.code f names [] [] (conditional test consequent alternate) Operand.alone (writes ++ (writes' ++ writes''))
      (σ ++ (.merge ++ (τ ++ υ))) :=
  h.next htest fun v => h.merge (by simp) (h.weaken hconsequent (List.nil_subset _))
    (h.weaken halternate (List.nil_subset _))

variable {name : String} {value : Build Operand} {place : Build Target}

theorem assignName (op : AssignOp) (hwrite : f.Looks .write name)
    (hread : op.binary?.isSome = true → f.Looks .read name)
    (hvalue : J.code f names [] [] value Operand.alone writes σ) :
    J.code f names [] [] (assignName names name op value) Operand.alone
      (writes ++ localWrites names [.use ⟨.write, name⟩])
      (σ ++ if op.binary?.isSome then .read names name else .idle) := by
  rw [Build.assignName]
  cases hop : op.binary? with
  | none =>
      rw [Option.isSome_none, if_neg Bool.false_ne_true, Summary.append_idle]
      exact h.write hwrite hvalue
  | some op =>
      rw [Option.isSome_some, if_pos rfl]
      refine h.constant (h.next hvalue fun v => h.ahead (h.read (hread (by rw [hop]; rfl))) fun old => ?_)
      exact h.writeResult [old, v] hwrite rfl rfl rfl rfl (by simp)

theorem assignMember (op : AssignOp) (hplace : J.code f names [] [] place Target.operands writes' τ)
    (hvalue : J.code f names [] [] value Operand.alone writes σ) :
    J.code f names [] [] (assignMember op place value) Operand.alone (writes ++ writes') (σ ++ τ) := by
  rw [Build.assignMember]
  cases op.binary? with
  | none =>
      refine h.next hvalue fun v => h.behind (h.weaken hplace (List.nil_subset _)) fun target => ?_
      exact h.before (h.storeProperty (by simp) (by simp)) fun _ => h.pure (by simp)
  | some op =>
      refine h.constant (h.next hvalue fun v => h.behind (h.weaken hplace (List.nil_subset _)) fun target => ?_)
      refine h.before (h.loadProperty (by simp)) fun old => ?_
      refine h.first (h.emit [old, v] rfl rfl rfl rfl (by simp)) fun result => ?_
      exact h.before (h.storeProperty (by simp) (by simp)) fun _ => h.pure (by simp)

theorem updateName (op : UpdateOp) (isPrefix : Bool) (hread : f.Looks .read name) (hwrite : f.Looks .write name) :
    J.code f names [] [] (updateName names name op isPrefix) Operand.alone (localWrites names [.use ⟨.write, name⟩])
      (.read names name) := by
  rw [Build.updateName]
  cases isPrefix with
  | true =>
      refine h.constant (h.before (h.literal _) fun one => h.ahead (h.read hread) fun old => ?_)
      exact h.writeResult [old, one] hwrite rfl rfl rfl rfl (by simp)
  | false =>
      refine h.ahead (h.read hread) fun current => ?_
      refine h.before (h.emit [current] rfl rfl rfl rfl (by simp)) fun old => ?_
      refine h.constant (h.before (h.literal _) fun one => ?_)
      rw [← bind_assoc]
      exact h.finish (h.writeResult [old, one] hwrite rfl rfl rfl rfl (by simp)) fun _ => h.pure (by simp)

theorem updateMember (op : UpdateOp) (isPrefix : Bool)
    (hplace : J.code f names [] [] place Target.operands writes σ) :
    J.code f names [] [] (updateMember op isPrefix place) Operand.alone writes σ := by
  rw [Build.updateMember]
  cases isPrefix with
  | true =>
      refine h.constant (h.before (h.literal _) fun one => ?_)
      refine h.behind (h.weaken hplace (List.nil_subset _)) fun target => ?_
      refine h.before (h.loadProperty (by simp)) fun old => ?_
      refine h.first (h.emit [old, one] rfl rfl rfl rfl (by simp)) fun result => ?_
      exact h.before (h.storeProperty (by simp) (by simp)) fun _ => h.pure (by simp)
  | false =>
      refine h.behind hplace fun target => h.before (h.loadProperty (by simp)) fun current => ?_
      refine h.before (h.emit [current] rfl rfl rfl rfl (by simp)) fun old => ?_
      refine h.constant (h.before (h.literal _) fun one => ?_)
      refine h.first (h.emit [old, one] rfl rfl rfl rfl (by simp)) fun result => ?_
      exact h.before (h.storeProperty (by simp) (by simp)) fun _ => h.pure (by simp)

end IsClosed

end Judgement

end ScriptSsa
