import ScriptSsa.Proofs.EffectRules
import ScriptSsa.Proofs.MemberPaths

/-!
What the operations that expressions are made of do.

Variables, properties, assignments and calls are first described in the world alone, where a place is a name or a
property that can be loaded and stored. Then the code of each operation is shown to have these effects, in this
order, if the code of its parts has the effects of the parts.
-/

namespace ScriptSsa

open Build

universe u

namespace Effects

section

variable {V W : Type u} (I : Effects V W) (names : Names) (locals : String → V)

/-- The value of what has none. -/
def undefined : V := I.constant .undefined

/-- What an assignment stores into. -/
inductive Place (V : Type u) where
  | name (name : String)
  | property (object key : V)

def load : Place V → StateM W V
  | .name name =>
    match names.find .read name with
    | .ok .own => pure I.self
    | .ok .localVar => pure (locals name)
    | .ok (.slot depth index) => I.loadContext depth index
    | .ok .global => I.loadGlobal name
    | .error _ => pure I.undefined
  | .property object key => I.loadProperty object key

/-- Stores a value into the world, which local variables are no part of. -/
def store : Place V → V → StateM W PUnit
  | .name name, x =>
    match names.find .write name with
    | .ok (.slot depth index) => I.storeContext depth index x
    | .ok .global | .ok .own => I.storeGlobal name x
    | .ok .localVar | .error _ => pure ⟨⟩
  | .property object key, x => I.storeProperty object key x

/-- Assigns a value to a place. A compound assignment loads the place only then. -/
def assignTo (op : AssignOp) (place : Place V) (x : V) : StateM W V :=
  match op.binary? with
  | none => do
    I.store names place x
    return x
  | some op => do
    let result ← I.binary op (← I.load names locals place) x
    I.store names place result
    return result

/-- A step by one gives the new value, or the old one if the operator stands behind. -/
def updateAt (op : UpdateOp) (isPrefix : Bool) (place : Place V) : StateM W V := do
  let old ← I.load names locals place
  let new ← I.binary op.binary old (I.constant one)
  I.store names place new
  return if isPrefix then new else old

/-- A key that is not computed is a name. -/
def memberKey (property : Expr) (computed : Bool) (key : StateM W V) : StateM W V :=
  if computed then key else return property.ident?.elim I.undefined fun name => I.constant (.string name)

/-- The key of a property in an object literal. -/
def propertyKey : Expr → V
  | .ident name => I.constant (.string name)
  | .literal l => I.constant l.constant
  | _ => I.undefined

/-- The place that the outermost key stands for. What leads to it is loaded from the innermost key outwards, when all
keys and the base are there. -/
def member (key : StateM W V) (chain : StateM W (V × List V)) : StateM W (Place V) := do
  let key ← key
  let chain ← chain
  let object ← chain.2.foldrM (fun key object => I.loadProperty object key) chain.1
  return .property object key

end

/-! What is given can be read as values. -/

section

variable {V W : Type u} (I : Effects V W)

def ReadsAll (vs : List Operand) (xs : List V) (m : Memory V W) : Prop :=
  List.Forall₂ (fun v x => Reads I v x m) vs xs

def ReadsChain (chain : Chain) (d : V × List V) (m : Memory V W) : Prop :=
  Reads I chain.base d.1 m ∧ ReadsAll I chain.keys d.2 m

def ReadsPlace (target : Target) : Place V → Memory V W → Prop
  | .name _, _ => False
  | .property object key, m => Reads I target.object object m ∧ Reads I target.key key m

end

end Effects

namespace Build

open Effects (Carries Consumes Performs Knows Reads ReadsAll ReadsChain ReadsPlace NoValue consumes_emit performs_emit
  performs_perform performs_merge)

variable {V W : Type u} {I : Effects V W} {names : Names} {locals : String → V} {K : Effects.Memory V W → Prop}

/-! Variables. -/

theorem performs_literal (c : Constant) :
    Performs I locals K (literal c) (pure (I.constant c)) (Reads I) :=
  .draw (fun _ => rfl) (performs_emit rfl fun _ _ _ => rfl)

theorem resolve_of_ok {access : Access} {name : String} {r : Resolution} (h : names.find access name = .ok r) :
    resolve names access name = pure r := by
  funext s
  rw [resolve, h]
  rfl

theorem resolve_of_error {access : Access} {name : String} {fault : Fault} (h : names.find access name = .error fault) :
    resolve names access name = fail (.fault fault) := by
  funext s
  rw [resolve, h]
  rfl

theorem performs_readName (name : String) :
    Performs I locals K (readName names name) (I.load names locals (.name name)) (Reads I) := by
  rw [readName, Effects.load]
  cases hfind : names.find .read name with
  | error fault =>
      rw [resolve_of_error hfind]
      exact .fail
  | ok r =>
      rw [resolve_of_ok hfind, pure_bind]
      cases r with
      | own => exact performs_emit rfl fun _ _ _ => rfl
      | localVar => exact .drawn (fun _ => rfl) fun m hlocals _ => congrArg some (congrFun hlocals name)
      | slot depth index =>
          exact .draw (fun _ => rfl) (.draw (fun _ => rfl) (performs_emit rfl fun _ _ _ => rfl))
      | global => exact .draw (fun _ => rfl) (performs_emit rfl fun _ _ _ => rfl)

/-- A write that is no binding. -/
theorem performs_writeName {name : String} {v : Operand} {x : V} (hwrite : names.find .write name ≠ .ok .localVar)
    (hv : Knows locals K (Reads I v x)) :
    Performs I locals K (writeName names name v) (I.store names (.name name) x >>= fun _ => pure x) (Reads I) := by
  have hglobal : Performs I locals K (do
      let key ← constant (.string name)
      perform .storeGlobal [key, v]
      return v) (I.storeGlobal name x >>= fun _ => pure x) (Reads I) := by
    refine .draw (fun _ => rfl) (.bind (performs_perform rfl fun m id hlocals hK => ?_) fun _ _ =>
      .pure fun m hlocals hK => hv m hlocals hK.2)
    simp only [Effects.Memory.perform, hv m hlocals hK, Option.map_some]
  rw [writeName, Effects.store]
  cases hfind : names.find .write name with
  | error fault =>
      rw [resolve_of_error hfind]
      exact .fail
  | ok r =>
      rw [resolve_of_ok hfind, pure_bind]
      cases r with
      | localVar => exact absurd hfind hwrite
      | slot depth index =>
          have hstore : Performs I locals K (storeContext depth index v) (I.storeContext depth index x) NoValue := by
            refine .draw (fun _ => rfl) (.draw (fun _ => rfl) (performs_perform rfl fun m id hlocals hK => ?_))
            simp only [Effects.Memory.perform, hv m hlocals hK, Option.map_some]
          exact hstore.bind fun _ _ => .pure fun m hlocals hK => hv m hlocals hK.2
      | global | own => exact hglobal

/-! Operators and properties. -/

theorem performs_emitBinary {op : BinaryOp} {l r : Operand} {x y : V} (hl : Knows locals K (Reads I l x))
    (hr : Knows locals K (Reads I r y)) :
    Performs I locals K (emit .binary [.constant (.string op.symbol), l, r]) (I.binary op x y) (Reads I) := by
  refine performs_emit rfl fun m hlocals hK => ?_
  simp only [Effects.Memory.result, BinaryOp.ofSymbol?_symbol, hl m hlocals hK, hr m hlocals hK, Option.bind_some,
    Option.map_some]

theorem performs_unary (op : UnaryOp) {v : Operand} {x : V} (hv : Knows locals K (Reads I v x)) :
    Performs I locals K (unary op v) (I.unary op x) (Reads I) := by
  refine .draw (fun _ => rfl) (performs_emit rfl fun m hlocals hK => ?_)
  simp only [Effects.Memory.result, UnaryOp.ofSymbol?_symbol, hv m hlocals hK, Option.bind_some, Option.map_some]

theorem performs_nop {v : Operand} {x : V} (hv : Knows locals K (Reads I v x)) :
    Performs I locals K (emit .nop [v]) (pure x) (Reads I) := by
  refine performs_emit rfl fun m hlocals hK => ?_
  simp only [Effects.Memory.result, hv m hlocals hK, Option.map_some]
  rfl

theorem performs_loadProperty {target : Target} {object key : V}
    (hobject : Knows locals K (Reads I target.object object)) (hkey : Knows locals K (Reads I target.key key)) :
    Performs I locals K (loadProperty target) (I.loadProperty object key) (Reads I) := by
  refine performs_emit rfl fun m hlocals hK => ?_
  simp only [Effects.Memory.result, hobject m hlocals hK, hkey m hlocals hK, Option.bind_some, Option.map_some]

theorem performs_deleteProperty {o k : Operand} {object key : V} (hobject : Knows locals K (Reads I o object))
    (hkey : Knows locals K (Reads I k key)) :
    Performs I locals K (emit .deleteProperty [o, k]) (I.deleteProperty object key) (Reads I) := by
  refine performs_emit rfl fun m hlocals hK => ?_
  simp only [Effects.Memory.result, hobject m hlocals hK, hkey m hlocals hK, Option.bind_some, Option.map_some]

theorem performs_storeProperty {target : Target} {v : Operand} {object key x : V}
    (hobject : Knows locals K (Reads I target.object object)) (hkey : Knows locals K (Reads I target.key key))
    (hv : Knows locals K (Reads I v x)) :
    Performs I locals K (storeProperty target v) (I.storeProperty object key x) NoValue := by
  refine performs_perform rfl fun m id hlocals hK => ?_
  simp only [Effects.Memory.perform, hobject m hlocals hK, hkey m hlocals hK, hv m hlocals hK, Option.bind_some,
    Option.map_some]

theorem performs_memberKey {property : Expr} {computed : Bool} {code : Build Operand} {effect : StateM W V}
    (h : computed = true → Performs I locals K code effect (Reads I)) :
    Performs I locals K (memberKey property computed code) (I.memberKey property computed effect) (Reads I) := by
  cases computed with
  | true => exact h rfl
  | false =>
      cases property with
      | ident name => exact performs_literal _
      | _ => exact .fail

theorem performs_propertyKey (kind : PropertyKind) (computed : Bool) (key : Expr) :
    Performs I locals K (propertyKey kind computed key) (pure (I.propertyKey key)) (Reads I) := by
  cases kind with
  | init =>
      cases computed with
      | true => exact .fail
      | false =>
          cases key with
          | ident name => exact performs_literal _
          | literal l => exact performs_literal _
          | _ => exact .fail
  | _ => exact .fail

/-- The loads go from the innermost key outwards. -/
theorem performs_loadKeys {base : Operand} {x : V} (hbase : Knows locals K (Reads I base x)) :
    ∀ {keys : List Operand} {xs : List V}, Knows locals K (ReadsAll I keys xs) →
      Performs I locals K (keys.foldrM (fun key object => loadProperty ⟨object, key⟩) base)
        (xs.foldrM (fun key object => I.loadProperty object key) x) (Reads I)
  | [], [], _ => .pure hbase
  | _ :: _, [], hkeys => .given (fun m hlocals hK => nomatch hkeys m hlocals hK) False.elim
  | [], _ :: _, hkeys => .given (fun m hlocals hK => nomatch hkeys m hlocals hK) False.elim
  | key :: keys, y :: ys, hkeys => by
    rw [List.foldrM_cons, List.foldrM_cons]
    refine (performs_loadKeys hbase fun m hlocals hK => ?_).bind fun object _ =>
      performs_loadProperty (fun _ _ hK => hK.1) fun m hlocals hK => ?_
    · exact (List.forall₂_cons.mp (hkeys m hlocals hK)).2
    · exact (List.forall₂_cons.mp (hkeys m hlocals hK.2)).1

theorem performs_target {key : Build Operand} {chain : Build Chain} {keyEffect : StateM W V}
    {chainEffect : StateM W (V × List V)} (hkey : Performs I locals K key keyEffect (Reads I))
    (hchain : ∀ K, Performs I locals K chain chainEffect (ReadsChain I)) :
    Performs I locals K (target key chain) (I.member keyEffect chainEffect) (ReadsPlace I) := by
  refine hkey.bind fun _ _ => (hchain _).bind fun _ _ => ?_
  refine (performs_loadKeys (fun _ _ hK => hK.1.1) fun _ _ hK => hK.1.2).bind fun _ _ => ?_
  exact .pure fun m _ hK => ⟨hK.1, hK.2.2.1⟩

/-- What can be read as a target is a property. -/
theorem performs_at {δ : Type u} {α : Type} {code : Build α} {effect : StateM W δ}
    {gives : α → δ → Effects.Memory V W → Prop} {target : Target} {place : Effects.Place V}
    (hplace : Knows locals K (ReadsPlace I target place))
    (h : ∀ object key, place = .property object key → Knows locals K (Reads I target.object object) →
      Knows locals K (Reads I target.key key) → Performs I locals K code effect gives) :
    Performs I locals K code effect gives := by
  cases place with
  | name name => exact .given hplace False.elim
  | property object key =>
      exact h object key rfl (fun m hlocals hK => (hplace m hlocals hK).1) fun m hlocals hK => (hplace m hlocals hK).2

/-! Assignments. -/

variable {value : Build Operand} {valueEffect : StateM W V} {place : Build Target}
  {placeEffect : StateM W (Effects.Place V)}

theorem performs_assignName {name : String} (op : AssignOp) (hwrite : names.find .write name ≠ .ok .localVar)
    (hvalue : Performs I locals K value valueEffect (Reads I)) :
    Performs I locals K (assignName names name op value)
      (valueEffect >>= I.assignTo names locals op (.name name)) (Reads I) := by
  rw [assignName]
  cases hop : op.binary? with
  | none =>
      refine hvalue.bind fun v x => ?_
      rw [Effects.assignTo, hop]
      exact performs_writeName hwrite fun _ _ hK => hK.1
  | some op =>
      refine .draw (fun _ => rfl) (hvalue.bind fun v y => ?_)
      rw [Effects.assignTo, hop]
      refine (performs_readName name).bind fun old x => ?_
      refine (performs_emitBinary (fun _ _ hK => hK.1) fun _ _ hK => hK.2.1).bind fun result z => ?_
      exact performs_writeName hwrite fun _ _ hK => hK.1

theorem performs_assignMember (op : AssignOp) (hvalue : Performs I locals K value valueEffect (Reads I))
    (hplace : ∀ K, Performs I locals K place placeEffect (ReadsPlace I)) :
    Performs I locals K (assignMember op place value)
      (valueEffect >>= fun x => placeEffect >>= fun p => I.assignTo names locals op p x) (Reads I) := by
  rw [assignMember]
  cases hop : op.binary? with
  | none =>
      refine hvalue.bind fun v x => (hplace _).bind fun target p => ?_
      refine performs_at (fun _ _ hK => hK.1) ?_
      rintro object key rfl hobject hkey
      rw [Effects.assignTo, hop]
      refine (performs_storeProperty hobject hkey fun _ _ hK => hK.2.1).bind fun _ _ => ?_
      exact .pure fun _ _ hK => hK.2.2.1
  | some op =>
      refine .draw (fun _ => rfl) (hvalue.bind fun v y => (hplace _).bind fun target p => ?_)
      refine performs_at (fun _ _ hK => hK.1) ?_
      rintro object key rfl hobject hkey
      rw [Effects.assignTo, hop]
      refine (performs_loadProperty hobject hkey).bind fun old x => ?_
      refine (performs_emitBinary (fun _ _ hK => hK.1) fun _ _ hK => hK.2.2.1).bind fun result z => ?_
      refine (performs_storeProperty (fun m hlocals hK => hobject m hlocals hK.2.2)
        (fun m hlocals hK => hkey m hlocals hK.2.2) fun _ _ hK => hK.1).bind fun _ _ => ?_
      exact .pure fun _ _ hK => hK.2.1

theorem performs_updateName {name : String} (op : UpdateOp) (isPrefix : Bool)
    (hwrite : names.find .write name ≠ .ok .localVar) :
    Performs I locals K (updateName names name op isPrefix)
      (I.updateAt names locals op isPrefix (.name name)) (Reads I) := by
  cases isPrefix with
  | true =>
      refine .draw (fun _ => rfl) ((performs_literal _).after fun one => ?_)
      refine (performs_readName name).bind fun old x => ?_
      refine (performs_emitBinary (fun _ _ hK => hK.1) fun _ _ hK => hK.2.1).bind fun result y => ?_
      exact performs_writeName hwrite fun _ _ hK => hK.1
  | false =>
      refine (performs_readName name).bind fun current x => ?_
      refine (performs_nop fun _ _ hK => hK.1).after fun old => ?_
      refine .draw (fun _ => rfl) ((performs_literal _).after fun one => ?_)
      refine (performs_emitBinary (fun _ _ hK => hK.2.1) fun _ _ hK => hK.1).bind fun result y => ?_
      exact (performs_writeName hwrite fun _ _ hK => hK.1).bind (g := fun _ => pure x) fun _ _ =>
        .pure fun _ _ hK => hK.2.2.2.1

theorem performs_updateMember (op : UpdateOp) (isPrefix : Bool)
    (hplace : ∀ K, Performs I locals K place placeEffect (ReadsPlace I)) :
    Performs I locals K (updateMember op isPrefix place)
      (placeEffect >>= I.updateAt names locals op isPrefix) (Reads I) := by
  cases isPrefix with
  | true =>
      refine .draw (fun _ => rfl) ((performs_literal _).after fun one => (hplace _).bind fun target p => ?_)
      refine performs_at (fun _ _ hK => hK.1) ?_
      rintro object key rfl hobject hkey
      refine (performs_loadProperty hobject hkey).bind fun old x => ?_
      refine (performs_emitBinary (fun _ _ hK => hK.1) fun _ _ hK => hK.2.2.1).bind fun result y => ?_
      refine (performs_storeProperty (fun m hlocals hK => hobject m hlocals hK.2.2)
        (fun m hlocals hK => hkey m hlocals hK.2.2) fun _ _ hK => hK.1).bind fun _ _ => ?_
      exact .pure fun _ _ hK => hK.2.1
  | false =>
      refine (hplace _).bind fun target p => performs_at (fun _ _ hK => hK.1) ?_
      rintro object key rfl hobject hkey
      refine (performs_loadProperty hobject hkey).bind fun current x => ?_
      refine (performs_nop fun _ _ hK => hK.1).after fun old => ?_
      refine .draw (fun _ => rfl) ((performs_literal _).after fun one => ?_)
      refine (performs_emitBinary (fun _ _ hK => hK.2.1) fun _ _ hK => hK.1).bind fun result y => ?_
      refine (performs_storeProperty (fun m hlocals hK => hobject m hlocals hK.2.2.2.2)
        (fun m hlocals hK => hkey m hlocals hK.2.2.2.2) fun _ _ hK => hK.1).bind fun _ _ => ?_
      exact .pure fun _ _ hK => hK.2.2.2.1

/-! Calls. -/

/-- Pushing leaves the last operand on top. -/
theorem carries_pushes : ∀ {vs : List Operand} {xs : List V} {s t : Builder} {m : Effects.Memory V W} {a : PUnit},
    s.Fresh → s.GoesOn → vs.forM (fun v => perform .pushArg [v]) s = .ok a t →
      m.Lasting s.supply.instrs (ReadsAll I vs xs) →
        Carries I s m t { m with stack := xs.reverse ++ m.stack }
  | [], xs, s, t, m, a, hs, _, h, hreads => by
    obtain rfl : xs = [] := List.forall₂_nil_left_iff.mp hreads.now
    cases h
    exact .aside hs rfl rfl (le_refl _) m
  | v :: vs, xs, s, t, m, a, hs, hgoes, h, hreads => by
    obtain ⟨x, xs, hx, _, rfl⟩ := List.forall₂_cons_left_iff.mp hreads.now
    obtain ⟨_, s₁, hpush, hrest⟩ := bind_eq_ok (m := perform .pushArg [v])
      (f := fun _ => vs.forM fun v => perform .pushArg [v]) h
    obtain ⟨id, s₂, hemit, hpure⟩ := bind_eq_ok hpush
    obtain ⟨_, rfl, rfl⟩ := emitBound_eq_ok hemit
    cases hpure
    have hperform : m.perform I ⟨s.supply.nextInstr, .pushArg, [v], none⟩ =
        some { m with stack := x :: m.stack } := by
      simp only [Effects.Memory.perform, hx, Option.map_some]
    have hcarries : Carries I s m _ { m with stack := x :: m.stack } :=
      .emit hs hgoes rfl hperform ⟨fun _ _ => rfl, rfl⟩
    have hlater := hreads.imp fun m' _ h => (List.forall₂_cons.mp h).2
    have hpushed := carries_pushes hcarries.continues.fresh (hcarries.continues.goesOn hgoes) hrest
      (hlater.later hcarries.agree hcarries.supply.1)
    rw [List.reverse_cons, List.append_assoc]
    exact hcarries.trans hpushed

/-- The first argument is pushed last, so the arguments are in order on the stack. -/
theorem performs_pushArgs {arguments : List Operand} {xs : List V} {rest : Build Operand} {effect : StateM W V}
    (harguments : Knows locals K (ReadsAll I arguments xs)) (hrest : Consumes I locals xs K rest effect (Reads I)) :
    Performs I locals K (pushArgs arguments >>= fun _ => rest) effect (Reads I) := by
  intro s v t m stack hs hgoes h hlocals hstack hK
  obtain ⟨_, s₁, hpush, hrun⟩ := bind_eq_ok h
  have hreads := hK.imp fun m' hm' hK' => List.rel_reverse (harguments m' (hm'.trans hlocals) hK')
  have hpushed := carries_pushes hs hgoes hpush hreads
  rw [List.reverse_reverse] at hpushed
  obtain ⟨m', hcarries, hafter⟩ := hrest (m := { m with stack := xs ++ m.stack }) hpushed.continues.fresh
    (hpushed.continues.goesOn hgoes) hrun hlocals (congrArg (xs ++ ·) hstack) (hK.later hpushed.agree hpushed.supply.1)
  exact ⟨m', hpushed.trans hcarries, hafter⟩

/-- What a call takes are the arguments. -/
theorem take_arguments {arguments : List Operand} {xs rest : List V} {m : Effects.Memory V W}
    (h : ReadsAll I arguments xs m) (hstack : m.stack = xs ++ rest) :
    arguments.length ≤ m.stack.length ∧ m.stack.take arguments.length = xs ∧ m.stack.drop arguments.length = rest := by
  have hlength : arguments.length = xs.length := h.length_eq
  rw [hstack, hlength, List.length_append]
  exact ⟨Nat.le_add_right _ _, List.take_left, List.drop_left⟩

theorem performs_call {function : Operand} {receiver : Build Operand} {arguments : List Operand} {f r : V}
    {xs : List V} (hfunction : Knows locals K (Reads I function f))
    (hreceiver : Performs I locals K receiver (pure r) (Reads I))
    (harguments : Knows locals K (ReadsAll I arguments xs)) :
    Performs I locals K (call function receiver arguments) (I.call f r xs) (Reads I) := by
  refine performs_pushArgs harguments (hreceiver.after fun o => .draw (fun _ => rfl) ?_)
  refine consumes_emit rfl fun m id rest hlocals hstack hK => ?_
  obtain ⟨hle, htake, hdrop⟩ := take_arguments (harguments m hlocals hK.2) hstack
  simp only [Effects.Memory.perform, hfunction m hlocals hK.2, hK.1, Option.bind_some, if_pos hle, htake, hdrop]

theorem performs_new {function : Operand} {arguments : List Operand} {f : V} {xs : List V}
    (hfunction : Knows locals K (Reads I function f)) (harguments : Knows locals K (ReadsAll I arguments xs)) :
    Performs I locals K (new function arguments) (I.new f xs) (Reads I) := by
  refine performs_pushArgs harguments (.draw (fun _ => rfl) ?_)
  refine consumes_emit rfl fun m id rest hlocals hstack hK => ?_
  obtain ⟨hle, htake, hdrop⟩ := take_arguments (harguments m hlocals hK) hstack
  simp only [Effects.Memory.perform, hfunction m hlocals hK, Option.bind_some, if_pos hle, htake, hdrop]

/-! Merges. -/

theorem performs_conditional {test consequent alternate : Build Operand} {t c a : StateM W V}
    (htest : Performs I locals K test t (Reads I)) (hconsequent : ∀ K, Performs I locals K consequent c (Reads I))
    (halternate : ∀ K, Performs I locals K alternate a (Reads I)) (hevaluates : Evaluates consequent)
    (hevaluates' : Evaluates alternate) :
    Performs I locals K (conditional test consequent alternate) (t >>= fun x => if I.truthy x then c else a)
      (Reads I) :=
  htest.bind fun _ _ => performs_merge (fun _ _ hK => hK.1) (hconsequent _) (halternate _) hevaluates hevaluates'

theorem performs_or {left right : Build Operand} {l r : StateM W V} (hleft : Performs I locals K left l (Reads I))
    (hright : ∀ K, Performs I locals K right r (Reads I)) (hevaluates : Evaluates right) :
    Performs I locals K (logical .or left right) (l >>= fun x => if I.truthy x then pure x else r) (Reads I) :=
  hleft.bind fun _ _ => performs_merge (fun _ _ hK => hK.1) (.pure fun _ _ hK => hK.1) (hright _) .pure hevaluates

theorem performs_and {left right : Build Operand} {l r : StateM W V} (hleft : Performs I locals K left l (Reads I))
    (hright : ∀ K, Performs I locals K right r (Reads I)) (hevaluates : Evaluates right) :
    Performs I locals K (logical .and left right) (l >>= fun x => if I.truthy x then r else pure x) (Reads I) := by
  refine hleft.bind fun v x => ?_
  have hmerge : Performs I locals (fun m => Reads I v x m ∧ K m) (merge v false (pure v) right)
      (if I.truthy x = false then pure x else r) (Reads I) :=
    performs_merge (fun _ _ hK => hK.1) (.pure fun _ _ hK => hK.1) (hright _) .pure hevaluates
  have heffect : (if I.truthy x then r else pure x) = if I.truthy x = false then pure x else r := by
    cases I.truthy x <;> rfl
  rw [heffect]
  exact hmerge

end Build

end ScriptSsa
