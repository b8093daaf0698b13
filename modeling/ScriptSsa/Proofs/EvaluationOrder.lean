import ScriptSsa.Proofs.EffectOperations
import ScriptSsa.Proofs.LocalBindings

/-!
The order in which expressions take effect.

`evaluate` runs an expression directly, in a world that loads, stores, operators and calls may change in any way. The
code that an expression is lowered to does the same: run from where it starts, it ends where the builder stands
behind it, with the world that `evaluate` leaves and the value that `evaluate` gives. Arguments that were pushed
before are still on the stack, and no more than those.

Nested functions and writes to local variables are left out. The former are values that are built apart, and the
latter are bindings of instructions, which other operands see.
-/

namespace ScriptSsa

open Build

universe u

namespace Effects

variable {V W : Type u} (I : Effects V W) (names : Names) (locals : String → V)

mutual

/-- Runs an expression. What has no code has no effect and no value. -/
def evaluate : Expr → StateM W V
  | .ident name => I.load names locals (.name name)
  | .literal l => return I.constant l.constant
  | .this => return I.this
  | .array elements => do
    let array ← I.array elements.length
    evaluateElements array 0 elements
    return array
  | .object properties => do
    let object ← I.object properties.length
    evaluateProperties object properties
    return object
  | .function _ | .unsupported _ => return I.undefined
  | .unary .delete (.ident name) => I.deleteGlobal name
  | .unary .delete (.member object property computed) => do
    let key ← I.memberKey property computed (evaluate property)
    let object ← evaluate object
    I.deleteProperty object key
  | .unary .delete argument => do
    let _ ← evaluate argument
    return I.constant (.bool true)
  | .unary op argument => do I.unary op (← evaluate argument)
  | .update op isPrefix (.ident name) => I.updateAt names locals op isPrefix (.name name)
  | .update op isPrefix (.member object property computed) => do
    let place ← I.member (I.memberKey property computed (evaluate property)) (evaluateChain (evaluate object) object)
    I.updateAt names locals op isPrefix place
  | .update _ _ _ => return I.undefined
  | .binary op left right => do
    let x ← evaluate left
    let y ← evaluate right
    I.binary op x y
  | .logical .or left right => do
    let x ← evaluate left
    if I.truthy x then return x else evaluate right
  | .logical .and left right => do
    let x ← evaluate left
    if I.truthy x then evaluate right else return x
  | .assign op (.ident name) right => do I.assignTo names locals op (.name name) (← evaluate right)
  | .assign op (.member object property computed) right => do
    let x ← evaluate right
    let place ← I.member (I.memberKey property computed (evaluate property)) (evaluateChain (evaluate object) object)
    I.assignTo names locals op place x
  | .assign _ _ _ => return I.undefined
  | .conditional test consequent alternate => do
    if I.truthy (← evaluate test) then evaluate consequent else evaluate alternate
  | .sequence expressions => evaluateSequence expressions
  | .member object property computed => do
    let key ← I.memberKey property computed (evaluate property)
    let object ← evaluate object
    I.loadProperty object key
  | .call (.member object property computed) arguments => do
    let key ← I.memberKey property computed (evaluate property)
    let object ← evaluate object
    let function ← I.loadProperty object key
    I.call function object (← evaluateAll arguments)
  | .call callee arguments => do
    let function ← evaluate callee
    I.call function I.global (← evaluateAll arguments)
  | .new callee arguments => do
    let function ← evaluate callee
    I.new function (← evaluateAll arguments)

/-- The object that the keys of a member expression start from, and the keys, the outermost first. The value of the
expression itself is for when it is not a member expression. -/
def evaluateChain (value : StateM W V) : Expr → StateM W (V × List V)
  | .member object property computed => do
    let key ← I.memberKey property computed (evaluate property)
    let chain ← evaluateChain (evaluate object) object
    return (chain.1, key :: chain.2)
  | _ => do return (← value, [])

def evaluateAll : List Expr → StateM W (List V)
  | [] => return []
  | e :: es => do
    let x ← evaluate e
    return x :: (← evaluateAll es)

def evaluateSequence : List Expr → StateM W V
  | [] => return I.undefined
  | [e] => evaluate e
  | e :: es => do
    let _ ← evaluate e
    evaluateSequence es

def evaluateElements (array : V) : (index : Nat) → List (Option Expr) → StateM W PUnit
  | _, [] => return ⟨⟩
  | index, none :: es => evaluateElements array (index + 1) es
  | index, some e :: es => do
    let x ← evaluate e
    I.storeProperty array (I.constant (.number (.ofNat index))) x
    evaluateElements array (index + 1) es

def evaluateProperties (object : V) : List Property → StateM W PUnit
  | [] => return ⟨⟩
  | ⟨key, value, _, _⟩ :: ps => do
    let x ← evaluate value
    I.storeProperty object (I.propertyKey key) x
    evaluateProperties object ps

end

end Effects

/-- No function is among the items, and no write to a local variable. -/
structure Steady (names : Names) (items : List Item) : Prop where
  functions : ∀ f, Item.function f ∉ items
  writes : localWrites names items = []

namespace Steady

variable {names : Names} {items items' : List Item}

theorem left (h : Steady names (items ++ items')) : Steady names items where
  functions f hf := h.functions f (List.mem_append_left _ hf)
  writes := (List.append_eq_nil_iff.mp (localWrites_append.symm.trans h.writes)).1

theorem right (h : Steady names (items ++ items')) : Steady names items' where
  functions f hf := h.functions f (List.mem_append_right _ hf)
  writes := (List.append_eq_nil_iff.mp (localWrites_append.symm.trans h.writes)).2

/-- A key counts if it is computed. -/
theorem key {computed : Bool} (h : Steady names (items ++ if computed then items' else []))
    (hcomputed : computed = true) : Steady names items' := by
  subst hcomputed
  exact h.right

theorem write {name : String} (h : Steady names (.use ⟨.write, name⟩ :: items)) :
    names.find .write name ≠ .ok .localVar := by
  intro hlocal
  have hnone := List.filterMap_eq_nil_iff.mp h.writes _ List.mem_cons_self
  rw [Item.localWrite?, if_pos hlocal] at hnone
  cases hnone

end Steady

/-! Syntax trees. -/

namespace Build

open Effects (Performs Knows Reads ReadsAll ReadsChain NoValue performs_emit)

variable {V W : Type u} {I : Effects V W} {names : Names} {locals : String → V}

mutual

/-- An expression does what `evaluate` does. -/
theorem lowerExpr_performs : (e : Expr) → Steady names e.items → (K : Effects.Memory V W → Prop) →
    Performs I locals K (lowerExpr names e) (I.evaluate names locals e) (Reads I)
  | .ident name, _, _ => by
    rw [lowerExpr, Effects.evaluate]
    exact performs_readName name
  | .literal l, _, _ => by
    rw [lowerExpr, Effects.evaluate]
    exact performs_literal _
  | .this, _, _ => by
    rw [lowerExpr, Effects.evaluate]
    exact performs_emit rfl fun _ _ _ => rfl
  | .array elements, h, _ => by
    rw [lowerExpr, Effects.evaluate]
    rw [Expr.items] at h
    refine .draw (fun _ => rfl) ((performs_emit rfl fun _ _ _ => rfl).bind fun array x => ?_)
    refine (lowerElements_performs elements h 0 fun _ _ hK => hK.1).bind fun _ _ => ?_
    exact .pure fun _ _ hK => hK.2.1
  | .object properties, h, _ => by
    rw [lowerExpr, Effects.evaluate]
    rw [Expr.items] at h
    refine .draw (fun _ => rfl) ((performs_emit rfl fun _ _ _ => rfl).bind fun object x => ?_)
    refine (lowerProperties_performs properties h fun _ _ hK => hK.1).bind fun _ _ => ?_
    exact .pure fun _ _ hK => hK.2.1
  | .function f, h, _ => by
    rw [Expr.items] at h
    exact absurd List.mem_cons_self (h.functions f)
  | .unary op argument, h, _ => by
    rw [Expr.items] at h
    have hargument := lowerExpr_performs argument h
    have hmember := memberParts_performs argument h
    cases op with
    | delete =>
        cases argument with
        | ident name =>
            rw [lowerExpr, Effects.evaluate]
            exact .draw (fun _ => rfl) (performs_emit rfl fun _ _ _ => rfl)
        | member object property computed =>
            obtain ⟨hkey, hobject, _⟩ := hmember _ _ _ rfl
            rw [lowerExpr, Effects.evaluate]
            refine (hkey _).bind fun _ _ => (hobject _).bind fun _ _ => ?_
            exact performs_deleteProperty (fun _ _ hK => hK.1) fun _ _ hK => hK.2.1
        | _ =>
            simp only [lowerExpr, Effects.evaluate]
            exact (hargument _).bind fun _ _ => performs_literal _
    | _ =>
        simp only [lowerExpr, Effects.evaluate]
        exact (hargument _).bind fun _ _ => performs_unary _ fun _ _ hK => hK.1
  | .binary op left right, h, _ => by
    rw [lowerExpr, Effects.evaluate]
    rw [Expr.items] at h
    refine (lowerExpr_performs left h.left _).bind fun _ _ => (lowerExpr_performs right h.right _).bind fun _ _ => ?_
    exact .draw (fun _ => rfl) (performs_emitBinary (fun _ _ hK => hK.2.1) fun _ _ hK => hK.1)
  | .update op isPrefix argument, h, _ => by
    have hmember := memberParts_performs argument
    cases argument with
    | ident name =>
        rw [lowerExpr, Effects.evaluate]
        rw [Expr.items] at h
        exact performs_updateName op isPrefix h.write
    | member object property computed =>
        rw [Expr.items.eq_def] at h
        obtain ⟨hkey, _, hchain⟩ := hmember h _ _ _ rfl
        rw [lowerExpr, lowerTarget_member, Effects.evaluate]
        exact performs_updateMember op isPrefix fun _ => performs_target (hkey _) hchain
    | _ =>
        simp only [lowerExpr]
        exact .fail
  | .logical op left right, h, _ => by
    rw [Expr.items] at h
    have hleft := lowerExpr_performs left h.left
    have hright := lowerExpr_performs right h.right
    have hevaluates := lowerExpr_evaluates names right
    cases op with
    | or =>
        rw [lowerExpr, Effects.evaluate]
        exact performs_or (hleft _) hright hevaluates
    | and =>
        rw [lowerExpr, Effects.evaluate]
        exact performs_and (hleft _) hright hevaluates
  | .assign op left right, h, _ => by
    have hmember := memberParts_performs left
    have hright := lowerExpr_performs right
    cases left with
    | ident name =>
        rw [lowerExpr, Effects.evaluate]
        rw [Expr.items] at h
        exact performs_assignName op h.write (hright h.right _)
    | member object property computed =>
        rw [Expr.items.eq_def] at h
        obtain ⟨hkey, _, hchain⟩ := hmember h.left _ _ _ rfl
        rw [lowerExpr, lowerTarget_member, Effects.evaluate]
        exact performs_assignMember op (hright h.right _) fun _ => performs_target (hkey _) hchain
    | _ =>
        simp only [lowerExpr]
        exact .fail
  | .conditional test consequent alternate, h, _ => by
    rw [lowerExpr, Effects.evaluate]
    rw [Expr.items] at h
    have hconsequent := lowerExpr_performs consequent h.left.right
    have halternate := lowerExpr_performs alternate h.right
    exact performs_conditional (lowerExpr_performs test h.left.left _) hconsequent halternate
      (lowerExpr_evaluates names consequent) (lowerExpr_evaluates names alternate)
  | .sequence expressions, h, _ => by
    rw [lowerExpr, Effects.evaluate]
    rw [Expr.items] at h
    exact lowerSequence_performs expressions h _
  | .member object property computed, h, _ => by
    rw [Expr.items] at h
    have hkey := fun hcomputed => lowerExpr_performs property (h.key hcomputed)
    rw [lowerExpr, Effects.evaluate]
    refine (performs_memberKey fun hcomputed => hkey hcomputed _).bind fun _ _ => ?_
    refine (lowerExpr_performs object h.left _).bind fun _ _ => ?_
    exact performs_loadProperty (fun _ _ hK => hK.1) fun _ _ hK => hK.2.1
  | .call callee arguments, h, K => by
    rw [Expr.items] at h
    have hcallee := lowerExpr_performs callee h.left
    have hmember := memberParts_performs callee h.left
    have harguments := lowerExprs_performs arguments h.right
    have hplain : Performs I locals K (do
        let function ← lowerExpr names callee
        call function (emit .global []) (← lowerExprs names arguments)) (do
        let function ← I.evaluate names locals callee
        I.call function I.global (← I.evaluateAll names locals arguments)) (Reads I) := by
      refine (hcallee _).bind fun _ _ => (harguments _).bind fun _ _ => ?_
      exact performs_call (fun _ _ hK => hK.2.1) (performs_emit rfl fun _ _ _ => rfl) fun _ _ hK => hK.1
    cases callee with
    | member object property computed =>
        obtain ⟨hkey, hobject, _⟩ := hmember _ _ _ rfl
        rw [lowerExpr, Effects.evaluate]
        refine (hkey _).bind fun _ _ => (hobject _).bind fun _ _ => ?_
        refine (performs_loadProperty (fun _ _ hK => hK.1) fun _ _ hK => hK.2.1).bind fun _ _ => ?_
        refine (harguments _).bind fun _ _ => ?_
        exact performs_call (fun _ _ hK => hK.2.1) (.pure fun _ _ hK => hK.2.2.1) fun _ _ hK => hK.1
    | _ =>
        simp only [lowerExpr, Effects.evaluate] at hplain ⊢
        exact hplain
  | .new callee arguments, h, _ => by
    rw [lowerExpr, Effects.evaluate]
    rw [Expr.items] at h
    refine (lowerExpr_performs callee h.left _).bind fun _ _ => ?_
    refine (lowerExprs_performs arguments h.right _).bind fun _ _ => ?_
    exact performs_new (fun _ _ hK => hK.2.1) fun _ _ hK => hK.1
  | .unsupported kind, _, _ => by
    rw [lowerExpr]
    exact .fail

/-- The parts of a member expression. -/
theorem memberParts_performs : (e : Expr) → Steady names e.items → (object property : Expr) → (computed : Bool) →
    e = .member object property computed →
      (∀ K, Performs I locals K (memberKey property computed (lowerExpr names property))
        (I.memberKey property computed (I.evaluate names locals property)) (Reads I)) ∧
      (∀ K, Performs I locals K (lowerExpr names object) (I.evaluate names locals object) (Reads I)) ∧
      ∀ K, Performs I locals K (lowerChain names (lowerExpr names object) object)
        (I.evaluateChain names locals (I.evaluate names locals object) object) (ReadsChain I)
  | .member object property computed, h, _, _, _, rfl => by
    rw [Expr.items] at h
    have hobject := lowerExpr_performs object h.left
    have hkey := fun hcomputed => lowerExpr_performs property (h.key hcomputed)
    exact ⟨fun _ => performs_memberKey fun hcomputed => hkey hcomputed _, hobject,
      lowerChain_performs object h.left hobject⟩

theorem lowerChain_performs {value : Build Operand} {effect : StateM W V} : (e : Expr) → Steady names e.items →
    (∀ K, Performs I locals K value effect (Reads I)) → (K : Effects.Memory V W → Prop) →
      Performs I locals K (lowerChain names value e) (I.evaluateChain names locals effect e) (ReadsChain I)
  | .member object property computed, h, _, _ => by
    rw [Expr.items] at h
    have hobject := lowerExpr_performs object h.left
    have hkey := fun hcomputed => lowerExpr_performs property (h.key hcomputed)
    rw [lowerChain, Effects.evaluateChain]
    refine (performs_memberKey fun hcomputed => hkey hcomputed _).bind fun _ _ => ?_
    refine (lowerChain_performs object h.left hobject _).bind fun _ _ => ?_
    exact .pure fun _ _ hK => ⟨hK.1.1, .cons hK.2.1 hK.1.2⟩
  | .ident _, _, h, _ | .literal _, _, h, _ | .this, _, h, _ | .array _, _, h, _ | .object _, _, h, _
  | .function _, _, h, _ | .unary _ _, _, h, _ | .update _ _ _, _, h, _ | .binary _ _ _, _, h, _
  | .logical _ _ _, _, h, _ | .assign _ _ _, _, h, _ | .conditional _ _ _, _, h, _ | .sequence _, _, h, _
  | .call _ _, _, h, _ | .new _ _, _, h, _ | .unsupported _, _, h, _ => by
    simp only [lowerChain, Effects.evaluateChain]
    exact (h _).bind fun _ _ => .pure fun _ _ hK => ⟨hK.1, .nil⟩

theorem lowerExprs_performs : (es : List Expr) → Steady names (itemsOfExprs es) → (K : Effects.Memory V W → Prop) →
    Performs I locals K (lowerExprs names es) (I.evaluateAll names locals es) (ReadsAll I)
  | [], _, _ => by
    rw [lowerExprs, Effects.evaluateAll]
    exact .pure fun _ _ _ => .nil
  | e :: es, h, _ => by
    rw [itemsOfExprs] at h
    rw [lowerExprs, Effects.evaluateAll]
    refine (lowerExpr_performs e h.left _).bind fun _ _ => (lowerExprs_performs es h.right _).bind fun _ _ => ?_
    exact .pure fun _ _ hK => .cons hK.2.1 hK.1

theorem lowerSequence_performs : (es : List Expr) → Steady names (itemsOfExprs es) →
    (K : Effects.Memory V W → Prop) →
      Performs I locals K (lowerSequence names es) (I.evaluateSequence names locals es) (Reads I)
  | [], _, _ => by
    rw [lowerSequence, Effects.evaluateSequence]
    exact performs_literal _
  | [e], h, _ => by
    rw [itemsOfExprs] at h
    rw [lowerSequence, Effects.evaluateSequence]
    exact lowerExpr_performs e h.left _
  | e :: e' :: es, h, _ => by
    rw [itemsOfExprs] at h
    have hrest := lowerSequence_performs (e' :: es) h.right
    simp only [lowerSequence, Effects.evaluateSequence]
    exact (lowerExpr_performs e h.left _).bind fun _ _ => hrest _

theorem lowerElements_performs {array : Operand} {x : V} : (es : List (Option Expr)) →
    Steady names (itemsOfElements es) → (index : Nat) → {K : Effects.Memory V W → Prop} →
      Knows locals K (Reads I array x) →
        Performs I locals K (lowerElements names array index es) (I.evaluateElements names locals x index es) NoValue
  | [], _, _, _, _ => by
    rw [lowerElements, Effects.evaluateElements]
    exact .pure fun _ _ _ => trivial
  | none :: es, h, index, _, harray => by
    rw [itemsOfElements] at h
    rw [lowerElements, Effects.evaluateElements]
    exact lowerElements_performs es h _ harray
  | some e :: es, h, index, _, harray => by
    rw [itemsOfElements] at h
    rw [lowerElements, Effects.evaluateElements]
    refine (lowerExpr_performs e h.left _).bind fun _ _ => (performs_literal _).after fun _ => ?_
    refine (performs_storeProperty (fun m hlocals hK => harray m hlocals hK.2.2) (fun _ _ hK => hK.1)
      fun _ _ hK => hK.2.1).bind fun _ _ => ?_
    exact lowerElements_performs es h.right _ fun m hlocals hK => harray m hlocals hK.2.2.2

theorem lowerProperties_performs {object : Operand} {x : V} : (ps : List Property) →
    Steady names (itemsOfProperties ps) → {K : Effects.Memory V W → Prop} → Knows locals K (Reads I object x) →
      Performs I locals K (lowerProperties names object ps) (I.evaluateProperties names locals x ps) NoValue
  | [], _, _, _ => by
    rw [lowerProperties, Effects.evaluateProperties]
    exact .pure fun _ _ _ => trivial
  | ⟨key, value, kind, computed⟩ :: ps, h, _, hobject => by
    rw [itemsOfProperties] at h
    rw [lowerProperties, Effects.evaluateProperties]
    refine (performs_propertyKey kind computed key).after fun _ => ?_
    refine (lowerExpr_performs value h.left.right _).bind fun _ _ => ?_
    refine (performs_storeProperty (fun m hlocals hK => hobject m hlocals hK.2.2) (fun _ _ hK => hK.2.1)
      fun _ _ hK => hK.1).bind fun _ _ => ?_
    exact lowerProperties_performs ps h.right fun m hlocals hK => hobject m hlocals hK.2.2.2

end

end Build

/-- The code of an expression takes effect in the order of `evaluate`. Its run comes to where the builder stands and
stops there, and goes on only with code that is put down later. -/
theorem lowering_follows_evaluation_order {V W : Type u} (I : Effects V W) (names : Names) (e : Expr)
    (hfunctions : ∀ f, Item.function f ∉ e.items) (hwrites : localWrites names e.items = []) {s t : Builder}
    {v : Operand} (hs : s.Fresh) (hgoes : s.GoesOn) (h : lowerExpr names e s = .ok v t) (m : Effects.Memory V W) :
    ∃ m', (∀ code, Extends t.block? code → I.Reaches code (Effects.spot s m) (Effects.spot t m')) ∧
      I.step t.block? (Effects.spot t m') = none ∧
      m'.world = (I.evaluate names m.locals e m.world).2 ∧ m'.stack = m.stack ∧
      m'.read I v = some (I.evaluate names m.locals e m.world).1 := by
  obtain ⟨m', hcarries, hstack, hworld, hvalue⟩ :=
    Build.lowerExpr_performs e ⟨hfunctions, hwrites⟩ (fun _ => True) hs hgoes h rfl rfl fun _ _ => trivial
  exact ⟨m', fun code hcode => hcarries.reaches hcode, Effects.step_spot (hcarries.continues.goesOn hgoes) m', hworld,
    hstack, hvalue.now⟩

/-- Effects that are noted down one after the other. Values are names. -/
def noted : Effects String (List String) where
  constant c :=
    match c with
    | .string s => s
    | _ => ""
  truthy x := x ≠ ""
  this := "this"
  self := "self"
  global := "global"
  loadGlobal name log := (name, log ++ [name])
  storeGlobal name _ log := (⟨⟩, log ++ [name])
  deleteGlobal name log := (name, log ++ [name])
  loadContext _ _ log := ("slot", log)
  storeContext _ _ _ log := (⟨⟩, log)
  loadProperty object key log := (key, log ++ [object, key])
  storeProperty object key value log := (⟨⟩, log ++ [object, key, value])
  deleteProperty _ key log := (key, log ++ [key])
  array _ log := ("array", log)
  object _ log := ("object", log)
  unary op x log := (x, log ++ [op.symbol])
  binary op x _ log := (x, log ++ [op.symbol])
  call function receiver arguments log := (function, log ++ function :: receiver :: arguments)
  new function arguments log := (function, log ++ function :: arguments)

/-- `o[k()].p = f(x, y) || z` -/
def notedExpr : Expr :=
  .assign .assign (.dot (.member (.ident "o") (.call (.ident "k") []) true) "p")
    (.logical .or (.call (.ident "f") [.ident "x", .ident "y"]) (.ident "z"))

def notedNames : Names := ⟨[(Frame.mk none [] []).scope], Scope.resolve⟩

def notedStart : Builder := ⟨⟨0, 1⟩, .empty, [⟨⟨0⟩, [], []⟩], ⟨0⟩, [], .empty⟩

/-- The value comes before the keys, the outer key before the inner one and both before the object. -/
theorem lowering_follows_evaluation_order_noted :
    ∃ v t m', lowerExpr notedNames notedExpr notedStart = .ok v t ∧
      noted.Reaches t.block? ⟨⟨0⟩, 0, ⟨fun _ => "", fun _ => "", fun _ => "", ["pushed"], []⟩⟩ (Effects.spot t m') ∧
      m'.stack = ["pushed"] ∧
      m'.world = ["f", "x", "y", "f", "global", "x", "y", "k", "k", "global", "o", "o", "k", "k", "p", "f"] := by
  have hok : (EStateM.run' (lowerExpr notedNames notedExpr) notedStart).isSome = true := by decide +kernel
  have hfunctions : ∀ f, Item.function f ∉ notedExpr.items := by
    simp [notedExpr, Expr.dot, Expr.items, itemsOfExprs]
  have hfresh : notedStart.Fresh := by
    intro id hid
    rw [List.mem_singleton.mp hid]
    decide
  cases h : lowerExpr notedNames notedExpr notedStart with
  | error e t =>
      delta EStateM.run' EStateM.run at hok
      rw [h] at hok
      cases hok
  | ok v t =>
      obtain ⟨m', hreaches, _, hworld, hstack, _⟩ :=
        lowering_follows_evaluation_order noted notedNames notedExpr hfunctions (by decide) hfresh
          ⟨⟨⟨0⟩, [], []⟩, rfl, rfl, by simp⟩ h ⟨fun _ => "", fun _ => "", fun _ => "", ["pushed"], []⟩
      exact ⟨v, t, m', rfl, hreaches _ (.refl _), hstack, hworld.trans (by decide +kernel)⟩

end ScriptSsa
