import ScriptSsa.Lowering.Basic

/-!
Two ways to a property.

A member expression that is read is lowered link by link: its key, then its object, which may be a member expression
again, and the load on the way back. One that is assigned to is lowered as a chain: the keys of all its links from the
outermost inwards, the object they start from, then the loads from the innermost link outwards, except for the
outermost one, which is left to whoever stores or loads there. The two put down the same code.

The chain is replayed with one key held back at a time. `chainTarget_cons` says that this is to load the object of the
chain to its end and to set the outermost key beside it, and `lowerTarget_member` reads every target that way.
-/

namespace ScriptSsa

open Build

/-- One link of a chain of member expressions. -/
structure Link where
  property : Expr
  computed : Bool

/-- The links of a chain of member expressions, the outermost first. -/
def Expr.links : Expr → List Link
  | .member inner property computed => ⟨property, computed⟩ :: inner.links
  | _ => []

/-- The expression that a chain of member expressions starts from. -/
def Expr.base : Expr → Expr
  | .member inner _ _ => inner.base
  | e => e

/-- Lowers the key of a link. -/
def Link.key (names : Names) (l : Link) : Build Operand := memberKey l.property l.computed (lowerExpr names l.property)

/-- The keys of the chain are lowered in one pass over its links, and the base behind them. -/
theorem lowerChain_eq (names : Names) (e : Expr) :
    lowerChain names (lowerExpr names e) e = (do
      let keys ← e.links.mapM (Link.key names)
      return Chain.mk (← lowerExpr names e.base) keys) := by
  fun_induction Expr.links e with
  | case1 object property computed ih =>
      rw [lowerChain, ih, Expr.base]
      simp only [List.mapM_cons, bind_assoc, pure_bind]
      rfl
  | case2 e hlink =>
      have hchain : lowerChain names (lowerExpr names e) e = (do return ⟨← lowerExpr names e, []⟩) := by
        cases e with
        | member object property computed => exact absurd rfl (hlink object property computed)
        | _ => simp only [lowerChain]
      have hbase : e.base = e := by
        cases e with
        | member object property computed => exact absurd rfl (hlink object property computed)
        | _ => rfl
      rw [hchain, hbase, List.mapM_nil, pure_bind]

/-- The object at the end of a chain: its keys are applied from the innermost outwards. -/
def Build.loadChain (chain : Chain) : Build Operand :=
  chain.keys.foldrM (fun key object => loadProperty ⟨object, key⟩) chain.base

/-- A key and the object of a chain, as a property. -/
def Build.target (key : Build Operand) (chain : Build Chain) : Build Target := do
  let key ← key
  let object ← loadChain (← chain)
  return ⟨object, key⟩

/-- The outermost key of a chain is applied last. -/
theorem loadChain_cons (base key : Operand) (keys : List Operand) :
    loadChain ⟨base, key :: keys⟩ = loadChain ⟨base, keys⟩ >>= fun object => loadProperty ⟨object, key⟩ :=
  List.foldrM_cons

/-- One more key outside: the property found so far is loaded from, and the new key is the one held back. -/
theorem chainTarget_cons_cons (kind : String) (base outer key : Operand) (keys : List Operand) :
    chainTarget kind ⟨base, outer :: key :: keys⟩ = (do
      let target ← chainTarget kind ⟨base, key :: keys⟩
      return ⟨← loadProperty target, outer⟩) := by
  obtain ⟨innermost, rest, hkeys⟩ :=
    List.exists_cons_of_ne_nil (List.reverse_ne_nil_iff.mpr (List.cons_ne_nil key keys))
  have houter : (outer :: key :: keys).reverse = innermost :: (rest ++ [outer]) := by
    rw [List.reverse_cons, hkeys, List.cons_append]
  simp only [chainTarget, hkeys, houter, List.foldlM_append, List.foldlM_cons, List.foldlM_nil, bind_pure]

/-- The key held back at the end is the outermost, and the loads before it are those of the chain below. -/
theorem chainTarget_cons (kind : String) (base key : Operand) (keys : List Operand) :
    chainTarget kind ⟨base, key :: keys⟩ = (do return ⟨← loadChain ⟨base, keys⟩, key⟩) := by
  induction keys generalizing key with
  | nil => rfl
  | cons inner keys ih =>
      rw [chainTarget_cons_cons, ih, loadChain_cons]
      simp only [bind_assoc, pure_bind]

/-- The target of an assignment to a member expression: its own key, then the chain that leads to its object. -/
theorem lowerTarget_member (names : Names) (evaluate : Build Operand) (object property : Expr) (computed : Bool) :
    lowerTarget names evaluate (.member object property computed) =
      target (memberKey property computed (lowerExpr names property))
        (lowerChain names (lowerExpr names object) object) := by
  simp only [lowerTarget, chainTarget_cons, target]

/-- A chain that is loaded to its end is the expression itself. The induction goes down the links: below the outermost
one stands a chain of its own, whose loads come before the last. -/
theorem loadChain_lowerChain (names : Names) (e : Expr) :
    lowerChain names (lowerExpr names e) e >>= loadChain = lowerExpr names e := by
  fun_induction Expr.base e with
  | case1 object property computed ih =>
      rw [lowerExpr, lowerChain]
      calc (do
            let key ← memberKey property computed (lowerExpr names property)
            let chain ← lowerChain names (lowerExpr names object) object
            return { chain with keys := key :: chain.keys }) >>= loadChain
        _ = (do
            let key ← memberKey property computed (lowerExpr names property)
            let object ← lowerChain names (lowerExpr names object) object >>= loadChain
            loadProperty ⟨object, key⟩) := by
          simp only [bind_assoc, pure_bind, loadChain_cons]
        _ = _ := by rw [ih]
  | case2 e hlink =>
      cases e with
      | member object property computed => exact absurd rfl (hlink object property computed)
      | _ =>
          simp only [lowerChain, bind_assoc, pure_bind]
          exact bind_pure _

/-- To find the target of an assignment and to load from it is to read the member expression. -/
theorem lowerTarget_loadProperty (names : Names) (evaluate : Build Operand) (object property : Expr)
    (computed : Bool) :
    lowerTarget names evaluate (.member object property computed) >>= loadProperty =
      lowerExpr names (.member object property computed) := by
  rw [lowerTarget_member, lowerExpr]
  calc target (memberKey property computed (lowerExpr names property))
          (lowerChain names (lowerExpr names object) object) >>= loadProperty
    _ = (do
        let key ← memberKey property computed (lowerExpr names property)
        let object ← lowerChain names (lowerExpr names object) object >>= loadChain
        loadProperty ⟨object, key⟩) := by
      simp only [target, bind_assoc, pure_bind]
    _ = _ := by rw [loadChain_lowerChain]

/-- Assignments and updates find their targets by `lowerTarget`, which goes along the whole chain and holds the
outermost key back. From any builder, to load from that target gives the value and leaves the builder that reading the
member expression does, or fails as it does; and a call through a member expression has the object and the result of
that load as its receiver and its function. -/
theorem member_paths_agree (names : Names) (evaluate : Build Operand) (object property : Expr) (computed : Bool)
    (s : Builder) :
    lowerTarget names evaluate (.member object property computed) s = (do
      let key ← Link.key names ⟨property, computed⟩
      let keys ← object.links.mapM (Link.key names)
      let base ← lowerExpr names object.base
      let object ← keys.foldrM (fun key object => loadProperty ⟨object, key⟩) base
      return Target.mk object key) s ∧
    (lowerTarget names evaluate (.member object property computed) >>= loadProperty) s =
      lowerExpr names (.member object property computed) s ∧
    (∀ arguments, lowerExpr names (.call (.member object property computed) arguments) s = (do
      let target ← lowerTarget names evaluate (.member object property computed)
      let function ← loadProperty target
      call function (return target.object) (← lowerExprs names arguments)) s) ∧
    (∀ op right, lowerExpr names (.assign op (.member object property computed) right) s =
      assignMember op (lowerTarget names evaluate (.member object property computed)) (lowerExpr names right) s) ∧
    ∀ op isPrefix, lowerExpr names (.update op isPrefix (.member object property computed)) s =
      updateMember op isPrefix (lowerTarget names evaluate (.member object property computed)) s := by
  refine ⟨?_, ?_, fun arguments => ?_, fun op right => ?_, fun op isPrefix => ?_⟩
  · rw [lowerTarget_member, target, lowerChain_eq]
    simp only [bind_assoc, pure_bind]
    rfl
  · rw [lowerTarget_loadProperty]
  · rw [lowerExpr, lowerTarget_member, target]
    calc (do
          let key ← memberKey property computed (lowerExpr names property)
          let object ← lowerExpr names object
          let function ← loadProperty ⟨object, key⟩
          call function (return object) (← lowerExprs names arguments)) s
      _ = (do
          let key ← memberKey property computed (lowerExpr names property)
          let object ← lowerChain names (lowerExpr names object) object >>= loadChain
          let function ← loadProperty ⟨object, key⟩
          call function (return object) (← lowerExprs names arguments)) s := by
        rw [loadChain_lowerChain]
      _ = _ := by simp only [bind_assoc, pure_bind]
  · rw [lowerExpr, lowerTarget_member, lowerTarget_member]
  · rw [lowerExpr, lowerTarget_member, lowerTarget_member]

end ScriptSsa
