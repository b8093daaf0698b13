import ScriptSsa.Proofs.LocalBindings

/-!
From an operand to the instruction that takes it.

A read of a local variable gives the name of the variable as its operand, and adds no instruction. Between the read
and the instruction that takes the operand, other parts of the expression may be lowered. `Plan.ofExpr` spells the
code of an expression out, down to its parts, and `Plan.Leads` follows a run along it with the items of the parts
that it passes. The writes among these items count the instructions that are bound to the variable on the way: there
is one for each write, so there is none if and only if the variable is not written.
-/

namespace ScriptSsa

open Build

/-- Code that is spelled out down to the parts of an expression. -/
inductive Plan (α : Type) where
  | done (a : α)
  | refuse (e : BuildError)
  | lower (part : Expr) (next : Operand → Plan α)
  /-- An id is drawn for a constant or a count. -/
  | draw (next : Plan α)
  | read (name : String) (next : Operand → Plan α)
  | write (name : String) (value : Operand) (next : Operand → Plan α)
  | emit (opcode : Opcode) (operands : List Operand) (next : Operand → Plan α)

namespace Plan

variable {α β : Type}

def bind (f : α → Plan β) : Plan α → Plan β
  | done a => f a
  | refuse e => refuse e
  | lower part next => lower part fun v => (next v).bind f
  | draw next => draw (next.bind f)
  | read name next => read name fun v => (next v).bind f
  | write name value next => write name value fun v => (next v).bind f
  | emit opcode operands next => emit opcode operands fun v => (next v).bind f

instance : Monad Plan where
  pure := done
  bind p f := p.bind f

/-- The code that a plan stands for. -/
def run (names : Names) : Plan α → Build α
  | done a => return a
  | refuse e => fail e
  | lower part next => do (next (← lowerExpr names part)).run names
  | draw next => do
    let _ ← freshInstr
    next.run names
  | read name next => do (next (← readName names name)).run names
  | write name value next => do (next (← writeName names name value)).run names
  | emit opcode operands next => do (next (← Build.emit opcode operands)).run names

/-! The plans of single steps and of the operations. -/

def part (e : Expr) : Plan Operand := lower e done

def instr (opcode : Opcode) (operands : List Operand) : Plan Operand := emit opcode operands done

/-- An instruction whose result is not used. -/
def perform (opcode : Opcode) (operands : List Operand) : Plan Unit := emit opcode operands fun _ => done ()

def constant (c : Constant) : Plan Operand := draw (done (.constant c))

def count (n : Nat) : Plan Operand := draw (done (.count n))

def literal (c : Constant) : Plan Operand := do instr .literal [← constant c]

def memberKey (property : Expr) (computed : Bool) : Plan Operand :=
  if computed then part property
  else
    match property.ident? with
    | some name => literal (.string name)
    | none => refuse (.unsupported ("member name " ++ property.kind))

def propertyKey (kind : PropertyKind) (computed : Bool) (key : Expr) : Plan Operand :=
  if kind ≠ .init then refuse (.unsupported "property accessor")
  else if computed then refuse (.unsupported "computed property key")
  else
    match key with
    | .ident name => literal (.string name)
    | .literal l => literal l.constant
    | e => refuse (.unsupported ("property key " ++ e.kind))

/-- The keys of a member expression from the outermost inwards, then the object they start from. -/
def chain : Expr → Plan Chain
  | .member object property computed => do
    let key ← memberKey property computed
    let chain ← chain object
    return { chain with keys := key :: chain.keys }
  | e => do return ⟨← part e, []⟩

/-- The object that keys lead to, the innermost of them applied first. -/
def load (base : Operand) : List Operand → Plan Operand
  | [] => return base
  | key :: keys => do instr .loadProperty [← load base keys, key]

def target (object property : Expr) (computed : Bool) : Plan Target := do
  let key ← memberKey property computed
  let chain ← chain object
  let object ← load chain.base chain.keys
  return ⟨object, key⟩

def assignName (name : String) (op : AssignOp) (right : Expr) : Plan Operand :=
  match op.binary? with
  | none => do write name (← part right) done
  | some op => do
    let op ← constant (.string op.symbol)
    let value ← part right
    let old ← read name done
    let result ← instr .binary [op, old, value]
    write name result done

def assignMember (op : AssignOp) (target : Plan Target) (right : Expr) : Plan Operand :=
  match op.binary? with
  | none => do
    let value ← part right
    let target ← target
    perform .storeProperty [target.object, target.key, value]
    return value
  | some op => do
    let op ← constant (.string op.symbol)
    let value ← part right
    let target ← target
    let old ← instr .loadProperty [target.object, target.key]
    let result ← instr .binary [op, old, value]
    perform .storeProperty [target.object, target.key, result]
    return result

def updateName (name : String) (op : UpdateOp) (isPrefix : Bool) : Plan Operand :=
  if isPrefix then do
    let op ← constant (.string op.binary.symbol)
    let one ← literal one
    let old ← read name done
    let result ← instr .binary [op, old, one]
    write name result done
  else do
    let current ← read name done
    let old ← instr .nop [current]
    let op ← constant (.string op.binary.symbol)
    let one ← literal one
    let result ← instr .binary [op, old, one]
    let _ ← write name result done
    return old

def updateMember (op : UpdateOp) (isPrefix : Bool) (target : Plan Target) : Plan Operand :=
  if isPrefix then do
    let op ← constant (.string op.binary.symbol)
    let one ← literal one
    let target ← target
    let old ← instr .loadProperty [target.object, target.key]
    let result ← instr .binary [op, old, one]
    perform .storeProperty [target.object, target.key, result]
    return result
  else do
    let target ← target
    let current ← instr .loadProperty [target.object, target.key]
    let old ← instr .nop [current]
    let op ← constant (.string op.binary.symbol)
    let one ← literal one
    let result ← instr .binary [op, old, one]
    perform .storeProperty [target.object, target.key, result]
    return old

def parts : List Expr → Plan (List Operand)
  | [] => return []
  | e :: es => do
    let value ← part e
    return value :: (← parts es)

def pushArgs (arguments : List Operand) : Plan Unit :=
  arguments.reverse.forM fun argument => perform .pushArg [argument]

def elements (array : Operand) : (index : Nat) → List (Option Expr) → Plan Unit
  | _, [] => return ()
  | index, none :: es => elements array (index + 1) es
  | index, some e :: es => do
    let value ← part e
    let key ← literal (.number (.ofNat index))
    perform .storeProperty [array, key, value]
    elements array (index + 1) es

def properties (object : Operand) : List Property → Plan Unit
  | [] => return ()
  | ⟨key, value, kind, computed⟩ :: ps => do
    let key ← propertyKey kind computed key
    let value ← part value
    perform .storeProperty [object, key, value]
    properties object ps

/-- The code of an expression, down to its parts. A branching expression, a sequence and a function add no
instruction that takes an operand in their parts' place, and count as one part. -/
def ofExpr : Expr → Plan Operand
  | .ident name => read name done
  | .literal l => literal l.constant
  | .this => instr .this []
  | .array es => do
    let size ← count es.length
    let array ← instr .array [size]
    elements array 0 es
    return array
  | .object ps => do
    let size ← count ps.length
    let object ← instr .object [size]
    properties object ps
    return object
  | .unary .delete (.ident name) => do instr .deleteGlobal [← constant (.string name)]
  | .unary .delete (.member object property computed) => do
    let key ← memberKey property computed
    let object ← part object
    instr .deleteProperty [object, key]
  | .unary .delete argument => do
    let _ ← part argument
    literal (.bool true)
  | .unary op argument => do
    let argument ← part argument
    let op ← constant (.string op.symbol)
    instr .unary [op, argument]
  | .update op isPrefix (.ident name) => updateName name op isPrefix
  | .update op isPrefix (.member object property computed) =>
    updateMember op isPrefix (target object property computed)
  | .update _ _ argument => refuse (.unsupported ("update of " ++ argument.kind))
  | .binary op left right => do
    let left ← part left
    let right ← part right
    let op ← constant (.string op.symbol)
    instr .binary [op, left, right]
  | .assign op (.ident name) right => assignName name op right
  | .assign op (.member object property computed) right =>
    assignMember op (target object property computed) right
  | .assign _ left _ => refuse (.unsupported ("assignment to " ++ left.kind))
  | .member object property computed => do
    let key ← memberKey property computed
    let object ← part object
    instr .loadProperty [object, key]
  | .call (.member object property computed) arguments => do
    let key ← memberKey property computed
    let object ← part object
    let function ← instr .loadProperty [object, key]
    let arguments ← parts arguments
    pushArgs arguments
    let size ← count arguments.length
    instr .call [function, object, size]
  | .call callee arguments => do
    let function ← part callee
    let arguments ← parts arguments
    pushArgs arguments
    let receiver ← instr .global []
    let size ← count arguments.length
    instr .call [function, receiver, size]
  | .new callee arguments => do
    let function ← part callee
    let arguments ← parts arguments
    pushArgs arguments
    let size ← count arguments.length
    instr .new [function, size]
  | .unsupported kind => refuse (.unsupported kind)
  | e => part e

variable (names : Names)

@[simp] theorem run_pure (a : α) : (pure a : Plan α).run names = pure a := rfl

@[simp] theorem run_bind (p : Plan α) (f : α → Plan β) :
    (p >>= f).run names = p.run names >>= fun a => (f a).run names := by
  change (p.bind f).run names = _
  induction p with
  | done a => simp only [bind, run, pure_bind]
  | refuse e => rfl
  | draw next ih => simp only [bind, run, ih, bind_assoc]
  | lower _ next ih | read _ next ih | write _ _ next ih | emit _ _ next ih => simp only [bind, run, ih, bind_assoc]

@[simp] theorem run_part (e : Expr) : (part e).run names = lowerExpr names e := bind_pure _

@[simp] theorem run_read (name : String) : (read name done).run names = readName names name := bind_pure _

@[simp] theorem run_write (name : String) (value : Operand) :
    (write name value done).run names = writeName names name value := bind_pure _

@[simp] theorem run_instr (opcode : Opcode) (operands : List Operand) :
    (instr opcode operands).run names = Build.emit opcode operands := bind_pure _

@[simp] theorem run_perform (opcode : Opcode) (operands : List Operand) :
    (perform opcode operands).run names = Build.perform opcode operands := by
  simp [perform, run, Build.emit, Build.perform]

@[simp] theorem run_constant (c : Constant) : (constant c).run names = Build.constant c := rfl

@[simp] theorem run_count (n : Nat) : (count n).run names = Build.count n := rfl

@[simp] theorem run_literal (c : Constant) : (literal c).run names = Build.literal c := by
  simp [literal, Build.literal]

@[simp] theorem run_refuse (what : String) :
    (refuse (.unsupported what) : Plan α).run names = Build.unsupported what := rfl

@[simp] theorem run_memberKey (property : Expr) (computed : Bool) :
    (memberKey property computed).run names = Build.memberKey property computed (lowerExpr names property) := by
  unfold memberKey Build.memberKey
  cases computed with
  | true => simp
  | false => cases property.ident? <;> simp

@[simp] theorem run_propertyKey (kind : PropertyKind) (computed : Bool) (key : Expr) :
    (propertyKey kind computed key).run names = Build.propertyKey kind computed key := by
  unfold propertyKey Build.propertyKey
  split
  · rfl
  · split
    · rfl
    · cases key <;> simp

theorem run_chain (e : Expr) : (chain e).run names = lowerChain names (lowerExpr names e) e := by
  induction e using chain.induct with
  | case1 object property computed ih => simp [chain, lowerChain, ih]
  | case2 e h => cases e <;> simp_all [chain, lowerChain]

@[simp] theorem run_load (base : Operand) (keys : List Operand) :
    (load base keys).run names = loadChain ⟨base, keys⟩ := by
  rw [loadChain]
  induction keys with
  | nil => rfl
  | cons key keys ih => simp [load, ih, loadProperty]

@[simp] theorem run_target (object property : Expr) (computed : Bool) :
    (target object property computed).run names =
      Build.target (Build.memberKey property computed (lowerExpr names property))
        (lowerChain names (lowerExpr names object) object) := by
  simp [target, Build.target, run_chain]

@[simp] theorem run_parts (es : List Expr) : (parts es).run names = lowerExprs names es := by
  induction es with
  | nil => simp [parts, lowerExprs]
  | cons e es ih => simp [parts, lowerExprs, ih]

@[simp] theorem run_pushArgs (arguments : List Operand) :
    (pushArgs arguments).run names = Build.pushArgs arguments := by
  rw [pushArgs, Build.pushArgs]
  induction arguments.reverse with
  | nil => rfl
  | cons argument rest ih =>
      change (perform .pushArg [argument] >>= fun _ => rest.forM _).run names = Build.perform .pushArg [argument] >>= _
      rw [run_bind, run_perform, ih]

@[simp] theorem run_elements (array : Operand) (index : Nat) (es : List (Option Expr)) :
    (elements array index es).run names = lowerElements names array index es := by
  induction es generalizing index with
  | nil => simp [elements, lowerElements]
  | cons e es ih => cases e <;> simp [elements, lowerElements, ih, storeProperty]

@[simp] theorem run_properties (object : Operand) (ps : List Property) :
    (properties object ps).run names = lowerProperties names object ps := by
  induction ps with
  | nil => simp [properties, lowerProperties]
  | cons p ps ih =>
      obtain ⟨key, value, kind, computed⟩ := p
      simp [properties, lowerProperties, ih, storeProperty]

@[simp] theorem run_assignName (name : String) (op : AssignOp) (right : Expr) :
    (assignName name op right).run names = Build.assignName names name op (lowerExpr names right) := by
  rw [assignName, Build.assignName]
  cases op.binary? <;> simp [operator]

@[simp] theorem run_assignMember (op : AssignOp) (target : Plan Target) (right : Expr) :
    (assignMember op target right).run names =
      Build.assignMember op (target.run names) (lowerExpr names right) := by
  rw [assignMember, Build.assignMember]
  cases op.binary? <;> simp [operator, loadProperty, storeProperty]

@[simp] theorem run_updateName (name : String) (op : UpdateOp) (isPrefix : Bool) :
    (updateName name op isPrefix).run names = Build.updateName names name op isPrefix := by
  cases isPrefix <;> simp [updateName, Build.updateName, operator]

@[simp] theorem run_updateMember (op : UpdateOp) (isPrefix : Bool) (target : Plan Target) :
    (updateMember op isPrefix target).run names = Build.updateMember op isPrefix (target.run names) := by
  cases isPrefix <;> simp [updateMember, Build.updateMember, operator, loadProperty, storeProperty]

/-- The plan of an expression is its code. -/
theorem run_ofExpr (e : Expr) : (ofExpr e).run names = lowerExpr names e := by
  cases e with
  | unary op argument =>
      cases op with
      | delete => cases argument <;> simp [ofExpr, lowerExpr]
      | _ => simp [ofExpr, lowerExpr, Build.unary, operator]
  | update op isPrefix argument => cases argument <;> simp [ofExpr, lowerExpr, lowerTarget_member]
  | assign op left right => cases left <;> simp [ofExpr, lowerExpr, lowerTarget_member]
  | call callee arguments => cases callee <;> simp [ofExpr, lowerExpr, Build.call, loadProperty]
  | new callee arguments => simp [ofExpr, lowerExpr, Build.new]
  | binary op left right => simp [ofExpr, lowerExpr, Build.binary, operator]
  | member object property computed => simp [ofExpr, lowerExpr, loadProperty]
  | _ => simp [ofExpr, lowerExpr]

/-- A run along a plan comes from one place to another and passes parts and writes with the given items. -/
inductive Leads : Plan α → Builder → List Item → Plan α → Builder → Prop where
  | here {p : Plan α} {s : Builder} : Leads p s [] p s
  | lower {part : Expr} {next : Operand → Plan α} {q : Plan α} {s t u : Builder} {v : Operand} {items : List Item}
      (hpart : lowerExpr names part s = .ok v t) (h : Leads (next v) t items q u) :
      Leads (.lower part next) s (part.items ++ items) q u
  | draw {next q : Plan α} {s u : Builder} {items : List Item} (h : Leads next s.draw items q u) :
      Leads (.draw next) s items q u
  | read {name : String} {next : Operand → Plan α} {q : Plan α} {s t u : Builder} {v : Operand} {items : List Item}
      (hread : readName names name s = .ok v t) (h : Leads (next v) t items q u) : Leads (.read name next) s items q u
  | write {name : String} {value : Operand} {next : Operand → Plan α} {q : Plan α} {s t u : Builder} {v : Operand}
      {items : List Item} (hwrite : writeName names name value s = .ok v t) (h : Leads (next v) t items q u) :
      Leads (.write name value next) s (.use ⟨.write, name⟩ :: items) q u
  | emit {opcode : Opcode} {operands : List Operand} {next : Operand → Plan α} {q : Plan α} {s t u : Builder}
      {v : Operand} {items : List Item} (hemit : Build.emit opcode operands s = .ok v t)
      (h : Leads (next v) t items q u) : Leads (.emit opcode operands next) s items q u

/-- Whether the next step adds an instruction that takes the operand. -/
def Takes (w : Operand) : Plan α → Prop
  | emit _ operands _ => w ∈ operands
  | write _ value _ => value = w
  | _ => False

variable {names}

/-- A run succeeds along its plan. -/
theorem run_eq_ok_iff {p : Plan α} {s t : Builder} {a : α} :
    p.run names s = .ok a t ↔ ∃ items, Leads names p s items (done a) t := by
  constructor
  · intro h
    induction p generalizing s with
    | done b =>
        cases h
        exact ⟨[], .here⟩
    | refuse e => cases h
    | draw next ih =>
        obtain ⟨items, hleads⟩ := ih h
        exact ⟨items, .draw hleads⟩
    | lower part next ih =>
        obtain ⟨v, u, hpart, hrest⟩ := bind_eq_ok h
        obtain ⟨items, hleads⟩ := ih v hrest
        exact ⟨_, .lower hpart hleads⟩
    | read name next ih =>
        obtain ⟨v, u, hread, hrest⟩ := bind_eq_ok h
        obtain ⟨items, hleads⟩ := ih v hrest
        exact ⟨_, .read hread hleads⟩
    | write name value next ih =>
        obtain ⟨v, u, hwrite, hrest⟩ := bind_eq_ok h
        obtain ⟨items, hleads⟩ := ih v hrest
        exact ⟨_, .write hwrite hleads⟩
    | emit opcode operands next ih =>
        obtain ⟨v, u, hemit, hrest⟩ := bind_eq_ok h
        obtain ⟨items, hleads⟩ := ih v hrest
        exact ⟨_, .emit hemit hleads⟩
  · rintro ⟨items, h⟩
    generalize hq : (done a : Plan α) = q at h
    induction h with
    | here =>
        subst hq
        rfl
    | draw h ih => exact ih hq
    | lower hpart h ih => exact (bind_ok hpart).trans (ih hq)
    | read hread h ih => exact (bind_ok hread).trans (ih hq)
    | write hwrite h ih => exact (bind_ok hwrite).trans (ih hq)
    | emit hemit h ih => exact (bind_ok hemit).trans (ih hq)

/-- What is bound along the way is what the items say. -/
theorem Leads.binds {p q : Plan α} {s t : Builder} {items : List Item} (h : Leads names p s items q t)
    (hs : s.Distinct) : t.Distinct ∧ s.Binds (localWrites names items) t := by
  have hstep : ∀ {β : Type} {m : Build β} {writes : List String} {v : β} {s t u : Builder} {rest : List Item},
      BindsAll writes m → m s = .ok v t → s.Distinct →
      (t.Distinct → u.Distinct ∧ t.Binds (localWrites names rest) u) →
      u.Distinct ∧ s.Binds (writes ++ localWrites names rest) u := by
    intro β m writes v s t u rest hm hrun hs hrest
    obtain ⟨ht, hbinds⟩ := hm s v t hrun hs
    obtain ⟨hu, hbinds'⟩ := hrest ht
    exact ⟨hu, hbinds.trans hbinds'⟩
  induction h with
  | here => exact ⟨hs, .of_bound_eq rfl⟩
  | draw h ih => exact hstep bindsAll_freshInstr freshInstr_eq hs ih
  | lower hpart h ih =>
      rw [localWrites_append]
      exact hstep (lowerExpr_bindsAll names _) hpart hs ih
  | read hread h ih => exact hstep (bindsAll_readName _) hread hs ih
  | write hwrite h ih =>
      rw [← List.singleton_append, localWrites_append]
      exact hstep (bindsAll_writeName _ _) hwrite hs ih
  | emit hemit h ih => exact hstep (bindsAll_emit _ _) hemit hs ih

end Plan

/-- The instructions that are bound to a variable. -/
def Builder.boundTo (s : Builder) (name : String) : List Instr := s.instrs.filter fun i => i.binding = some name

/-- The instructions bound to one variable are among those that are bound. -/
theorem Builder.Binds.boundTo {s t : Builder} {writes : List String} (h : s.Binds writes t) (name : String) :
    ∃ new, (t.boundTo name).Perm (new ++ s.boundTo name) ∧ new.length = writes.count name := by
  have hfilter : ∀ u : Builder, u.boundTo name = u.bound.filter fun i => i.binding = some name := by
    intro u
    rw [Builder.boundTo, Builder.bound, List.filter_filter]
    refine List.filter_congr fun i _ => ?_
    cases i.binding <;> simp
  have hcount : ∀ l : List Instr,
      (l.filter fun i => i.binding = some name).length = (l.filterMap Instr.binding).count name := by
    intro l
    induction l with
    | nil => rfl
    | cons i l ih => cases hi : i.binding <;> grind
  obtain ⟨new, hperm, hnames⟩ := h
  refine ⟨new.filter fun i => i.binding = some name, ?_, ?_⟩
  · rw [hfilter, hfilter, ← List.filter_append]
    exact hperm.filter _
  · rw [hcount, hnames.count_eq]

/-- While the expression is lowered from `s`, a part of it gives the local variable as its operand and leaves
`given`; then parts and writes with the items `between` follow, and what is next, with `taken`, is to add an
instruction that takes the variable. -/
def Span (names : Names) (e : Expr) (s : Builder) (name : String) (given : Builder) (between : List Item)
    (taken : Builder) : Prop :=
  ∃ before part next start rest,
    (Plan.ofExpr e).Leads names s before (.lower part next) start ∧
    lowerExpr names part start = .ok (.localVar name) given ∧
    (next (.localVar name)).Leads names given between rest taken ∧ rest.Takes (.localVar name)

/-- Between the left operand of a binary operator and its use stands the right one. -/
theorem span_left {names : Names} {op : BinaryOp} {left right : Expr} {s given t : Builder} {name : String}
    {v : Operand} (hleft : lowerExpr names left s = .ok (.localVar name) given)
    (hright : lowerExpr names right given = .ok v t) :
    Span names (.binary op left right) s name given right.items t.draw := by
  refine ⟨[], left, _, s, .emit .binary [.constant (.string op.symbol), .localVar name, v] .done, .here, hleft, ?_, ?_⟩
  · rw [← List.append_nil right.items]
    exact .lower hright (.draw .here)
  · exact .tail _ (.head _)

/-- Expressions are lowered along their plans. Between an operand that is a local variable and an instruction that
takes it, one instruction is bound to the variable for each write to it in the parts that are lowered in between. So
the instructions bound to the variable are the same ones at both ends if and only if these parts do not write it. -/
theorem bindings_before_use_count_writes (names : Names) (e : Expr) (s : Builder) (hs : s.Distinct) :
    (∀ v t, lowerExpr names e s = .ok v t ↔ ∃ items, (Plan.ofExpr e).Leads names s items (.done v) t) ∧
    ∀ name given between taken, Span names e s name given between taken →
      (∃ new, (taken.boundTo name).Perm (new ++ given.boundTo name) ∧
        new.length = (localWrites names between).count name) ∧
      ((taken.boundTo name).Perm (given.boundTo name) ↔ name ∉ localWrites names between) := by
  refine ⟨fun v t => ?_, fun name given between taken hspan => ?_⟩
  · rw [← Plan.run_ofExpr]
    exact Plan.run_eq_ok_iff
  · obtain ⟨before, part, next, start, rest, hbefore, hpart, hbetween, _⟩ := hspan
    obtain ⟨hstart, _⟩ := hbefore.binds hs
    obtain ⟨hgiven, _⟩ := lowerExpr_bindsAll names part start _ given hpart hstart
    obtain ⟨new, hperm, hlength⟩ := (hbetween.binds hgiven).2.boundTo name
    refine ⟨⟨new, hperm, hlength⟩, ?_⟩
    rw [← List.count_eq_zero, ← hlength]
    constructor
    · intro hsame
      have hsizes := hperm.length_eq.symm.trans hsame.length_eq
      rw [List.length_append] at hsizes
      omega
    · intro hnone
      rw [List.length_eq_zero_iff.mp hnone] at hperm
      exact hperm

/-- `x + (name = 1)` -/
def addAssigned (name : String) : Expr :=
  .binary .add (.ident "x") (.assign .assign (.ident name) (.literal (.number (.ofNat 1))))

/-- `var x; x + (x = 1);` -/
def addScript : Program := ⟨[.var ⟨.var, [⟨.ident "x", none⟩]⟩, .expr (addAssigned "x")]⟩

def addNames : Names := ⟨[(Frame.mk none [] addScript.body).scope], Scope.resolve⟩

/-- The place of the sum in the script. -/
def addStart : Builder :=
  ⟨⟨2, 1⟩, .empty, [⟨⟨0⟩, [⟨⟨1⟩, .literal, [.constant .undefined], some "x"⟩], []⟩], ⟨0⟩, [], .empty⟩

/-- A global variable is written in between, and nothing is bound to the operand. -/
theorem bindings_before_use_count_writes_global :
    addStart.Distinct ∧
    ∃ taken, Span addNames (addAssigned "z") addStart "x" addStart.draw [.use ⟨.write, "z"⟩] taken ∧
      (taken.boundTo "x").Perm (addStart.draw.boundTo "x") := by
  have hstart : addStart.Distinct := by
    refine ⟨by decide, fun id hid => ?_⟩
    rw [List.mem_singleton.mp hid]
    decide
  have hspan : Span addNames (addAssigned "z") addStart "x" addStart.draw [.use ⟨.write, "z"⟩] _ := span_left rfl rfl
  obtain ⟨_, hcount⟩ := bindings_before_use_count_writes addNames (addAssigned "z") addStart hstart
  exact ⟨hstart, _, hspan, (hcount "x" _ _ _ hspan).2.mpr (by decide)⟩

/-- Between the left operand of the sum in the script and the sum, the literal 1 is bound to `x`; the sum names `x` on
both sides. -/
theorem left_operand_rebound :
    (∃ taken, Span addNames (addAssigned "x") addStart "x" addStart.draw [.use ⟨.write, "x"⟩] taken ∧
      ¬ (taken.boundTo "x").Perm (addStart.draw.boundTo "x")) ∧
    (constructWith addScript .fresh).1.toOption.map (List.map Graph.instrs) =
      some [[⟨⟨1⟩, .literal, [.constant .undefined], some "x"⟩, ⟨⟨4⟩, .literal, [.constant one], some "x"⟩,
        ⟨⟨6⟩, .binary, [.constant (.string "+"), .localVar "x", .localVar "x"], none⟩]] := by
  refine ⟨⟨_, span_left rfl rfl, fun hperm => ?_⟩, by decide +kernel⟩
  exact absurd hperm.length_eq (by decide)

end ScriptSsa
