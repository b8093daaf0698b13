import Mathlib.Data.List.Forall2
import Mathlib.Data.Option.Defs
import ScriptSsa.Scope.Basic

/-!
Other spellings of a script.

`p.Respells q` says that `q` spells some of the constructs of `p` in another way, at any depth: `while (t) s` as
`for (; t;) s`, an absent test of a `for` as `true`, `++e` and `--e` as `e += 1` and `e -= 1`, an absent `else` as an
empty one. Each construct may be respelled or left, whatever becomes of its parts. A step by one is respelled only
where its value is asked for: as a target, a parameter or a key that is not computed it would be refused under its own
kind. The scopes of functions take no notice of the spelling.
-/

namespace ScriptSsa

/-- The assignment that steps its target. -/
def UpdateOp.compound : UpdateOp → AssignOp
  | increment => .add
  | decrement => .sub

/-- A step by one and the compound assignment that replaces it carry out one operation. -/
theorem UpdateOp.binary?_compound (op : UpdateOp) : op.compound.binary? = some op.binary := by
  cases op <;> rfl

/-- The number that a step adds or subtracts. -/
def Expr.one : Expr := .literal (.number (.ofNat 1))

mutual

/-- The expression is respelled, where `evaluated` says whether its own value is asked for. -/
inductive Expr.Respells : (evaluated : Bool) → Expr → Expr → Prop where
  | ident {evaluated : Bool} (name : String) : Expr.Respells evaluated (.ident name) (.ident name)
  | literal {evaluated : Bool} (l : Literal) : Expr.Respells evaluated (.literal l) (.literal l)
  | this {evaluated : Bool} : Expr.Respells evaluated .this .this
  | array {evaluated : Bool} {es es' : List (Option Expr)}
      (hes : List.Forall₂ (Option.Rel (Expr.Respells true)) es es') :
      Expr.Respells evaluated (.array es) (.array es')
  | object {evaluated : Bool} {ps ps' : List Property} (hps : List.Forall₂ Property.Respells ps ps') :
      Expr.Respells evaluated (.object ps) (.object ps')
  | function {evaluated : Bool} {f f' : Function} (hf : Function.Respells f f') :
      Expr.Respells evaluated (.function f) (.function f')
  | unary {evaluated : Bool} (op : UnaryOp) {e e' : Expr} (he : Expr.Respells true e e') :
      Expr.Respells evaluated (.unary op e) (.unary op e')
  | update {evaluated : Bool} (op : UpdateOp) (isPrefix : Bool) {e e' : Expr} (he : Expr.Respells false e e') :
      Expr.Respells evaluated (.update op isPrefix e) (.update op isPrefix e')
  | binary {evaluated : Bool} (op : BinaryOp) {left left' right right' : Expr}
      (hleft : Expr.Respells true left left') (hright : Expr.Respells true right right') :
      Expr.Respells evaluated (.binary op left right) (.binary op left' right')
  | logical {evaluated : Bool} (op : LogicalOp) {left left' right right' : Expr}
      (hleft : Expr.Respells true left left') (hright : Expr.Respells true right right') :
      Expr.Respells evaluated (.logical op left right) (.logical op left' right')
  | assign {evaluated : Bool} (op : AssignOp) {left left' right right' : Expr}
      (hleft : Expr.Respells false left left') (hright : Expr.Respells true right right') :
      Expr.Respells evaluated (.assign op left right) (.assign op left' right')
  | conditional {evaluated : Bool} {t t' c c' a a' : Expr} (ht : Expr.Respells true t t')
      (hc : Expr.Respells true c c') (ha : Expr.Respells true a a') :
      Expr.Respells evaluated (.conditional t c a) (.conditional t' c' a')
  | sequence {evaluated : Bool} {es es' : List Expr} (hes : List.Forall₂ (Expr.Respells true) es es') :
      Expr.Respells evaluated (.sequence es) (.sequence es')
  | member {evaluated computed : Bool} {o o' p p' : Expr} (ho : Expr.Respells true o o')
      (hp : Expr.Respells computed p p') :
      Expr.Respells evaluated (.member o p computed) (.member o' p' computed)
  | call {evaluated : Bool} {f f' : Expr} {es es' : List Expr} (hf : Expr.Respells true f f')
      (hes : List.Forall₂ (Expr.Respells true) es es') :
      Expr.Respells evaluated (.call f es) (.call f' es')
  | new {evaluated : Bool} {f f' : Expr} {es es' : List Expr} (hf : Expr.Respells true f f')
      (hes : List.Forall₂ (Expr.Respells true) es es') :
      Expr.Respells evaluated (.new f es) (.new f' es')
  | unsupported {evaluated : Bool} (kind : String) : Expr.Respells evaluated (.unsupported kind) (.unsupported kind)
  /-- `++x` becomes `x += 1`. -/
  | stepName (op : UpdateOp) (name : String) :
      Expr.Respells true (.update op true (.ident name)) (.assign op.compound (.ident name) .one)
  /-- `++o.p` becomes `o.p += 1`. -/
  | stepMember (op : UpdateOp) {computed : Bool} {o o' p p' : Expr} (ho : Expr.Respells true o o')
      (hp : Expr.Respells computed p p') :
      Expr.Respells true (.update op true (.member o p computed))
        (.assign op.compound (.member o' p' computed) .one)

inductive Property.Respells : Property → Property → Prop where
  | mk {key key' value value' : Expr} (kind : PropertyKind) {computed : Bool} (hkey : Expr.Respells computed key key')
      (hvalue : Expr.Respells true value value') :
      Property.Respells ⟨key, value, kind, computed⟩ ⟨key', value', kind, computed⟩

inductive Function.Respells : Function → Function → Prop where
  | mk (name : Option String) {params params' : List Expr} {body body' : List Stmt} (isGenerator isAsync : Bool)
      (hparams : List.Forall₂ (Expr.Respells false) params params') (hbody : List.Forall₂ Stmt.Respells body body') :
      Function.Respells ⟨name, params, body, isGenerator, isAsync⟩ ⟨name, params', body', isGenerator, isAsync⟩

inductive Declarator.Respells : Declarator → Declarator → Prop where
  | mk {target target' : Expr} {init init' : Option Expr} (htarget : Expr.Respells false target target')
      (hinit : Option.Rel (Expr.Respells true) init init') : Declarator.Respells ⟨target, init⟩ ⟨target', init'⟩

inductive VarDecl.Respells : VarDecl → VarDecl → Prop where
  | mk (kind : VarKind) {ds ds' : List Declarator} (hds : List.Forall₂ Declarator.Respells ds ds') :
      VarDecl.Respells ⟨kind, ds⟩ ⟨kind, ds'⟩

inductive ForInit.Respells : ForInit → ForInit → Prop where
  | var {d d' : VarDecl} (hd : VarDecl.Respells d d') : ForInit.Respells (.var d) (.var d')
  | expr {e e' : Expr} (he : Expr.Respells true e e') : ForInit.Respells (.expr e) (.expr e')

inductive Stmt.Respells : Stmt → Stmt → Prop where
  | var {d d' : VarDecl} (hd : VarDecl.Respells d d') : Stmt.Respells (.var d) (.var d')
  | function {f f' : Function} (hf : Function.Respells f f') : Stmt.Respells (.function f) (.function f')
  | expr {e e' : Expr} (he : Expr.Respells true e e') : Stmt.Respells (.expr e) (.expr e')
  | block {body body' : List Stmt} (hbody : List.Forall₂ Stmt.Respells body body') :
      Stmt.Respells (.block body) (.block body')
  | empty : Stmt.Respells .empty .empty
  | branch {t t' : Expr} {c c' : Stmt} {a a' : Option Stmt} (ht : Expr.Respells true t t') (hc : Stmt.Respells c c')
      (ha : Option.Rel Stmt.Respells a a') : Stmt.Respells (.branch t c a) (.branch t' c' a')
  | whileLoop {t t' : Expr} {b b' : Stmt} (ht : Expr.Respells true t t') (hb : Stmt.Respells b b') :
      Stmt.Respells (.whileLoop t b) (.whileLoop t' b')
  | doWhile {t t' : Expr} {b b' : Stmt} (hb : Stmt.Respells b b') (ht : Expr.Respells true t t') :
      Stmt.Respells (.doWhile b t) (.doWhile b' t')
  | forLoop {i i' : Option ForInit} {t t' u u' : Option Expr} {b b' : Stmt} (hi : Option.Rel ForInit.Respells i i')
      (ht : Option.Rel (Expr.Respells true) t t') (hu : Option.Rel (Expr.Respells true) u u')
      (hb : Stmt.Respells b b') : Stmt.Respells (.forLoop i t u b) (.forLoop i' t' u' b')
  | jump (kind : Jump) (label : Option String) : Stmt.Respells (.jump kind label) (.jump kind label)
  | ret {e e' : Option Expr} (he : Option.Rel (Expr.Respells true) e e') : Stmt.Respells (.ret e) (.ret e')
  | labeled (label : String) {b b' : Stmt} (hb : Stmt.Respells b b') :
      Stmt.Respells (.labeled label b) (.labeled label b')
  | unsupported (kind : String) : Stmt.Respells (.unsupported kind) (.unsupported kind)
  /-- `while (t) b` becomes `for (; t;) b`. -/
  | whileFor {t t' : Expr} {b b' : Stmt} (ht : Expr.Respells true t t') (hb : Stmt.Respells b b') :
      Stmt.Respells (.whileLoop t b) (.forLoop none (some t') none b')
  /-- `for (i;; u) b` becomes `for (i; true; u) b`. -/
  | testTrue {i i' : Option ForInit} {u u' : Option Expr} {b b' : Stmt} (hi : Option.Rel ForInit.Respells i i')
      (hu : Option.Rel (Expr.Respells true) u u') (hb : Stmt.Respells b b') :
      Stmt.Respells (.forLoop i none u b) (.forLoop i' (some (.literal (.bool true))) u' b')
  /-- `if (t) c` becomes `if (t) c else;`. -/
  | elseEmpty {t t' : Expr} {c c' : Stmt} (ht : Expr.Respells true t t') (hc : Stmt.Respells c c') :
      Stmt.Respells (.branch t c none) (.branch t' c' (some .empty))
  /-- `if (t) c` becomes `if (t) c else {}`. -/
  | elseBlock {t t' : Expr} {c c' : Stmt} (ht : Expr.Respells true t t') (hc : Stmt.Respells c c') :
      Stmt.Respells (.branch t c none) (.branch t' c' (some (.block [])))

end

/-- The script is respelled at any number of places. -/
def Program.Respells (p q : Program) : Prop := List.Forall₂ Stmt.Respells p.body q.body

/-! What a respelled expression is called. -/

namespace Expr.Respells

variable {evaluated : Bool} {e e' : Expr}

/-- A name is spelled in one way only. -/
theorem ident?_eq (h : Expr.Respells evaluated e e') : e'.ident? = e.ident? := by
  cases h <;> rfl

/-- Where an expression is not evaluated it keeps its kind, which is what it is refused under. -/
theorem kind_eq (h : Expr.Respells false e e') : e'.kind = e.kind := by
  cases h <;> rfl

end Expr.Respells

/-! Scopes. -/

theorem VarDecl.Respells.names_eq {d d' : VarDecl} (h : VarDecl.Respells d d') : d'.names = d.names := by
  cases h with
  | mk kind hds =>
      have htargets : ∀ {ds ds' : List Declarator}, List.Forall₂ Declarator.Respells ds ds' →
          ds'.filterMap (fun x => x.target.ident?) = ds.filterMap fun x => x.target.ident? := by
        intro ds ds' h
        induction h with
        | nil => rfl
        | cons hd _ ih =>
            cases hd with
            | mk htarget _ => rw [List.filterMap_cons, List.filterMap_cons, ih, htarget.ident?_eq]
      rw [VarDecl.names, VarDecl.names, htargets hds]

theorem ForInit.declarations_respells {i i' : Option ForInit} (h : Option.Rel ForInit.Respells i i') :
    ForInit.declarations i' = ForInit.declarations i := by
  cases h with
  | none => rfl
  | some h =>
      cases h with
      | var hd => exact congrArg (List.map Declaration.var) hd.names_eq
      | expr _ => rfl

mutual

/-- What is declared does not depend on spelling. -/
theorem Stmt.declarations_respells : (s : Stmt) → ∀ s', Stmt.Respells s s' → s'.declarations = s.declarations
  | .var _, _, h => by
    cases h with
    | var hd => rw [Stmt.declarations, Stmt.declarations, hd.names_eq]
  | .function _, _, h => by
    cases h with
    | function hf =>
        cases hf
        rw [Stmt.declarations, Stmt.declarations]
  | .block body, _, h => by
    cases h with
    | block hbody => rw [Stmt.declarations, Stmt.declarations, declarationsOf_respells body _ hbody]
  | .branch _ c a, _, h => by
    have hc := c.declarations_respells
    have ha := declarationsOfAlternate_respells a
    cases h with
    | branch _ h h' => rw [Stmt.declarations, Stmt.declarations, hc _ h, ha _ h']
    | elseEmpty _ h => simp only [Stmt.declarations, declarationsOfAlternate, hc _ h]
    | elseBlock _ h => simp only [Stmt.declarations, declarationsOfAlternate, declarationsOf, hc _ h]
  | .whileLoop _ b, _, h => by
    have hb := b.declarations_respells
    cases h with
    | whileLoop _ h => rw [Stmt.declarations, Stmt.declarations, hb _ h]
    | whileFor _ h =>
        rw [Stmt.declarations, Stmt.declarations, hb _ h]
        rfl
  | .doWhile b _, _, h => by
    cases h with
    | doWhile hb _ => rw [Stmt.declarations, Stmt.declarations, b.declarations_respells _ hb]
  | .forLoop _ _ _ b, _, h => by
    have hb := b.declarations_respells
    cases h with
    | forLoop hi _ _ h | testTrue hi _ h =>
        rw [Stmt.declarations, Stmt.declarations, ForInit.declarations_respells hi, hb _ h]
  | .labeled _ b, _, h => by
    cases h with
    | labeled _ hb => rw [Stmt.declarations, Stmt.declarations, b.declarations_respells _ hb]
  | .expr _, _, h | .empty, _, h | .jump _ _, _, h | .ret _, _, h | .unsupported _, _, h => by
    cases h
    simp only [Stmt.declarations]
termination_by structural s => s

theorem declarationsOfAlternate_respells : (a : Option Stmt) → ∀ a', Option.Rel Stmt.Respells a a' →
    declarationsOfAlternate a' = declarationsOfAlternate a
  | none, _, h => by
    cases h
    rfl
  | some s, _, h => by
    cases h with
    | some h => rw [declarationsOfAlternate, declarationsOfAlternate, s.declarations_respells _ h]
termination_by structural a => a

theorem declarationsOf_respells : (body : List Stmt) → ∀ body', List.Forall₂ Stmt.Respells body body' →
    declarationsOf body' = declarationsOf body
  | [], _, h => by
    cases h
    rfl
  | s :: ss, _, h => by
    cases h with
    | cons h hrest =>
        rw [declarationsOf, declarationsOf, s.declarations_respells _ h, declarationsOf_respells ss _ hrest]
termination_by structural body => body

end

theorem hoistedVars_respells {body body' : List Stmt} (h : List.Forall₂ Stmt.Respells body body') :
    hoistedVars body' = hoistedVars body := by
  rw [hoistedVars, hoistedVars, declarationsOf_respells body _ h]

theorem hoistedFunctions_respells {body body' : List Stmt} (h : List.Forall₂ Stmt.Respells body body') :
    hoistedFunctions body' = hoistedFunctions body := by
  rw [hoistedFunctions, hoistedFunctions, declarationsOf_respells body _ h]

/-- Parameters and declarations stay, so a function casts the same shadow. -/
theorem Shadow.ofFunction_respells {f f' : Function} (h : Function.Respells f f') :
    Shadow.ofFunction f' = Shadow.ofFunction f := by
  cases h with
  | mk name isGenerator isAsync hparams hbody =>
      have hidents : ∀ {es es' : List Expr}, List.Forall₂ (Expr.Respells false) es es' →
          es'.filterMap Expr.ident? = es.filterMap Expr.ident? := by
        intro es es' h
        induction h with
        | nil => rfl
        | cons he _ ih => rw [List.filterMap_cons, List.filterMap_cons, ih, he.ident?_eq]
      rw [ofFunction, ofFunction, hoistedVars_respells hbody, hoistedFunctions_respells hbody, hidents hparams]

mutual

/-- Respelling keeps every use of a name, and the order of the uses. -/
theorem Expr.uses_respells : (e : Expr) → ∀ evaluated e' shadows, Expr.Respells evaluated e e' →
    e'.uses shadows = e.uses shadows
  | .ident _, _, _, _, h | .literal _, _, _, _, h | .this, _, _, _, h | .unsupported _, _, _, _, h => by
    cases h
    rfl
  | .array es, _, _, shadows, h => by
    cases h with
    | array hes => rw [Expr.uses, Expr.uses, usesOfElements_respells es _ shadows hes]
  | .object ps, _, _, shadows, h => by
    cases h with
    | object hps => rw [Expr.uses, Expr.uses, usesOfProperties_respells ps _ shadows hps]
  | .function f, _, _, shadows, h => by
    cases h with
    | function hf => rw [Expr.uses, Expr.uses, f.uses_respells _ shadows hf]
  | .unary _ e, _, _, shadows, h => by
    cases h with
    | unary _ he => rw [Expr.uses, Expr.uses, e.uses_respells _ _ shadows he]
  | .update op _ e, _, _, shadows, h => by
    have hargument := e.uses_respells
    cases h with
    | update _ _ he =>
        have heq := hargument _ _ shadows he
        cases he <;> simp only [Expr.uses] at heq ⊢ <;> exact heq
    | stepName _ name => simp [Expr.uses, Expr.one, UpdateOp.binary?_compound]
    | stepMember _ ho hp =>
        have heq := hargument true _ shadows (.member ho hp)
        simp only [Expr.uses, Expr.one, List.append_nil] at heq ⊢
        exact heq
  | .binary _ left right, _, _, shadows, h => by
    cases h with
    | binary _ hl hr => rw [Expr.uses, Expr.uses, left.uses_respells _ _ shadows hl, right.uses_respells _ _ shadows hr]
  | .logical _ left right, _, _, shadows, h => by
    cases h with
    | logical _ hl hr =>
        rw [Expr.uses, Expr.uses, left.uses_respells _ _ shadows hl, right.uses_respells _ _ shadows hr]
  | .assign op left right, _, _, shadows, h => by
    cases h with
    | assign _ hl hr =>
        have hleft := left.uses_respells _ _ shadows hl
        have hright := right.uses_respells _ _ shadows hr
        cases hl <;> simp only [Expr.uses, hright] at hleft ⊢ <;> rw [hleft]
  | .conditional t c a, _, _, shadows, h => by
    cases h with
    | conditional ht hc ha =>
        rw [Expr.uses, Expr.uses, t.uses_respells _ _ shadows ht, c.uses_respells _ _ shadows hc,
          a.uses_respells _ _ shadows ha]
  | .sequence es, _, _, shadows, h => by
    cases h with
    | sequence hes => rw [Expr.uses, Expr.uses, usesOfExprs_respells es _ _ shadows hes]
  | .member o p _, _, _, shadows, h => by
    cases h with
    | member ho hp => rw [Expr.uses, Expr.uses, o.uses_respells _ _ shadows ho, p.uses_respells _ _ shadows hp]
  | .call f es, _, _, shadows, h => by
    cases h with
    | call hf hes => rw [Expr.uses, Expr.uses, f.uses_respells _ _ shadows hf, usesOfExprs_respells es _ _ shadows hes]
  | .new f es, _, _, shadows, h => by
    cases h with
    | new hf hes => rw [Expr.uses, Expr.uses, f.uses_respells _ _ shadows hf, usesOfExprs_respells es _ _ shadows hes]
termination_by structural e => e

theorem usesOfExprs_respells : (es : List Expr) → ∀ evaluated es' shadows,
    List.Forall₂ (Expr.Respells evaluated) es es' → usesOfExprs shadows es' = usesOfExprs shadows es
  | [], _, _, _, h => by
    cases h
    rfl
  | e :: es, _, _, shadows, h => by
    cases h with
    | cons he hes =>
        rw [usesOfExprs, usesOfExprs, e.uses_respells _ _ shadows he, usesOfExprs_respells es _ _ shadows hes]
termination_by structural es => es

theorem usesOfOptional_respells : (e : Option Expr) → ∀ e' shadows,
    Option.Rel (Expr.Respells true) e e' → usesOfOptional shadows e' = usesOfOptional shadows e
  | none, _, _, h => by
    cases h
    rfl
  | some e, _, shadows, h => by
    cases h with
    | some he => rw [usesOfOptional, usesOfOptional, e.uses_respells _ _ shadows he]
termination_by structural e => e

theorem usesOfElements_respells : (es : List (Option Expr)) → ∀ es' shadows,
    List.Forall₂ (Option.Rel (Expr.Respells true)) es es' → usesOfElements shadows es' = usesOfElements shadows es
  | [], _, _, h => by
    cases h
    rfl
  | none :: es, _, shadows, h => by
    cases h with
    | cons he hes =>
        cases he
        rw [usesOfElements, usesOfElements, usesOfElements_respells es _ shadows hes]
  | some e :: es, _, shadows, h => by
    cases h with
    | cons he hes =>
        cases he with
        | some he =>
            rw [usesOfElements, usesOfElements, e.uses_respells _ _ shadows he,
              usesOfElements_respells es _ shadows hes]
termination_by structural es => es

theorem usesOfProperties_respells : (ps : List Property) → ∀ ps' shadows,
    List.Forall₂ Property.Respells ps ps' → usesOfProperties shadows ps' = usesOfProperties shadows ps
  | [], _, _, h => by
    cases h
    rfl
  | ⟨key, value, _, _⟩ :: ps, _, shadows, h => by
    cases h with
    | cons hp hps =>
        cases hp with
        | mk _ hkey hvalue =>
            rw [usesOfProperties, usesOfProperties, key.uses_respells _ _ shadows hkey,
              value.uses_respells _ _ shadows hvalue, usesOfProperties_respells ps _ shadows hps]
termination_by structural ps => ps

/-- The uses inside are those under the same shadow. -/
theorem Function.uses_respells : (f : Function) → ∀ f' shadows, Function.Respells f f' →
    f'.uses shadows = f.uses shadows
  | ⟨_, params, body, _, _⟩, _, shadows, h => by
    have hshadow := Shadow.ofFunction_respells h
    cases h with
    | mk _ _ _ hparams hbody =>
        rw [Function.uses, Function.uses, hshadow, usesOfExprs_respells params _ _ _ hparams,
          usesOf_respells body _ _ hbody]
termination_by structural f => f

theorem usesOfDeclarators_respells : (ds : List Declarator) → ∀ ds' shadows,
    List.Forall₂ Declarator.Respells ds ds' → usesOfDeclarators shadows ds' = usesOfDeclarators shadows ds
  | [], _, _, h => by
    cases h
    rfl
  | ⟨target, init⟩ :: ds, _, shadows, h => by
    cases h with
    | cons hd hds =>
        cases hd with
        | mk htarget hinit =>
            rw [usesOfDeclarators, usesOfDeclarators, target.uses_respells _ _ shadows htarget,
              usesOfOptional_respells init _ shadows hinit, usesOfDeclarators_respells ds _ shadows hds]
termination_by structural ds => ds

theorem VarDecl.uses_respells : (d : VarDecl) → ∀ d' shadows, VarDecl.Respells d d' → d'.uses shadows = d.uses shadows
  | ⟨_, ds⟩, _, shadows, h => by
    cases h with
    | mk _ hds => rw [VarDecl.uses, VarDecl.uses, usesOfDeclarators_respells ds _ shadows hds]
termination_by structural d => d

theorem usesOfInit_respells : (i : Option ForInit) → ∀ i' shadows,
    Option.Rel ForInit.Respells i i' → usesOfInit shadows i' = usesOfInit shadows i
  | none, _, _, h => by
    cases h
    rfl
  | some (.var d), _, shadows, h => by
    cases h with
    | some h =>
        cases h with
        | var hd => rw [usesOfInit, usesOfInit, d.uses_respells _ shadows hd]
  | some (.expr e), _, shadows, h => by
    cases h with
    | some h =>
        cases h with
        | expr he => rw [usesOfInit, usesOfInit, e.uses_respells _ _ shadows he]
termination_by structural i => i

theorem Stmt.uses_respells : (s : Stmt) → ∀ s' shadows, Stmt.Respells s s' → s'.uses shadows = s.uses shadows
  | .var d, _, shadows, h => by
    cases h with
    | var hd => rw [Stmt.uses, Stmt.uses, d.uses_respells _ shadows hd]
  | .function f, _, shadows, h => by
    cases h with
    | function hf => rw [Stmt.uses, Stmt.uses, f.uses_respells _ shadows hf]
  | .expr e, _, shadows, h => by
    cases h with
    | expr he => rw [Stmt.uses, Stmt.uses, e.uses_respells _ _ shadows he]
  | .block body, _, shadows, h => by
    cases h with
    | block hbody => rw [Stmt.uses, Stmt.uses, usesOf_respells body _ shadows hbody]
  | .branch t c a, _, shadows, h => by
    have ht := t.uses_respells true
    have hc := c.uses_respells
    have ha := usesOfAlternate_respells a
    cases h with
    | branch h h' h'' => rw [Stmt.uses, Stmt.uses, ht _ shadows h, hc _ shadows h', ha _ shadows h'']
    | elseEmpty h h' => simp only [Stmt.uses, usesOfAlternate, ht _ shadows h, hc _ shadows h']
    | elseBlock h h' => simp only [Stmt.uses, usesOfAlternate, usesOf, ht _ shadows h, hc _ shadows h']
  | .whileLoop t b, _, shadows, h => by
    have ht := t.uses_respells true
    have hb := b.uses_respells
    cases h with
    | whileLoop h h' => rw [Stmt.uses, Stmt.uses, ht _ shadows h, hb _ shadows h']
    | whileFor h h' =>
        simp only [Stmt.uses, usesOfInit, usesOfOptional, ht _ shadows h, hb _ shadows h', List.nil_append,
          List.append_nil]
  | .doWhile b t, _, shadows, h => by
    cases h with
    | doWhile hb ht => rw [Stmt.uses, Stmt.uses, b.uses_respells _ shadows hb, t.uses_respells _ _ shadows ht]
  | .forLoop i t u b, _, shadows, h => by
    have hinit := usesOfInit_respells i
    have htest := usesOfOptional_respells t
    have hupdate := usesOfOptional_respells u
    have hbody := b.uses_respells
    cases h with
    | forLoop hi ht hu hb =>
        rw [Stmt.uses, Stmt.uses, hinit _ shadows hi, htest _ shadows ht, hupdate _ shadows hu, hbody _ shadows hb]
    | testTrue hi hu hb =>
        rw [Stmt.uses, Stmt.uses, hinit _ shadows hi, hupdate _ shadows hu, hbody _ shadows hb]
        rfl
  | .ret e, _, shadows, h => by
    cases h with
    | ret he => rw [Stmt.uses, Stmt.uses, usesOfOptional_respells e _ shadows he]
  | .labeled _ b, _, shadows, h => by
    cases h with
    | labeled _ hb => rw [Stmt.uses, Stmt.uses, b.uses_respells _ shadows hb]
  | .empty, _, _, h | .jump _ _, _, _, h | .unsupported _, _, _, h => by
    cases h
    rfl
termination_by structural s => s

theorem usesOfAlternate_respells : (a : Option Stmt) → ∀ a' shadows,
    Option.Rel Stmt.Respells a a' → usesOfAlternate shadows a' = usesOfAlternate shadows a
  | none, _, _, h => by
    cases h
    rfl
  | some s, _, shadows, h => by
    cases h with
    | some h => rw [usesOfAlternate, usesOfAlternate, s.uses_respells _ shadows h]
termination_by structural a => a

theorem usesOf_respells : (body : List Stmt) → ∀ body' shadows,
    List.Forall₂ Stmt.Respells body body' → usesOf shadows body' = usesOf shadows body
  | [], _, _, h => by
    cases h
    rfl
  | s :: ss, _, shadows, h => by
    cases h with
    | cons h hrest => rw [usesOf, usesOf, s.uses_respells _ shadows h, usesOf_respells ss _ shadows hrest]
termination_by structural body => body

end

/-- So variables get the same storage. -/
theorem Scope.ofBody_respells {body body' : List Stmt} (h : List.Forall₂ Stmt.Respells body body')
    (ownName : Option String) (params : List String) : ofBody ownName params body' = ofBody ownName params body := by
  have huses : escapingUses body' = escapingUses body := usesOf_respells body _ [] h
  rw [ofBody, ofBody, hoistedVars_respells h, hoistedFunctions_respells h, huses]

/-- A function has the same scope in every spelling, or the same parameter is refused. -/
theorem Scope.ofFunction_respells {params params' : List Expr} {body body' : List Stmt}
    (hparams : List.Forall₂ (Expr.Respells false) params params') (hbody : List.Forall₂ Stmt.Respells body body')
    (ownName : Option String) : ofFunction ownName params' body' = ofFunction ownName params body := by
  have hnames : params'.mapM paramName = params.mapM paramName := by
    induction hparams with
    | nil => rfl
    | cons hparam _ ih =>
        rw [List.mapM_cons, List.mapM_cons, ih, paramName, paramName, hparam.ident?_eq, hparam.kind_eq]
  simp only [ofFunction, hnames, ofBody_respells hbody]

end ScriptSsa
