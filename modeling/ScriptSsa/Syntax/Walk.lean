import ScriptSsa.Syntax.Basic

/-!
Walks over a syntax tree in source order.

A walk is the list of its events, one on entry to each statement, expression, function, declaration and
identifier. `descend` decides at each event whether the walk goes below that node. Names that are not
variables give no identifier event: labels, function names, and property names and keys that are not
computed.
-/

namespace ScriptSsa

inductive Event where
  | stmt (kind : String)
  | expr (kind : String)
  | function (name : Option String)
  | declaration (kind : VarKind)
  | ident (name : String)
deriving DecidableEq, Inhabited, Repr

namespace Event

/-- An event, and the events below it if the walk descends. -/
def enter (descend : Event → Bool) (event : Event) (below : List Event) : List Event :=
  event :: if descend event then below else []

def ident? : Event → Option String
  | ident name => some name
  | _ => none

end Event

mutual

def Expr.walk (descend : Event → Bool) : Expr → List Event
  | .ident name => Event.enter descend (.expr (Expr.kind (.ident name))) [.ident name]
  | .literal l => Event.enter descend (.expr (Expr.kind (.literal l))) []
  | .this => Event.enter descend (.expr Expr.this.kind) []
  | .array es => Event.enter descend (.expr (Expr.kind (.array es))) (walkElements descend es)
  | .object ps => Event.enter descend (.expr (Expr.kind (.object ps))) (walkProperties descend ps)
  | .function f => Event.enter descend (.expr (Expr.kind (.function f))) (f.walk descend)
  | .unary op e => Event.enter descend (.expr (Expr.kind (.unary op e))) (e.walk descend)
  | .update op p e => Event.enter descend (.expr (Expr.kind (.update op p e))) (e.walk descend)
  | .binary op l r =>
    Event.enter descend (.expr (Expr.kind (.binary op l r))) (l.walk descend ++ r.walk descend)
  | .logical op l r =>
    Event.enter descend (.expr (Expr.kind (.logical op l r))) (l.walk descend ++ r.walk descend)
  | .assign op l r =>
    Event.enter descend (.expr (Expr.kind (.assign op l r))) (l.walk descend ++ r.walk descend)
  | .conditional t c a =>
    Event.enter descend (.expr (Expr.kind (.conditional t c a)))
      (t.walk descend ++ c.walk descend ++ a.walk descend)
  | .sequence es => Event.enter descend (.expr (Expr.kind (.sequence es))) (walkExprs descend es)
  | .member o p computed =>
    Event.enter descend (.expr (Expr.kind (.member o p computed)))
      (o.walk descend ++ if computed then p.walk descend else [])
  | .call f es =>
    Event.enter descend (.expr (Expr.kind (.call f es))) (f.walk descend ++ walkExprs descend es)
  | .new f es =>
    Event.enter descend (.expr (Expr.kind (.new f es))) (f.walk descend ++ walkExprs descend es)
  | .unsupported kind => Event.enter descend (.expr kind) []

def walkExprs (descend : Event → Bool) : List Expr → List Event
  | [] => []
  | e :: es => e.walk descend ++ walkExprs descend es

def walkOptional (descend : Event → Bool) : Option Expr → List Event
  | none => []
  | some e => e.walk descend

def walkElements (descend : Event → Bool) : List (Option Expr) → List Event
  | [] => []
  | none :: es => walkElements descend es
  | some e :: es => e.walk descend ++ walkElements descend es

def walkProperties (descend : Event → Bool) : List Property → List Event
  | [] => []
  | ⟨key, value, _, computed⟩ :: ps =>
    (if computed then key.walk descend else []) ++ value.walk descend ++ walkProperties descend ps

def Function.walk (descend : Event → Bool) : Function → List Event
  | ⟨name, params, body, _, _⟩ =>
    Event.enter descend (.function name) (walkExprs descend params ++ walkStmts descend body)

def walkDeclarators (descend : Event → Bool) : List Declarator → List Event
  | [] => []
  | ⟨target, init⟩ :: ds =>
    target.walk descend ++ walkOptional descend init ++ walkDeclarators descend ds

def VarDecl.walk (descend : Event → Bool) : VarDecl → List Event
  | ⟨kind, ds⟩ => Event.enter descend (.declaration kind) (walkDeclarators descend ds)

def walkInit (descend : Event → Bool) : Option ForInit → List Event
  | none => []
  | some (.var d) => d.walk descend
  | some (.expr e) => e.walk descend

def Stmt.walk (descend : Event → Bool) : Stmt → List Event
  | .var d => Event.enter descend (.stmt (Stmt.kind (.var d))) (d.walk descend)
  | .function f => Event.enter descend (.stmt (Stmt.kind (.function f))) (f.walk descend)
  | .expr e => Event.enter descend (.stmt (Stmt.kind (.expr e))) (e.walk descend)
  | .block body => Event.enter descend (.stmt (Stmt.kind (.block body))) (walkStmts descend body)
  | .empty => Event.enter descend (.stmt Stmt.empty.kind) []
  | .branch t c a =>
    Event.enter descend (.stmt (Stmt.kind (.branch t c a)))
      (t.walk descend ++ c.walk descend ++ walkAlternate descend a)
  | .whileLoop t b =>
    Event.enter descend (.stmt (Stmt.kind (.whileLoop t b))) (t.walk descend ++ b.walk descend)
  | .doWhile b t =>
    Event.enter descend (.stmt (Stmt.kind (.doWhile b t))) (b.walk descend ++ t.walk descend)
  | .forLoop i t u b =>
    Event.enter descend (.stmt (Stmt.kind (.forLoop i t u b)))
      (walkInit descend i ++ walkOptional descend t ++ walkOptional descend u ++ b.walk descend)
  | .jump j label => Event.enter descend (.stmt (Stmt.kind (.jump j label))) []
  | .ret e => Event.enter descend (.stmt (Stmt.kind (.ret e))) (walkOptional descend e)
  | .labeled l b => Event.enter descend (.stmt (Stmt.kind (.labeled l b))) (b.walk descend)
  | .unsupported kind => Event.enter descend (.stmt kind) []

def walkAlternate (descend : Event → Bool) : Option Stmt → List Event
  | none => []
  | some s => s.walk descend

def walkStmts (descend : Event → Bool) : List Stmt → List Event
  | [] => []
  | s :: ss => s.walk descend ++ walkStmts descend ss

end

/-- The events of a walk over a script. -/
def Program.walk (descend : Event → Bool) (p : Program) : List Event := walkStmts descend p.body

/-- The identifiers that a full walk meets. -/
def Program.identifiers (p : Program) : List String :=
  (p.walk fun _ => true).filterMap Event.ident?

end ScriptSsa
