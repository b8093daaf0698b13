import ScriptSsa.Lowering.Basic
import ScriptSsa.Proofs.BuilderStep
import ScriptSsa.Proofs.Semantics

/-!
Where the loops and jumps of a function are.

A site is a loop or a jump of the source together with the blocks that lowering uses for it. `Stmt.sites` walks
through a statement as lowering does, from builder to builder, and notes them: one site for each loop and for
each jump, in the order of lowering. The jumps to a loop are those in its body that no loop in between selects.
-/

namespace ScriptSsa

/-- The blocks of a loop. -/
structure LoopBlocks where
  /-- The block that the loop is entered from. -/
  preheader : BlockId
  header : BlockId
  /-- Where the update code starts. -/
  continueEntry : BlockId
  /-- Where the update code ends. -/
  updateEnd : BlockId
  /-- The block that the test leaves for. -/
  breakEntry : BlockId
  /-- Where control goes on behind the loop. -/
  after : BlockId
deriving DecidableEq, Inhabited, Repr

/-- A jump, with its block and its merge block, or a loop. -/
inductive Site where
  | jump (kind : Jump) (label : Option String) (source join : BlockId)
  | loop (labels : List String) (blocks : LoopBlocks) (body : List Site)

structure LoopSite where
  labels : List String
  blocks : LoopBlocks
  body : List Site

mutual

/-- The jumps of a kind with a wanted label, each with its block and its merge block. A jump that a loop selects
stays inside it. -/
def jumpsOf (kind : Jump) (wanted : Option String → Bool) : List Site → List (BlockId × BlockId)
  | [] => []
  | site :: rest => site.jumps kind wanted ++ jumpsOf kind wanted rest

def Site.jumps (kind : Jump) (wanted : Option String → Bool) : Site → List (BlockId × BlockId)
  | .jump kind' label source join => if kind' = kind ∧ wanted label then [(source, join)] else []
  | .loop labels _ body => jumpsOf kind (fun label => wanted label && !selects label labels) body

end

mutual

/-- All loops, those inside others included. -/
def loopsOf : List Site → List LoopSite
  | [] => []
  | site :: rest => site.loops ++ loopsOf rest

def Site.loops : Site → List LoopSite
  | .jump _ _ _ _ => []
  | .loop labels blocks body => ⟨labels, blocks, body⟩ :: loopsOf body

end

/-- The jumps that select the loop, in the order of lowering. -/
def LoopSite.jumps (l : LoopSite) (kind : Jump) : List (BlockId × BlockId) :=
  jumpsOf kind (fun label => selects label l.labels) l.body

/-- Code after code: the jumps follow each other. -/
theorem jumpsOf_append {kind : Jump} {wanted : Option String → Bool} (sites sites' : List Site) :
    jumpsOf kind wanted (sites ++ sites') = jumpsOf kind wanted sites ++ jumpsOf kind wanted sites' := by
  induction sites with
  | nil => rfl
  | cons site rest ih => rw [List.cons_append, jumpsOf, ih, jumpsOf, List.append_assoc]

theorem loopsOf_append (sites sites' : List Site) : loopsOf (sites ++ sites') = loopsOf sites ++ loopsOf sites' := by
  induction sites with
  | nil => rfl
  | cons site rest ih => rw [List.cons_append, loopsOf, ih, loopsOf, List.append_assoc]

namespace Build

variable {α : Type}

/-- The builder that a step leaves behind. -/
def after (m : Build α) (s : Builder) : Builder :=
  match m s with
  | .ok _ t => t
  | .error _ t => t

/-- The result of a step that does not fail. -/
def value [Inhabited α] (m : Build α) (s : Builder) : α :=
  match m s with
  | .ok a _ => a
  | .error _ _ => default

theorem after_eq {m : Build α} {s t : Builder} {a : α} (h : m s = .ok a t) : m.after s = t := by
  rw [after, h]

theorem value_eq [Inhabited α] {m : Build α} {s t : Builder} {a : α} (h : m s = .ok a t) : m.value s = a := by
  rw [value, h]

/-- The sites in the two arms of a branch, which are lowered one after the other. -/
def branchSites (test : Build Operand) (consequent : Build Unit) (inConsequent inAlternate : Builder → List Site)
    (s : Builder) : List Site :=
  let tested := test.after s
  let opened := (tested.split (test.value s)).enter (tested.later 0)
  inConsequent opened ++ inAlternate (((consequent.after opened).fallTo (tested.later 2)).enter (tested.later 1))

/-- The site of a loop whose parts are lowered by the given steps. -/
def loopSite (labels : List String) (testFirst : Bool) (test : Build Operand) (update body : Build Unit)
    (inBody : Builder → List Site) (s : Builder) : Site :=
  let tested := test.after (s.openLoop testFirst)
  let opened := tested.openBody (test.value (s.openLoop testFirst)) (s.later 4) (s.later 1)
    ⟨labels, s.later 0, s.later 0, [], s.later 1, []⟩
  let done := body.after opened
  let updated := update.after (done.openUpdate (done.loops.headD default) done.loops.tail)
  .loop labels ⟨s.current, s.later 2, s.later 0, updated.current, s.later 1, updated.later 0⟩ (inBody opened)

end Build

open Build

mutual

/-- The sites of statements that are lowered from a builder on. -/
def sitesOf (names : Names) : List Stmt → Builder → List Site
  | [], _ => []
  | stmt :: rest, s => stmt.sites names s ++ sitesOf names rest ((lowerStmt names stmt).after s)

def Stmt.sites (names : Names) : Stmt → Builder → List Site
  | .block body, s => sitesOf names body s.reopen
  | .branch test consequent alternate, s =>
    branchSites (lowerExpr names test) (lowerStmt names consequent) (consequent.sites names)
      (sitesOfAlternate names alternate) s.reopen
  | .whileLoop test body, s =>
    [loopSite [] true (lowerExpr names test) (return ()) (lowerStmt names body) (body.sites names) s.reopen]
  | .doWhile body test, s =>
    [loopSite [] false (lowerExpr names test) (return ()) (lowerStmt names body) (body.sites names) s.reopen]
  | .forLoop init test update body, s =>
    [loopSite [] true (lowerTest names test) (lowerUpdate names update) (lowerStmt names body) (body.sites names)
      ((lowerInit names init).after s.reopen)]
  | .labeled label body, s => body.sitesLabeled names [label] s.reopen
  | .jump kind label, s => [.jump kind label s.reopen.current (s.reopen.later 0)]
  | .function _, _ | .empty, _ | .var _, _ | .expr _, _ | .ret _, _ | .unsupported _, _ => []

def Stmt.sitesLabeled (names : Names) : Stmt → List String → Builder → List Site
  | .labeled label body, labels, s => body.sitesLabeled names (labels ++ [label]) s
  | .whileLoop test body, labels, s =>
    [loopSite labels true (lowerExpr names test) (return ()) (lowerStmt names body) (body.sites names) s]
  | .doWhile body test, labels, s =>
    [loopSite labels false (lowerExpr names test) (return ()) (lowerStmt names body) (body.sites names) s]
  | .forLoop init test update body, labels, s =>
    [loopSite labels true (lowerTest names test) (lowerUpdate names update) (lowerStmt names body) (body.sites names)
      ((lowerInit names init).after s)]
  | .function _, _, _ | .empty, _, _ | .var _, _, _ | .expr _, _, _ | .ret _, _, _ | .unsupported _, _, _
  | .block _, _, _ | .branch _ _ _, _, _ | .jump _ _, _, _ => []

def sitesOfAlternate (names : Names) : Option Stmt → Builder → List Site
  | none, _ => []
  | some stmt, s => stmt.sites names s

end

/-! The sites of a body are its jumps and loops, whatever builder it is lowered from. -/

/-- A jump or a loop as it stands in the source. -/
inductive Outline where
  | jump (kind : Jump) (label : Option String)
  | loop (labels : List String) (body : List Outline)

mutual

def outlineOf : List Stmt → List Outline
  | [] => []
  | stmt :: rest => stmt.outline ++ outlineOf rest

/-- The jumps and loops of a statement, in their order. -/
def Stmt.outline : Stmt → List Outline
  | .block body => outlineOf body
  | .branch _ consequent alternate => consequent.outline ++ outlineOfAlternate alternate
  | .whileLoop _ body | .doWhile body _ | .forLoop _ _ _ body => [.loop [] body.outline]
  | .labeled label body => body.outlineLabeled [label]
  | .jump kind label => [.jump kind label]
  | .function _ | .empty | .var _ | .expr _ | .ret _ | .unsupported _ => []

/-- Labels stand before loops only. -/
def Stmt.outlineLabeled : Stmt → List String → List Outline
  | .labeled label body, labels => body.outlineLabeled (labels ++ [label])
  | .whileLoop _ body, labels | .doWhile body _, labels | .forLoop _ _ _ body, labels => [.loop labels body.outline]
  | .function _, _ | .empty, _ | .var _, _ | .expr _, _ | .ret _, _ | .unsupported _, _ | .block _, _
  | .branch _ _ _, _ | .jump _ _, _ => []

def outlineOfAlternate : Option Stmt → List Outline
  | none => []
  | some stmt => stmt.outline

end

mutual

/-- The sites without their blocks. -/
def outlinesOf : List Site → List Outline
  | [] => []
  | site :: rest => site.outline :: outlinesOf rest

def Site.outline : Site → Outline
  | .jump kind label _ _ => .jump kind label
  | .loop labels _ body => .loop labels (outlinesOf body)

end

theorem outlinesOf_append (sites sites' : List Site) :
    outlinesOf (sites ++ sites') = outlinesOf sites ++ outlinesOf sites' := by
  induction sites with
  | nil => rfl
  | cons site rest ih => rw [List.cons_append, outlinesOf, ih, outlinesOf, List.cons_append]

section Outlines

variable {names : Names}

/-- Which jumps and loops there are does not depend on the test, only the blocks do. -/
theorem outlinesOf_branchSites {test : Build Operand} {consequent : Build Unit} {f f' : Builder → List Site}
    {o o' : List Outline} (h : ∀ s, outlinesOf (f s) = o) (h' : ∀ s, outlinesOf (f' s) = o') (s : Builder) :
    outlinesOf (branchSites test consequent f f' s) = o ++ o' := by
  rw [branchSites, outlinesOf_append, h, h']

/-- The labels of a loop are part of its outline, the blocks are not. -/
theorem outlinesOf_loopSite {labels : List String} {testFirst : Bool} {test : Build Operand} {update body : Build Unit}
    {f : Builder → List Site} {o : List Outline} (h : ∀ s, outlinesOf (f s) = o) (s : Builder) :
    outlinesOf [loopSite labels testFirst test update body f s] = [.loop labels o] := by
  rw [outlinesOf, loopSite, Site.outline, h, outlinesOf]

mutual

/-- Each jump and each loop of a body has a site, in the order of the source. -/
theorem outlinesOf_sitesOf : (ss : List Stmt) → ∀ s, outlinesOf (sitesOf names ss s) = outlineOf ss
  | [], _ => by rw [sitesOf, outlineOf, outlinesOf]
  | stmt :: rest, s => by
    rw [sitesOf, outlineOf, outlinesOf_append, outlinesOf_sites stmt, outlinesOf_sitesOf rest]

theorem outlinesOf_sites : (stmt : Stmt) → ∀ s, outlinesOf (stmt.sites names s) = stmt.outline
  | .block body, s => by
    rw [Stmt.sites, Stmt.outline, outlinesOf_sitesOf body]
  | .branch _ consequent alternate, s => by
    rw [Stmt.sites, Stmt.outline,
      outlinesOf_branchSites (outlinesOf_sites consequent) (outlinesOf_sitesOfAlternate alternate)]
  | .whileLoop _ body, s | .doWhile body _, s | .forLoop _ _ _ body, s => by
    simp only [Stmt.sites, Stmt.outline, outlinesOf_loopSite (outlinesOf_sites body)]
  | .labeled label body, s => by
    rw [Stmt.sites, Stmt.outline, outlinesOf_sitesLabeled body]
  | .jump _ _, s | .function _, s | .empty, s | .var _, s | .expr _, s | .ret _, s | .unsupported _, s => by
    simp only [Stmt.sites, Stmt.outline, outlinesOf, Site.outline]

theorem outlinesOf_sitesLabeled : (stmt : Stmt) → ∀ labels s,
    outlinesOf (stmt.sitesLabeled names labels s) = stmt.outlineLabeled labels
  | .labeled label body, labels, s => by
    rw [Stmt.sitesLabeled, Stmt.outlineLabeled, outlinesOf_sitesLabeled body]
  | .whileLoop _ body, labels, s | .doWhile body _, labels, s | .forLoop _ _ _ body, labels, s => by
    simp only [Stmt.sitesLabeled, Stmt.outlineLabeled, outlinesOf_loopSite (outlinesOf_sites body)]
  | .function _, _, _ | .empty, _, _ | .var _, _, _ | .expr _, _, _ | .ret _, _, _ | .unsupported _, _, _
  | .block _, _, _ | .branch _ _ _, _, _ | .jump _ _, _, _ => by
    simp only [Stmt.sitesLabeled, Stmt.outlineLabeled, outlinesOf]

theorem outlinesOf_sitesOfAlternate : (alternate : Option Stmt) → ∀ s,
    outlinesOf (sitesOfAlternate names alternate s) = outlineOfAlternate alternate
  | none, s => by rw [sitesOfAlternate, outlineOfAlternate, outlinesOf]
  | some stmt, s => by rw [sitesOfAlternate, outlineOfAlternate, outlinesOf_sites stmt]

end

end Outlines

/-- What is known of an open loop: its labels, and the jumps to it so far. -/
structure Chart where
  labels : List String
  exits : List (BlockId × BlockId)
  nexts : List (BlockId × BlockId)

namespace Chart

/-- The chart with one more jump. -/
def extend (kind : Jump) (c : Chart) (jump : BlockId × BlockId) : Chart :=
  match kind with
  | .exit => { c with exits := c.exits ++ [jump] }
  | .next => { c with nexts := c.nexts ++ [jump] }

/-- The chart with the wanted jumps of these sites. -/
def note (sites : List Site) (wanted : Option String → Bool) (c : Chart) : Chart :=
  ⟨c.labels, c.exits ++ jumpsOf .exit wanted sites, c.nexts ++ jumpsOf .next wanted sites⟩

variable {c : Chart} {kind : Jump} {label : Option String} {source join : BlockId} {wanted : Option String → Bool}

theorem note_jump (h : wanted label = true) :
    c.note [.jump kind label source join] wanted = c.extend kind (source, join) := by
  cases kind <;> simp [note, extend, jumpsOf, Site.jumps, h]

/-- A jump that another loop selects is not noted here. -/
theorem note_jump_of_not_wanted (h : wanted label = false) : c.note [.jump kind label source join] wanted = c := by
  simp [note, jumpsOf, Site.jumps, h]

end Chart

/-- The charts of the open loops, from the innermost one outwards, after these sites. Jumps with a label that
does not pass are for loops further inside. -/
def record (sites : List Site) : (Option String → Bool) → List Chart → List Chart
  | _, [] => []
  | passes, c :: outer =>
    c.note sites (fun label => passes label && selects label c.labels) ::
      record sites (fun label => passes label && !selects label c.labels) outer

theorem record_nil (passes : Option String → Bool) (charts : List Chart) : record [] passes charts = charts := by
  induction charts generalizing passes with
  | nil => rfl
  | cons c outer ih => simp only [record, Chart.note, jumpsOf, List.append_nil, ih]

/-- Sites are recorded one after another, so a body may be cut anywhere. -/
theorem record_append (sites sites' : List Site) (passes : Option String → Bool) (charts : List Chart) :
    record (sites ++ sites') passes charts = record sites' passes (record sites passes charts) := by
  induction charts generalizing passes with
  | nil => rfl
  | cons c outer ih => simp only [record, Chart.note, jumpsOf_append, List.append_assoc, ih]

/-- A loop keeps to itself the jumps that it selects. -/
theorem record_loop {labels : List String} {blocks : LoopBlocks} {body : List Site} (passes : Option String → Bool)
    (charts : List Chart) : record [.loop labels blocks body] passes charts =
      record body (fun label => passes label && !selects label labels) charts := by
  induction charts generalizing passes with
  | nil => rfl
  | cons c outer ih =>
      have hwanted : (fun label => (passes label && selects label c.labels) && !selects label labels) =
          fun label => (passes label && !selects label labels) && selects label c.labels := by
        funext label
        exact Bool.and_right_comm _ _ _
      have hpasses : (fun label => (passes label && !selects label c.labels) && !selects label labels) =
          fun label => (passes label && !selects label labels) && !selects label c.labels := by
        funext label
        exact Bool.and_right_comm _ _ _
      simp only [record, Chart.note, jumpsOf, Site.jumps, List.append_nil, hwanted, ih, hpasses]

theorem record_jump_of_not_passes {kind : Jump} {label : Option String} {source join : BlockId}
    {passes : Option String → Bool} (h : passes label = false) (charts : List Chart) :
    record [.jump kind label source join] passes charts = charts := by
  induction charts generalizing passes with
  | nil => rfl
  | cons c outer ih =>
      rw [record, Chart.note_jump_of_not_wanted (by rw [h, Bool.false_and]), ih (by rw [h, Bool.false_and])]

end ScriptSsa
