import ScriptSsa.Lowering.Builder
import ScriptSsa.Syntax.Operator

/-!
The block patterns of branching, merging and looping code, for any code in their parts.
-/

namespace ScriptSsa.Build

/-- `if`: two arms that meet in a merge block. -/
def branch (test : Build Operand) (consequent alternate : Build Unit) : Build Unit := do
  perform .branch [← test]
  let onTrue ← newBlock
  let onFalse ← newBlock
  let join ← newBlock
  linkCurrent [onTrue, onFalse]
  switchTo onTrue
  consequent
  fallThrough join
  switchTo onFalse
  alternate
  fallThrough join
  switchTo join

/-- An arm of a merge: its value flows into the phi. -/
def arm (phi : InstrId) (join block : BlockId) (value : Build Operand) : Build Unit := do
  switchTo block
  contribute phi (← value)
  linkCurrent [join]

/-- Branches on a condition into two arms and merges their values. The first arm to be lowered is the one
taken on true, or on false if `trueFirst` does not hold. -/
def merge (condition : Operand) (trueFirst : Bool) (first second : Build Operand) :
    Build Operand := do
  let phi ← freshInstr
  perform .branch [condition]
  let onTrue ← newBlock
  let onFalse ← newBlock
  let join ← newBlock
  openPhi phi join
  linkCurrent [onTrue, onFalse]
  arm phi join (if trueFirst then onTrue else onFalse) first
  arm phi join (if trueFirst then onFalse else onTrue) second
  enterJoin join phi
  return .instr phi

/-- `a || b` and `a && b`: the arm that skips the right operand comes first. -/
def logical (op : LogicalOp) (left right : Build Operand) : Build Operand := do
  let left ← left
  merge left (op = .or) (return left) right

def conditional (test consequent alternate : Build Operand) : Build Operand := do
  merge (← test) true consequent alternate

/-- Closes a loop whose body is done: the chain of continues leads back to the header. -/
def closeContinues (loop : Loop) (header : BlockId) : Build Unit :=
  match loop.continues with
  | [] => linkCurrent [header]
  | first :: _ => do
    linkCurrent [first]
    link loop.continueTarget [header]

/-- A loop. The header leads to the test, or straight to the body if `testFirst` does not hold. -/
def loop (labels : List String) (testFirst : Bool) (test : Build Operand) (update body : Build Unit) :
    Build Unit := do
  let continueEntry ← newBlock
  let breakEntry ← newBlock
  let header ← newBlock
  let testBlock ← newBlock
  let bodyBlock ← newBlock
  linkCurrent [header]
  link header [if testFirst then testBlock else bodyBlock]
  switchTo testBlock
  perform .branch [← test]
  linkCurrent [bodyBlock, breakEntry]
  pushLoop ⟨labels, continueEntry, continueEntry, [], breakEntry, []⟩
  switchTo bodyBlock
  body
  let loop ← popLoop
  fallThrough loop.continueEntry
  switchTo loop.continueEntry
  update
  closeContinues loop header
  let after ← newBlock
  link loop.breakTarget [after]
  switchTo after

/-- Adds a merge block to the chain of breaks or of continues. The first merge block of the continues must
find the chain still at its entry. It is linked when the loop is closed, because the update code still has
to go before it. -/
def extendChain (jump : Jump) (loop : Loop) (join : BlockId) : Build Loop := do
  match jump with
  | .exit =>
    link loop.breakTarget [join]
    return { loop with breaks := loop.breaks ++ [join] }
  | .next =>
    if loop.continues.isEmpty then
      if loop.continueTarget = loop.continueEntry then
        return { loop with continueTarget := join, continues := [join] }
      else fail (.fault (.displacedContinue loop.continueTarget))
    else
      link loop.continueTarget [join]
      return { loop with continueTarget := join, continues := loop.continues ++ [join] }

/-- `break` and `continue`: a jump to a new merge block of the innermost loop that the label selects. -/
def jump (jump : Jump) (label : Option String) : Build Unit := do
  let loops := (← get).loops
  match loops.dropWhile fun loop => !loop.accepts label with
  | [] => fail (.unresolvedJump jump label)
  | loop :: outer =>
    let join ← newBlock
    linkCurrent [join]
    let loop ← extendChain jump loop join
    setLoops ((loops.takeWhile fun loop => !loop.accepts label) ++ loop :: outer)

end ScriptSsa.Build
