import ScriptSsa.Instr

/-!
Why a construction fails.

`unsupported` and `unresolvedJump` are faults of the program, `unresolvedPhi` one of the phi record. A
`Fault` is none of these: it is a broken promise of the construction itself, and each step that relies on
such a promise checks it, so that "no run ends in a fault" says that all of them are kept.
-/

namespace ScriptSsa

/-- The two statements that leave a loop's body early. -/
inductive Jump where
  | exit
  | next
deriving DecidableEq, Inhabited, Repr

namespace Jump

def keyword : Jump → String
  | exit => "break"
  | next => "continue"

end Jump

/-- A promise of the construction that did not hold. -/
inductive Fault where
  /-- The block is not one of the graph under construction. -/
  | foreignBlock (block : BlockId)
  /-- The block already has successors. -/
  | linkedTwice (block : BlockId)
  /-- The merge block holds instructions before its phi is placed. -/
  | occupiedJoin (block : BlockId)
  /-- The chain of a loop's continues does not end where it starts when its first merge block comes. -/
  | displacedContinue (block : BlockId)
  /-- The variable of an enclosing function has no context slot. -/
  | unslotted (name : String)
  /-- The loop whose body ends is not on the stack of loops. -/
  | missingLoop
deriving DecidableEq, Inhabited, Repr

inductive BuildError where
  /-- Syntax outside the lowered subset. -/
  | unsupported (what : String)
  /-- A jump with no matching loop around it. -/
  | unresolvedJump (jump : Jump) (label : Option String)
  /-- A phi that nothing flows into. -/
  | unresolvedPhi (phi : InstrId)
  | fault (fault : Fault)
deriving DecidableEq, Inhabited, Repr

def Fault.message : Fault → String
  | foreignBlock block => block.text ++ " belongs to another function"
  | linkedTwice block => block.text ++ " linked twice"
  | occupiedJoin block => block.text ++ " is not empty"
  | displacedContinue block => block.text ++ " is not the entry of the continues"
  | unslotted name => "`" ++ name ++ "` used across functions without a context slot"
  | missingLoop => "no loop to leave"

def BuildError.message : BuildError → String
  | unsupported what => "unsupported syntax: " ++ what
  | unresolvedJump jump label =>
    "`" ++ jump.keyword ++ "` outside of a matching loop" ++
      match label with
      | some l => " labeled `" ++ l ++ "`"
      | none => ""
  | unresolvedPhi phi => "phi " ++ phi.text ++ " has no contributions"
  | fault f => f.message

end ScriptSsa
