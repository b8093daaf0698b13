import ScriptSsa.Instr

/-!
The supply of ids that all graphs of a construction share. Ids are drawn in increasing order, and none
is drawn twice. An instruction id is also drawn for every constant, count, block reference and read of a
local variable, which never become instructions; so the ids in a listing have gaps.
-/

namespace ScriptSsa

structure Supply where
  /-- How many instruction ids have been drawn. -/
  instrs : Nat
  /-- How many block ids have been drawn. -/
  blocks : Nat
deriving DecidableEq, Inhabited, Repr

namespace Supply

/-- A supply from which nothing has been drawn. -/
def fresh : Supply := ⟨0, 0⟩

def nextInstr (supply : Supply) : InstrId := ⟨supply.instrs⟩

def nextBlock (supply : Supply) : BlockId := ⟨supply.blocks⟩

/-- The supply after an instruction id is drawn. -/
def dropInstr (supply : Supply) : Supply := { supply with instrs := supply.instrs + 1 }

/-- The supply after a block id is drawn. -/
def dropBlock (supply : Supply) : Supply := { supply with blocks := supply.blocks + 1 }

end Supply

end ScriptSsa
