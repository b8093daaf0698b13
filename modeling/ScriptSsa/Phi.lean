import ScriptSsa.BuildError

/-!
Phis: where several values meet in a merge block.

A recorder collects, while a function is lowered, the blocks that flow into each phi and the values they
bring. Opening a phi again forgets what was collected for it and keeps its position. A finished recorder
is a table: one entry for each opened phi, in the order of first opening.
-/

namespace ScriptSsa.Phi

/-- One value that flows into a phi, and the block it comes from. -/
structure Input where
  source : BlockId
  value : Operand
deriving DecidableEq, Inhabited, Repr

structure Entry where
  /-- The merge block, whose first instruction is the phi. -/
  block : BlockId
  inputs : List Input
deriving DecidableEq, Inhabited, Repr

/-- Entries by phi, in insertion order. -/
abbrev Entries := List (InstrId × Entry)

namespace Entries

/-- Replaces the entry of a phi in place, or appends a new one. -/
def insert (phi : InstrId) (entry : Entry) : Entries → Entries
  | [] => [(phi, entry)]
  | (key, old) :: rest =>
    if key = phi then (key, entry) :: rest else (key, old) :: insert phi entry rest

def find? (phi : InstrId) (entries : Entries) : Option Entry :=
  (List.find? (fun e => e.1 = phi) entries).map Prod.snd

theorem find?_insert_self (phi : InstrId) (entry : Entry) (entries : Entries) :
    (entries.insert phi entry).find? phi = some entry := by
  induction entries with
  | nil => simp [insert, find?]
  | cons e rest ih =>
      rw [insert]
      split
      · next h => simp [find?, h]
      · next h => simpa [find?, h] using ih

theorem find?_insert_of_ne {phi key : InstrId} (h : key ≠ phi) (entry : Entry) (entries : Entries) :
    (entries.insert phi entry).find? key = entries.find? key := by
  induction entries with
  | nil => simp [insert, find?, h.symm]
  | cons e rest ih =>
      rw [insert]
      split
      · next he => simp [find?, he, h.symm]
      · by_cases hkey : e.1 = key
        · simp [find?, hkey]
        · simpa [find?, hkey] using ih

end Entries

/-- The finished phis of a function. -/
structure Table where
  entries : Entries
deriving DecidableEq, Inhabited, Repr

namespace Table

def empty : Table := ⟨[]⟩

/-- Later entries of a phi replace earlier ones. -/
def ofList (entries : List (InstrId × Entry)) : Table :=
  ⟨entries.foldl (fun table e => table.insert e.1 e.2) []⟩

def get? (table : Table) (phi : InstrId) : Option Entry := table.entries.find? phi

def size (table : Table) : Nat := table.entries.length

def isEmpty (table : Table) : Bool := table.entries.isEmpty

end Table

/-- The phis of a function that is being lowered. -/
structure Recorder where
  entries : Entries
deriving DecidableEq, Inhabited, Repr

namespace Recorder

def empty : Recorder := ⟨[]⟩

/-- Starts collecting for a phi of the given merge block. -/
def openPhi (recorder : Recorder) (phi : InstrId) (block : BlockId) : Recorder :=
  ⟨recorder.entries.insert phi ⟨block, []⟩⟩

/-- Adds a value that flows into an open phi. -/
def contribute (recorder : Recorder) (phi : InstrId) (source : BlockId) (value : Operand) :
    Except BuildError Recorder :=
  match recorder.entries.find? phi with
  | none => .error (.unresolvedPhi phi)
  | some entry =>
    .ok ⟨recorder.entries.insert phi ⟨entry.block, entry.inputs ++ [⟨source, value⟩]⟩⟩

/-- The table of all opened phis. Each must have an input. -/
def finish (recorder : Recorder) : Except BuildError Table :=
  match List.find? (fun e => e.2.inputs.isEmpty) recorder.entries with
  | some (phi, _) => .error (.unresolvedPhi phi)
  | none => .ok ⟨recorder.entries⟩

end Recorder

end ScriptSsa.Phi
