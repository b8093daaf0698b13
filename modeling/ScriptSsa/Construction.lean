import ScriptSsa.ESTree.Decoder
import ScriptSsa.Graph.Listing
import ScriptSsa.Lowering.Basic

/-!
Construction of the graphs of a script.

The result holds one graph for each function: that of the top level first, then those of the nested
functions in the order they were finished.
-/

namespace ScriptSsa

/-- The names of a script before any function is entered. -/
def Names.outermost : Names := ⟨[], Scope.resolve⟩

/-- Lowers the top level of a script to its graph. -/
def lowerProgram (names : Names) (p : Program) : Build Graph := do
  let scope ← Build.lift (Scope.ofFunction none [] p.body)
  let inner := names.enter scope
  Build.inNewGraph none do
    Build.prologue inner scope
    lowerDeclared inner p.body
    lowerStmts inner p.body

/-- A builder that holds nothing but a supply of ids. -/
def Builder.start (supply : Supply) : Builder where
  supply := supply
  finished := .empty
  blocks := []
  current := ⟨0⟩
  loops := []
  phis := .empty

/-- Constructs the graphs of a script with ids from a supply, by the given names, and returns what is left
of the supply. Ids drawn before a failure stay drawn. -/
def constructUsing (names : Names) (p : Program) (supply : Supply) :
    Except BuildError (List Graph) × Supply :=
  match lowerProgram names p (Builder.start supply) with
  | .ok main s => (.ok (main :: s.finished.drain.1), s.supply)
  | .error e s => (.error e, s.supply)

/-- Constructs the graphs of a script with ids from a supply. -/
def constructWith (p : Program) (supply : Supply) : Except BuildError (List Graph) × Supply :=
  constructUsing .outermost p supply

/-- Constructs the graphs of a script with ids from a fresh supply. -/
def construct (p : Program) : Except BuildError (List Graph) := (constructWith p .fresh).1

inductive Error where
  | decode (error : ESTree.DecodeError)
  | build (error : BuildError)
deriving DecidableEq, Inhabited, Repr

def Error.message : Error → String
  | decode e => e.message
  | build e => e.message

/-- The listing of the graphs of a script that is given as JSON text. -/
def listingOfText (text : String) : Except Error String := do
  let p ← (Program.ofText text).mapError .decode
  let graphs ← (construct p).mapError .build
  return listing graphs

end ScriptSsa
