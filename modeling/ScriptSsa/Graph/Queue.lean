import ScriptSsa.Graph.Basic

/-!
Finished graphs that wait to be taken, in the order they were finished. An inner function is finished
before the one around it.
-/

namespace ScriptSsa

structure GraphQueue where
  graphs : List Graph
deriving DecidableEq, Inhabited, Repr

namespace GraphQueue

def empty : GraphQueue := ⟨[]⟩

def push (queue : GraphQueue) (graph : Graph) : GraphQueue := ⟨queue.graphs ++ [graph]⟩

def size (queue : GraphQueue) : Nat := queue.graphs.length

def isEmpty (queue : GraphQueue) : Bool := queue.graphs.isEmpty

/-- All waiting graphs, and the queue without them. -/
def drain (queue : GraphQueue) : List Graph × GraphQueue := (queue.graphs, empty)

end GraphQueue

end ScriptSsa
