/-!
The format of log output, chosen by name.
-/

namespace ScriptSsa

inductive LogFormat where
  | text
  | tree
  | json
deriving DecidableEq, Inhabited, Repr

namespace LogFormat

/-- The format with the given name, in any mixture of ASCII cases. Every other name means text. -/
def ofName (name : String) : LogFormat :=
  let folded := name.map Char.toLower
  if folded = "tree" then tree else if folded = "json" then json else text

end LogFormat

end ScriptSsa
