import ScriptSsa.Binary64.Printer
import ScriptSsa.Text.Quoted
import ScriptSsa.Graph.Basic

/-!
The listing of a graph: a line for each block with its successors, and below it a line for each
instruction. A bound instruction shows its variable in place of its id.
-/

namespace ScriptSsa

def Constant.text : Constant → String
  | .undefined => "undefined"
  | .null => "null"
  | .bool true => "true"
  | .bool false => "false"
  | .number x => x.text
  | .string s => Text.quoted s

def Operand.text : Operand → String
  | .instr id => id.text
  | .localVar name => "@" ++ name
  | .constant c => "%" ++ c.text
  | .count n => "%" ++ toString n
  | .block id => "%\"" ++ id.text ++ "\""

/-- What stands on the left of an instruction. -/
def Instr.target (i : Instr) : String :=
  match i.binding with
  | some name => "@" ++ name
  | none => i.id.text

/-- A list after its opening mark, divided by commas; nothing for the empty list. -/
def listText (opening : String) (items : List String) : String :=
  if items.isEmpty then "" else opening ++ ", ".intercalate items

/-- The line of an instruction, its operands written as given. -/
def Instr.textWith (operand : Operand → String) (i : Instr) : String :=
  i.target ++ " = " ++ i.opcode.mnemonic ++ listText " " (i.operands.map operand)

def Block.textWith (operand : Operand → String) (b : Block) : String :=
  "\n  ".intercalate
    (("block " ++ b.id.text ++ listText " -> " (b.succs.map BlockId.text)) :: b.instrs.map (Instr.textWith operand))

def Graph.textWith (operand : Operand → String) (g : Graph) : String :=
  "\n".intercalate (g.blocks.map (Block.textWith operand))

def Instr.text (i : Instr) : String := i.textWith Operand.text

def Block.text (b : Block) : String := b.textWith Operand.text

def Graph.text (g : Graph) : String := g.textWith Operand.text

/-- The listing of several graphs, one after another. -/
def listing (graphs : List Graph) : String := "\n".intercalate (graphs.map Graph.text)

end ScriptSsa
