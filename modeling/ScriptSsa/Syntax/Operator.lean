/-!
The operators of scripts and their spellings.
-/

namespace ScriptSsa

inductive BinaryOp where
  | eq | ne | strictEq | strictNe | lt | le | gt | ge
  | shiftLeft | shiftRight | shiftRightUnsigned
  | add | sub | mul | div | rem
  | bitOr | bitXor | bitAnd
  | isIn | instanceOf
deriving DecidableEq, Inhabited, Repr

namespace BinaryOp

/-- Every binary operator, once. -/
def all : List BinaryOp :=
  [eq, ne, strictEq, strictNe, lt, le, gt, ge, shiftLeft, shiftRight, shiftRightUnsigned, add, sub, mul,
    div, rem, bitOr, bitXor, bitAnd, isIn, instanceOf]

def symbol : BinaryOp → String
  | eq => "=="
  | ne => "!="
  | strictEq => "==="
  | strictNe => "!=="
  | lt => "<"
  | le => "<="
  | gt => ">"
  | ge => ">="
  | shiftLeft => "<<"
  | shiftRight => ">>"
  | shiftRightUnsigned => ">>>"
  | add => "+"
  | sub => "-"
  | mul => "*"
  | div => "/"
  | rem => "%"
  | bitOr => "|"
  | bitXor => "^"
  | bitAnd => "&"
  | isIn => "in"
  | instanceOf => "instanceof"

def ofSymbol? (s : String) : Option BinaryOp := all.find? fun op => op.symbol == s

theorem ofSymbol?_symbol (op : BinaryOp) : ofSymbol? op.symbol = some op := by
  cases op <;> decide

end BinaryOp

inductive LogicalOp where
  | or | and
deriving DecidableEq, Inhabited, Repr

namespace LogicalOp

def all : List LogicalOp := [or, and]

def symbol : LogicalOp → String
  | or => "||"
  | and => "&&"

def ofSymbol? (s : String) : Option LogicalOp := all.find? fun op => op.symbol == s

theorem ofSymbol?_symbol (op : LogicalOp) : ofSymbol? op.symbol = some op := by
  cases op <;> decide

end LogicalOp

inductive UnaryOp where
  | neg | plus | not | bitNot | typeOf | void | delete
deriving DecidableEq, Inhabited, Repr

namespace UnaryOp

/-- Every unary operator, once. -/
def all : List UnaryOp := [neg, plus, not, bitNot, typeOf, void, delete]

def symbol : UnaryOp → String
  | neg => "-"
  | plus => "+"
  | not => "!"
  | bitNot => "~"
  | typeOf => "typeof"
  | void => "void"
  | delete => "delete"

def ofSymbol? (s : String) : Option UnaryOp := all.find? fun op => op.symbol == s

theorem ofSymbol?_symbol (op : UnaryOp) : ofSymbol? op.symbol = some op := by
  cases op <;> decide

end UnaryOp

inductive UpdateOp where
  | increment | decrement
deriving DecidableEq, Inhabited, Repr

namespace UpdateOp

def all : List UpdateOp := [increment, decrement]

def symbol : UpdateOp → String
  | increment => "++"
  | decrement => "--"

def ofSymbol? (s : String) : Option UpdateOp := all.find? fun op => op.symbol == s

theorem ofSymbol?_symbol (op : UpdateOp) : ofSymbol? op.symbol = some op := by
  cases op <;> decide

/-- The operator that steps the value by one. -/
def binary : UpdateOp → BinaryOp
  | increment => .add
  | decrement => .sub

end UpdateOp

inductive AssignOp where
  | assign | add | sub | mul | div | rem
  | shiftLeft | shiftRight | shiftRightUnsigned
  | bitOr | bitXor | bitAnd
deriving DecidableEq, Inhabited, Repr

namespace AssignOp

/-- Every assignment operator, once. -/
def all : List AssignOp :=
  [assign, add, sub, mul, div, rem, shiftLeft, shiftRight, shiftRightUnsigned, bitOr, bitXor, bitAnd]

def symbol : AssignOp → String
  | assign => "="
  | add => "+="
  | sub => "-="
  | mul => "*="
  | div => "/="
  | rem => "%="
  | shiftLeft => "<<="
  | shiftRight => ">>="
  | shiftRightUnsigned => ">>>="
  | bitOr => "|="
  | bitXor => "^="
  | bitAnd => "&="

def ofSymbol? (s : String) : Option AssignOp := all.find? fun op => op.symbol == s

theorem ofSymbol?_symbol (op : AssignOp) : ofSymbol? op.symbol = some op := by
  cases op <;> decide

/-- The operator that a compound assignment applies; plain assignment has none. -/
def binary? : AssignOp → Option BinaryOp
  | assign => none
  | add => some .add
  | sub => some .sub
  | mul => some .mul
  | div => some .div
  | rem => some .rem
  | shiftLeft => some .shiftLeft
  | shiftRight => some .shiftRight
  | shiftRightUnsigned => some .shiftRightUnsigned
  | bitOr => some .bitOr
  | bitXor => some .bitXor
  | bitAnd => some .bitAnd

end AssignOp

end ScriptSsa
