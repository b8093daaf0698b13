/-!
Quoted text: a string between double quotes, as JSON writes it. The quote, the backslash and the
characters below U+0020 are escaped, and every other character stands for itself.
-/

namespace ScriptSsa.Text

/-- One hexadecimal digit, in lower case. -/
def hexDigit (n : Nat) : Char := Nat.digitChar (n % 16)

/-- How a character is written between quotes. -/
def escape (c : Char) : List Char :=
  match c with
  | '"' => ['\\', '"']
  | '\\' => ['\\', '\\']
  | '\n' => ['\\', 'n']
  | '\r' => ['\\', 'r']
  | '\t' => ['\\', 't']
  | '\x08' => ['\\', 'b']
  | '\x0c' => ['\\', 'f']
  | c =>
    if c.toNat < 0x20 then ['\\', 'u', '0', '0', hexDigit (c.toNat / 16), hexDigit c.toNat] else [c]

def quotedChars (cs : List Char) : List Char := '"' :: cs.flatMap escape ++ ['"']

/-- The text between double quotes. -/
def quoted (s : String) : String := String.ofList (quotedChars s.toList)

end ScriptSsa.Text
