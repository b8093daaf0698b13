import ScriptSsa.Binary64.Scaling
import ScriptSsa.Json.Basic

/-!
Reading JSON text.

The grammar is the standard one. Arrays and objects nest at most `maxDepth` levels deep, a number that
overflows is refused, and of several members with one key the last counts. A number keeps as many leading
digits as fit into 64 bits. Each reader takes the unread characters and gives a result with those it leaves.
-/

namespace ScriptSsa.Json

/-- How deep arrays and objects may nest. -/
def maxDepth : Nat := 127

def isBlank (c : Char) : Bool := c = ' ' || c = '\t' || c = '\n' || c = '\r'

def skipBlanks (cs : List Char) : List Char := cs.dropWhile isBlank

def hexValue? (c : Char) : Option Nat :=
  if '0' ≤ c ∧ c ≤ '9' then some (c.toNat - '0'.toNat)
  else if 'a' ≤ c ∧ c ≤ 'f' then some (c.toNat - 'a'.toNat + 10)
  else if 'A' ≤ c ∧ c ≤ 'F' then some (c.toNat - 'A'.toNat + 10)
  else none

/-- The character that a one-letter escape stands for. -/
def escaped? (c : Char) : Option Char :=
  match c with
  | '"' => some '"'
  | '\\' => some '\\'
  | '/' => some '/'
  | 'b' => some '\x08'
  | 'f' => some '\x0c'
  | 'n' => some '\n'
  | 'r' => some '\r'
  | 't' => some '\t'
  | _ => none

/-- What a string's reader has seen of an escape. -/
inductive EscapeState where
  | plain
  /-- After a backslash. -/
  | letter
  /-- Among the four digits of a code unit; `high` is the first half of a surrogate pair. -/
  | digits (high : Option Nat) (seen value : Nat)
  /-- A high surrogate waits for the backslash of the low one. -/
  | lowMark (high : Nat)
  /-- A high surrogate waits for the letter of the low one. -/
  | lowLetter (high : Nat)

def isHighSurrogate (unit : Nat) : Bool := 0xD800 ≤ unit && unit < 0xDC00

def isLowSurrogate (unit : Nat) : Bool := 0xDC00 ≤ unit && unit < 0xE000

/-- The rest of a string after its opening quote. -/
def stringTail : EscapeState → List Char → Option (List Char × List Char)
  | _, [] => none
  | .plain, c :: rest =>
    if c = '"' then some ([], rest)
    else if c = '\\' then stringTail .letter rest
    else if c.toNat < 0x20 then none
    else (stringTail .plain rest).map fun r => (c :: r.1, r.2)
  | .letter, c :: rest =>
    if c = 'u' then stringTail (.digits none 0 0) rest
    else (escaped? c).bind fun d => (stringTail .plain rest).map fun r => (d :: r.1, r.2)
  | .digits high seen value, c :: rest =>
    (hexValue? c).bind fun d =>
      let unit := 16 * value + d
      if seen < 3 then stringTail (.digits high (seen + 1) unit) rest
      else
        match high with
        | none =>
          if isHighSurrogate unit then stringTail (.lowMark unit) rest
          else if isLowSurrogate unit then none
          else (stringTail .plain rest).map fun r => (Char.ofNat unit :: r.1, r.2)
        | some h =>
          if isLowSurrogate unit then
            let code := 0x10000 + (h - 0xD800) * 0x400 + (unit - 0xDC00)
            (stringTail .plain rest).map fun r => (Char.ofNat code :: r.1, r.2)
          else none
  | .lowMark high, c :: rest => if c = '\\' then stringTail (.lowLetter high) rest else none
  | .lowLetter high, c :: rest => if c = 'u' then stringTail (.digits (some high) 0 0) rest else none

def isDigit (c : Char) : Bool := '0' ≤ c && c ≤ '9'

def digitValue (c : Char) : Nat := c.toNat - '0'.toNat

def digitsValue (digits : List Char) : Nat := digits.foldl (fun n c => 10 * n + digitValue c) 0

/-- What the digits of a number have to stay below to be kept: they fit into 64 bits. -/
def keptLimit : Nat := Nat.pow 2 64

/-- Appends digits to a value up to the first that does not fit. Gives the value and how many digits are
left over. -/
def keepDigits : (value : Nat) → List Char → Nat × Nat
  | value, [] => (value, 0)
  | value, c :: rest =>
    let next := 10 * value + digitValue c
    if next < keptLimit then keepDigits next rest else (value, rest.length + 1)

/-- The number with the given digits before and after the point, or `none` on overflow. Left-over digits
before the point count as zeros, those after it not at all. -/
def numberOf (negative : Bool) (whole places : List Char) (exponent : Int) : Option Binary64 :=
  let (value, zeros) := keepDigits 0 whole
  let (value, unread) := keepDigits value places
  Binary64.ofDecimal negative value (exponent + zeros - (places.length - unread : Nat))

/-- The digits after a decimal point, if there is one. -/
def fraction : List Char → Option (List Char × List Char)
  | '.' :: rest =>
    let digits := rest.takeWhile isDigit
    if digits.isEmpty then none else some (digits, rest.dropWhile isDigit)
  | cs => some ([], cs)

def exponentDigits (negative : Bool) (cs : List Char) : Option (Int × List Char) :=
  let digits := cs.takeWhile isDigit
  if digits.isEmpty then none
  else
    let n : Int := digitsValue digits
    some (if negative then -n else n, cs.dropWhile isDigit)

def signedExponent : List Char → Option (Int × List Char)
  | '+' :: rest => exponentDigits false rest
  | '-' :: rest => exponentDigits true rest
  | cs => exponentDigits false cs

/-- The exponent of a number, if it is written. -/
def exponent : List Char → Option (Int × List Char)
  | 'e' :: rest => signedExponent rest
  | 'E' :: rest => signedExponent rest
  | cs => some (0, cs)

/-- A number after its sign. -/
def unsignedNumber (negative : Bool) (cs : List Char) : Option (Json × List Char) :=
  let whole := cs.takeWhile isDigit
  if whole.isEmpty || (whole.head? = some '0' && 1 < whole.length) then none
  else
    (fraction (cs.dropWhile isDigit)).bind fun (places, rest) =>
      (exponent rest).bind fun (e, rest) =>
        (numberOf negative whole places e).map fun x => (number x, rest)

/-- A value that holds no others. -/
def scalar : List Char → Option (Json × List Char)
  | 'n' :: 'u' :: 'l' :: 'l' :: rest => some (null, rest)
  | 't' :: 'r' :: 'u' :: 'e' :: rest => some (bool true, rest)
  | 'f' :: 'a' :: 'l' :: 's' :: 'e' :: rest => some (bool false, rest)
  | '"' :: rest => (stringTail .plain rest).map fun r => (string (String.ofList r.1), r.2)
  | '-' :: rest => unsignedNumber true rest
  | cs => unsignedNumber false cs

/-- One or more items divided by commas, up to the closing bracket. Each item but the last is followed
by a comma, so there are no more of them than characters. -/
def items {α : Type} (item : List Char → Option (α × List Char)) (close : Char) :
    Nat → List Char → Option (List α × List Char)
  | 0, _ => none
  | bound + 1, cs =>
    (item cs).bind fun (x, rest) =>
      match skipBlanks rest with
      | [] => none
      | c :: rest =>
        if c = close then some ([x], rest)
        else if c = ',' then (items item close bound rest).map fun r => (x :: r.1, r.2)
        else none

/-- Items after the opening bracket. -/
def bracketed {α : Type} (item : List Char → Option (α × List Char)) (close : Char)
    (cs : List Char) : Option (List α × List Char) :=
  match skipBlanks cs with
  | [] => none
  | c :: rest => if c = close then some ([], rest) else items item close cs.length cs

/-- A key, a colon and a value. -/
def member (value : List Char → Option (Json × List Char)) (cs : List Char) :
    Option ((String × Json) × List Char) :=
  match skipBlanks cs with
  | '"' :: rest =>
    (stringTail .plain rest).bind fun (key, rest) =>
      match skipBlanks rest with
      | ':' :: rest => (value rest).map fun r => ((String.ofList key, r.1), r.2)
      | _ => none
  | _ => none

/-- Replaces the value of a key in place, or appends a new member. -/
def insertMember (m : String × Json) : List (String × Json) → List (String × Json)
  | [] => [m]
  | old :: rest => if old.1 = m.1 then m :: rest else old :: insertMember m rest

/-- An object with the given members, of which the last one of each key counts. -/
def ofMembers (members : List (String × Json)) : Json :=
  object (members.foldl (fun kept m => insertMember m kept) [])

/-- A value whose arrays and objects nest at most `depth` levels deep. -/
def value : (depth : Nat) → List Char → Option (Json × List Char)
  | 0, cs => scalar (skipBlanks cs)
  | depth + 1, cs =>
    match skipBlanks cs with
    | '[' :: rest => (bracketed (value depth) ']' rest).map fun r => (array r.1, r.2)
    | '{' :: rest => (bracketed (member (value depth)) '}' rest).map fun r => (ofMembers r.1, r.2)
    | rest => scalar rest

/-- The value at the start of a text, and what stands after it. -/
def read? (text : String) : Option (Json × List Char) := value maxDepth text.toList

/-- Whether nothing but blanks is left. -/
def isEnd (rest : List Char) : Bool := rest.all isBlank

/-- The value that a text consists of. -/
def parse? (text : String) : Option Json :=
  (read? text).bind fun (v, rest) => if isEnd rest then some v else none

end ScriptSsa.Json
