import TreeWalk.Text.Quoted

/-!
# Reading whole numbers

A number is read digit by digit. Reading stops at the first fault: a character that is no
digit, or a digit that takes the value past 64 bits. So of two faults the earlier one counts.
-/

namespace TreeWalk.Text

inductive NumberError where
  | form
  | range
deriving DecidableEq, Repr

def wordSpan : Nat := 18446744073709551616

def halfSpan : Nat := 9223372036854775808

def NumberError.message : NumberError → String
  | .form => "invalid syntax"
  | .range => "value out of range"

def digitValue? (c : Char) : Option Nat :=
  if '0' ≤ c && c ≤ '9' then some (c.toNat - '0'.toNat)
  else if 'a' ≤ c && c ≤ 'z' then some (c.toNat - 'a'.toNat + 10)
  else if 'A' ≤ c && c ≤ 'Z' then some (c.toNat - 'A'.toNat + 10)
  else none

def readDigits (base acc : Nat) : List Char → Except NumberError Nat
  | [] => .ok acc
  | c :: cs =>
    match digitValue? c with
    | none => .error .form
    | some d =>
      if base ≤ d then .error .form
      else if acc * base + d < wordSpan then readDigits base (acc * base + d) cs
      else .error .range

def readNat (base : Nat) : List Char → Except NumberError Nat
  | [] => .error .form
  | cs => readDigits base 0 cs

def splitSign : List Char → Bool × List Char
  | '+' :: cs => (false, cs)
  | '-' :: cs => (true, cs)
  | cs => (false, cs)

/-- Puts a magnitude and its sign into the range of `Int64`. -/
def signed64 (negative : Bool) (n : Nat) : Except NumberError Int64 :=
  if negative then
    if n ≤ halfSpan then .ok (Int64.ofInt (-(n : Int))) else .error .range
  else if n < halfSpan then .ok (Int64.ofInt n) else .error .range

def readInt64 (s : String) : Except NumberError Int64 := do
  let (negative, digits) := splitSign s.toList
  signed64 negative (← readNat 10 digits)

/-- The base that a number's first characters announce, and the digits after them. -/
def splitBase : List Char → Nat × List Char
  | '0' :: c :: d :: cs =>
    match c.toLower with
    | 'b' => (2, d :: cs)
    | 'o' => (8, d :: cs)
    | 'x' => (16, d :: cs)
    | _ => (8, c :: d :: cs)
  | ['0', c] => (8, [c])
  | cs => (10, cs)

/-- Whether each underscore stands after a digit or base mark and before a digit. `after` says
whether a digit stands just before, `owed` whether an underscore waits for one. -/
def underscoresOk (hexadecimal : Bool) : (after owed : Bool) → List Char → Bool
  | _, owed, [] => !owed
  | after, owed, c :: cs =>
    if c.isDigit || (hexadecimal && 'a' ≤ c.toLower && c.toLower ≤ 'f') then
      underscoresOk hexadecimal true false cs
    else if c = '_' then after && underscoresOk hexadecimal false true cs
    else !owed && underscoresOk hexadecimal false false cs

def readMarkedNat (cs : List Char) : Except NumberError Nat := do
  if cs.isEmpty then throw .form
  let (base, digits) := splitBase cs
  let n ← readDigits base 0 (digits.filter (· ≠ '_'))
  let marked := match cs with
    | '0' :: c :: _ => c.toLower = 'b' || c.toLower = 'o' || c.toLower = 'x'
    | _ => false
  let body := if marked then cs.drop 2 else cs
  if '_' ∈ digits && !underscoresOk (base = 16) marked false body then throw .form
  return n

/-- Reads an optional sign, an optional base mark (`0x`, `0o`, `0b` or a leading zero for base
eight) and digits that underscores may group. -/
def readMarkedInt64 (s : String) : Except NumberError Int64 := do
  let (negative, digits) := splitSign s.toList
  signed64 negative (← readMarkedNat digits)

def readBool? (s : String) : Option Bool :=
  if s ∈ ["1", "t", "T", "TRUE", "true", "True"] then some true
  else if s ∈ ["0", "f", "F", "FALSE", "false", "False"] then some false
  else none

def decimal (n : Int64) : String := toString n.toInt

end TreeWalk.Text
