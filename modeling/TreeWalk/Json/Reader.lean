import TreeWalk.Json.Basic
import TreeWalk.Text.Utf8

/-!
# Reading JSON

The reader takes one byte at a time and stops as soon as its first value is complete, so what
follows that value is never looked at. Its state is the place it stands at and the arrays and
objects still open around it, of which there may be 10000.
-/

namespace TreeWalk.Json

inductive ReadError where
  | empty
  | truncated
  | malformed
deriving DecidableEq, Repr

/-- An array or object that is still open, its contents newest first. -/
inductive Frame where
  | array (items : List Json)
  | object (members : List (String × Json))
  | member (members : List (String × Json)) (key : String)
deriving Inhabited

inductive NumberPart where
  | minus
  | zero
  | whole
  | point
  | fraction
  | mark
  | markSign
  | exponent
deriving DecidableEq, Repr

def NumberPart.complete : NumberPart → Bool
  | .zero | .whole | .fraction | .exponent => true
  | _ => false

inductive StringPart where
  | plain
  | escape
  | hex (more : Nat)
deriving DecidableEq, Repr

/-- The place the reader stands at. What it has seen of a string or number is newest first. -/
inductive Place where
  | value
  | firstItem
  | firstKey
  | nextKey
  | colon
  | string (part : StringPart) (seen : List UInt8)
  | key (part : StringPart) (seen : List UInt8)
  | number (part : NumberPart) (seen : List UInt8)
  | word (left : List UInt8) (meaning : Json)
  | separator

structure Reader where
  place : Place
  frames : List Frame
  /-- How many more arrays and objects may be opened. -/
  room : Nat

inductive Progress where
  | more (r : Reader)
  | done (j : Json)
  | bad

def maxDepth : Nat := 10000

def Reader.start : Reader := ⟨.value, [], maxDepth⟩

def isBlank (b : UInt8) : Bool := b = 0x20 || b = 0x09 || b = 0x0A || b = 0x0D

def isDigit (b : UInt8) : Bool := 0x30 ≤ b && b ≤ 0x39

def hexValue? (c : Char) : Option Nat :=
  if '0' ≤ c && c ≤ '9' then some (c.toNat - '0'.toNat)
  else if 'a' ≤ c && c ≤ 'f' then some (c.toNat - 'a'.toNat + 10)
  else if 'A' ≤ c && c ≤ 'F' then some (c.toNat - 'A'.toNat + 10)
  else none

def isHex (b : UInt8) : Bool := (hexValue? (Char.ofNat b.toNat)).isSome

def hex4 (a b c d : Char) : Nat :=
  let v := fun x => (hexValue? x).getD 0
  ((v a * 16 + v b) * 16 + v c) * 16 + v d

def escaped : Char → Char
  | 'b' => '\x08'
  | 'f' => '\x0c'
  | 'n' => '\n'
  | 'r' => '\r'
  | 't' => '\t'
  | c => c

def isHighSurrogate (n : Nat) : Bool := 0xD800 ≤ n && n ≤ 0xDBFF

def isLowSurrogate (n : Nat) : Bool := 0xDC00 ≤ n && n ≤ 0xDFFF

/-- The numbers that a string's characters and escapes stand for. -/
def units : List Char → List Nat
  | [] => []
  | '\\' :: 'u' :: a :: b :: c :: d :: rest => hex4 a b c d :: units rest
  | '\\' :: c :: rest => (escaped c).toNat :: units rest
  | c :: rest => c.toNat :: units rest

/-- A surrogate on its own stands for no character. -/
def unitChar (n : Nat) : Char :=
  if isHighSurrogate n || isLowSurrogate n then Text.replacement else Char.ofNat n

/-- Joins each high surrogate with the low one after it. -/
def joinUnits : List Nat → List Char
  | [] => []
  | [n] => [unitChar n]
  | n :: m :: rest =>
    if isHighSurrogate n && isLowSurrogate m then
      Char.ofNat (0x10000 + (n - 0xD800) * 0x400 + (m - 0xDC00)) :: joinUnits rest
    else unitChar n :: joinUnits (m :: rest)

def stringOf (seen : List UInt8) : String :=
  String.ofList (joinUnits (units (Text.chars seen.reverse)))

def spellingOf (seen : List UInt8) : String :=
  String.ofList (seen.reverse.map fun b => Char.ofNat b.toNat)

/-- A value is complete: it goes into the innermost open frame. -/
def Reader.complete (r : Reader) (j : Json) : Progress :=
  match r.frames with
  | [] => .done j
  | .array items :: frames => .more { r with place := .separator, frames := .array (j :: items) :: frames }
  | .member members key :: frames =>
    .more { r with place := .separator, frames := .object ((key, j) :: members) :: frames }
  | .object _ :: _ => .bad

def Reader.enter (r : Reader) (place : Place) (frame : Frame) : Progress :=
  match r.room with
  | 0 => .bad
  | room + 1 => .more ⟨place, frame :: r.frames, room⟩

def Reader.close (r : Reader) (frames : List Frame) (j : Json) : Progress :=
  Reader.complete { r with frames, room := r.room + 1 } j

def Reader.begin (r : Reader) (b : UInt8) : Progress :=
  if isBlank b then .more r
  else if b = 0x7B then r.enter .firstKey (.object [])
  else if b = 0x5B then r.enter .firstItem (.array [])
  else if b = 0x22 then .more { r with place := .string .plain [] }
  else if b = 0x2D then .more { r with place := .number .minus [b] }
  else if b = 0x30 then .more { r with place := .number .zero [b] }
  else if isDigit b then .more { r with place := .number .whole [b] }
  else if b = 0x74 then .more { r with place := .word [0x72, 0x75, 0x65] (.bool true) }
  else if b = 0x66 then .more { r with place := .word [0x61, 0x6C, 0x73, 0x65] (.bool false) }
  else if b = 0x6E then .more { r with place := .word [0x75, 0x6C, 0x6C] .null }
  else .bad

def Reader.separate (r : Reader) (b : UInt8) : Progress :=
  if isBlank b then .more { r with place := .separator }
  else
    match r.frames with
    | .array items :: frames =>
      if b = 0x2C then .more { r with place := .value }
      else if b = 0x5D then r.close frames (.array items.reverse)
      else .bad
    | .object members :: frames =>
      if b = 0x2C then .more { r with place := .nextKey }
      else if b = 0x7D then r.close frames (.object members.reverse)
      else .bad
    | _ => .bad

def NumberPart.next? (part : NumberPart) (b : UInt8) : Option NumberPart :=
  let isMark := b = 0x65 || b = 0x45
  match part with
  | .minus => if b = 0x30 then some .zero else if isDigit b then some .whole else none
  | .zero => if b = 0x2E then some .point else if isMark then some .mark else none
  | .whole =>
    if isDigit b then some .whole
    else if b = 0x2E then some .point else if isMark then some .mark else none
  | .point => if isDigit b then some .fraction else none
  | .fraction => if isDigit b then some .fraction else if isMark then some .mark else none
  | .mark =>
    if b = 0x2B || b = 0x2D then some .markSign else if isDigit b then some .exponent else none
  | .markSign => if isDigit b then some .exponent else none
  | .exponent => if isDigit b then some .exponent else none

/-- The part of a string that byte `b` leads to, unless it may not stand there. The closing quote
is not among the bytes this is asked about. -/
def StringPart.next? (part : StringPart) (b : UInt8) : Option StringPart :=
  match part with
  | .plain => if b < 0x20 then none else if b = 0x5C then some .escape else some .plain
  | .escape =>
    if b = 0x75 then some (.hex 3)
    else if b ∈ [0x22, 0x5C, 0x2F, 0x62, 0x66, 0x6E, 0x72, 0x74] then some .plain
    else none
  | .hex more =>
    if isHex b then
      match more with
      | 0 => some .plain
      | n + 1 => some (.hex n)
    else none

def Reader.name (r : Reader) (key : String) : Progress :=
  match r.frames with
  | .object members :: frames => .more { r with place := .colon, frames := .member members key :: frames }
  | _ => .bad

/-- What byte `b` does to the reader. -/
def Reader.step (r : Reader) (b : UInt8) : Progress :=
  match r.place with
  | .value => r.begin b
  | .firstItem =>
    if b = 0x5D then
      match r.frames with
      | _ :: frames => r.close frames (.array [])
      | [] => .bad
    else r.begin b
  | .firstKey =>
    if isBlank b then .more r
    else if b = 0x22 then .more { r with place := .key .plain [] }
    else if b = 0x7D then
      match r.frames with
      | _ :: frames => r.close frames (.object [])
      | [] => .bad
    else .bad
  | .nextKey =>
    if isBlank b then .more r
    else if b = 0x22 then .more { r with place := .key .plain [] }
    else .bad
  | .colon =>
    if isBlank b then .more r else if b = 0x3A then .more { r with place := .value } else .bad
  | .string part seen =>
    if part = .plain && b = 0x22 then r.complete (.string (stringOf seen))
    else
      match part.next? b with
      | some part' => .more { r with place := .string part' (b :: seen) }
      | none => .bad
  | .key part seen =>
    if part = .plain && b = 0x22 then r.name (stringOf seen)
    else
      match part.next? b with
      | some part' => .more { r with place := .key part' (b :: seen) }
      | none => .bad
  | .number part seen =>
    match part.next? b with
    | some part' => .more { r with place := .number part' (b :: seen) }
    | none =>
      if part.complete then
        match r.complete (.number (spellingOf seen)) with
        | .more r' => r'.separate b
        | other => other
      else .bad
  | .word left meaning =>
    match left with
    | [] => .bad
    | [c] => if b = c then r.complete meaning else .bad
    | c :: left' => if b = c then .more { r with place := .word left' meaning } else .bad
  | .separator => r.separate b

/-- What the end of the text does to the reader: a number outside any array or object may end
there. -/
def Reader.finish (r : Reader) : Except ReadError Json :=
  match r.place, r.frames with
  | .value, [] => .error .empty
  | .number part seen, [] =>
    if part.complete then .ok (.number (spellingOf seen)) else .error .truncated
  | _, _ => .error .truncated

def Reader.run (r : Reader) : List UInt8 → Except ReadError Json
  | [] => r.finish
  | b :: rest =>
    match r.step b with
    | .more r' => r'.run rest
    | .done j => .ok j
    | .bad => .error .malformed

def read (bytes : List UInt8) : Except ReadError Json := Reader.start.run bytes

end TreeWalk.Json
