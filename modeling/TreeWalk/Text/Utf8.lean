/-!
# UTF-8

A byte string is read as characters. A byte that belongs to no character stays visible on its
own, so one reader can replace it and another can escape it.
-/

namespace TreeWalk.Text

def sameBytes (a b : ByteArray) : Bool := a.data = b.data

/-- A character of a byte string, or a byte that belongs to none. -/
inductive Piece where
  | char (c : Char)
  | stray (b : UInt8)
deriving DecidableEq, Repr

def isTail (b : UInt8) : Bool := 0x80 ≤ b && b ≤ 0xBF

private def tailBits (b : UInt8) : Nat := b.toNat - 0x80

/-- The character that starts with byte `a`, and how many of the bytes in `rest` it takes. -/
def leadChar? (a : UInt8) (rest : List UInt8) : Option (Char × Nat) :=
  if a < 0x80 then
    some (Char.ofNat a.toNat, 0)
  else if 0xC2 ≤ a && a ≤ 0xDF then
    match rest with
    | b :: _ =>
      if isTail b then some (Char.ofNat ((a.toNat - 0xC0) * 64 + tailBits b), 1) else none
    | _ => none
  else if 0xE0 ≤ a && a ≤ 0xEF then
    match rest with
    | b :: c :: _ =>
      let n := (a.toNat - 0xE0) * 4096 + tailBits b * 64 + tailBits c
      if isTail b && isTail c && 0x800 ≤ n && !(0xD800 ≤ n && n ≤ 0xDFFF) then
        some (Char.ofNat n, 2)
      else none
    | _ => none
  else if 0xF0 ≤ a && a ≤ 0xF4 then
    match rest with
    | b :: c :: d :: _ =>
      let n := (a.toNat - 0xF0) * 262144 + tailBits b * 4096 + tailBits c * 64 + tailBits d
      if isTail b && isTail c && isTail d && 0x10000 ≤ n && n ≤ 0x10FFFF then
        some (Char.ofNat n, 3)
      else none
    | _ => none
  else none

def piecesFrom : (skip : Nat) → List UInt8 → List Piece
  | _, [] => []
  | skip + 1, _ :: rest => piecesFrom skip rest
  | 0, a :: rest =>
    match leadChar? a rest with
    | some (c, taken) => .char c :: piecesFrom taken rest
    | none => .stray a :: piecesFrom 0 rest

def pieces (bytes : List UInt8) : List Piece := piecesFrom 0 bytes

def replacement : Char := '\uFFFD'

def Piece.toChar : Piece → Char
  | .char c => c
  | .stray _ => replacement

def chars (bytes : List UInt8) : List Char := (pieces bytes).map Piece.toChar

def decode (bytes : ByteArray) : String :=
  match String.fromUTF8? bytes with
  | some s => s
  | none => String.ofList (chars bytes.data.toList)

end TreeWalk.Text
