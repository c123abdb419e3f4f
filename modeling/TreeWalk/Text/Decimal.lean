import TreeWalk.Text.Number

/-!
# Reading decimal fractions

A sign, digits with a point among or beside them, and an exponent of ten. The number is rounded
to the nearest double; one that is too large for a double is refused.
-/

namespace TreeWalk.Text

structure Decimal where
  negative : Bool
  digits : Nat
  exponent : Int
deriving DecidableEq, Repr

private def decimalDigits (ds : List Char) (acc : Nat) : Nat :=
  ds.foldl (fun n d => n * 10 + (d.toNat - '0'.toNat)) acc

def readExponent : List Char → Option Int
  | [] => some 0
  | e :: cs =>
    if e = 'e' || e = 'E' then
      let (negative, ds) := splitSign cs
      if ds.isEmpty || !ds.all Char.isDigit then none
      else
        let n : Int := decimalDigits ds 0
        some (if negative then -n else n)
    else none

def Decimal.read? (cs : List Char) : Option Decimal :=
  let (negative, cs) := splitSign cs
  let whole := cs.takeWhile Char.isDigit
  let rest := cs.dropWhile Char.isDigit
  let (fraction, rest) := match rest with
    | '.' :: rest => (rest.takeWhile Char.isDigit, rest.dropWhile Char.isDigit)
    | rest => ([], rest)
  if whole.isEmpty && fraction.isEmpty then none
  else (readExponent rest).map fun e =>
    ⟨negative, decimalDigits fraction (decimalDigits whole 0), e - fraction.length⟩

/-- The nearest double, if there is a finite one. Decimals outside these bounds are past the
largest double or round to zero. -/
def Decimal.toFloat? (d : Decimal) : Option Float :=
  let size := (toString d.digits).length + d.exponent
  let x :=
    if d.digits = 0 || size < -400 then some 0.0
    else if 400 < size then none
    else
      let x := Float.ofScientific d.digits (d.exponent < 0) d.exponent.natAbs
      if x.isInf then none else some x
  if d.negative then x.map (-·) else x

def readFloat? (cs : List Char) : Option Float := (Decimal.read? cs).bind Decimal.toFloat?

end TreeWalk.Text
