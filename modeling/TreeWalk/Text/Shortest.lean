/-!
# Decimal text of binary floating point numbers

A number is written with the fewest decimal digits that read back as the same number, and of
those with the nearest. Digits are found by exact arithmetic on the number's two neighbours in
each decimal grid.
-/

namespace TreeWalk.Text

structure Binary where
  negative : Bool
  mantissa : Nat
  exponent : Int
deriving DecidableEq, Repr

def Binary.ofBits (bits : UInt64) : Binary :=
  let n := bits.toNat
  let fraction := n % Nat.pow 2 52
  let biased := n / Nat.pow 2 52 % Nat.pow 2 11
  let negative : Bool := n / Nat.pow 2 63 = 1
  if biased = 0 then ⟨negative, fraction, -1074⟩
  else ⟨negative, fraction + Nat.pow 2 52, biased - 1075⟩

private def scaled (a : Nat) (e : Int) (b : Nat) (d : Int) : Nat × Nat :=
  let two := fun (k : Int) => Nat.pow 2 k.toNat
  let ten := fun (k : Int) => Nat.pow 10 k.toNat
  (a * two e * ten (-d), b * ten d * two (-e))

/-- Whether the decimal `b * 10 ^ d` reads back as the number: whether it lies between the
midpoints to the number's neighbours, the midpoints included when the mantissa is even. -/
def Binary.readsBack (x : Binary) (b : Nat) (d : Int) : Bool :=
  let atPower := x.mantissa = Nat.pow 2 52 && -1074 < x.exponent
  let (low, dec) := scaled (4 * x.mantissa - (if atPower then 1 else 2)) (x.exponent - 2) b d
  let (high, point) := scaled (4 * x.mantissa + 2) (x.exponent - 2) b d
  if x.mantissa % 2 = 0 then low ≤ dec && point ≤ high else low < dec && point < high

def Binary.below (x : Binary) (d : Int) : Nat :=
  let (num, den) := scaled x.mantissa x.exponent 1 d
  num / den

def Binary.nearerAbove (x : Binary) (d : Int) : Bool :=
  let (num, den) := scaled x.mantissa x.exponent 1 d
  let r := num % den
  den < 2 * r || (2 * r = den && num / den % 2 = 1)

/-- Tries grids from `d` on downward, each ten times finer than the one before. -/
def Binary.digitsFrom (x : Binary) : (fuel : Nat) → (d : Int) → Nat × Int
  | 0, d => (x.below d, d)
  | fuel + 1, d =>
    let b := x.below d
    let low := x.readsBack b d && b ≠ 0
    let high := x.readsBack (b + 1) d
    if low && high then (if x.nearerAbove d then b + 1 else b, d)
    else if low then (b, d)
    else if high then (b + 1, d)
    else x.digitsFrom fuel (d - 1)

def Binary.topExponent (x : Binary) : Int :=
  let whole := Nat.log2 x.mantissa + x.exponent
  whole * 30103 / 100000 + 1

/-- The shortest digits: no trailing zero, and the exponent of ten of the last digit. -/
def Binary.shortest (x : Binary) : Nat × Int :=
  let (b, d) := x.digitsFrom 25 x.topExponent
  strip 25 b d
where
  strip : Nat → Nat → Int → Nat × Int
    | 0, b, d => (b, d)
    | fuel + 1, b, d => if b % 10 = 0 && b ≠ 0 then strip fuel (b / 10) (d + 1) else (b, d)

structure FloatFormat where
  /-- Exponents of the first digit that are written plainly: from `least` to before `most`. -/
  least : Int
  most : Int
  width : Nat

def FloatFormat.digits (f : FloatFormat) (number : Nat) (last : Int) : String :=
  let ds := (toString number).toList
  let first := last + ds.length - 1
  if first < f.least || f.most ≤ first then
    let tail := ds.tail
    let mantissa := ds.take 1 ++ (if tail.isEmpty then [] else '.' :: tail)
    let size := (toString first.natAbs).toList
    let exponent := List.replicate (f.width - size.length) '0' ++ size
    String.ofList (mantissa ++ ['e', if first < 0 then '-' else '+'] ++ exponent)
  else if first < 0 then
    String.ofList ("0.".toList ++ List.replicate (-first - 1).toNat '0' ++ ds)
  else if 0 ≤ last then String.ofList (ds ++ List.replicate last.toNat '0')
  else
    let whole := (first + 1).toNat
    String.ofList (ds.take whole ++ '.' :: ds.drop whole)

def FloatFormat.text (f : FloatFormat) (x : Float) : String :=
  if x.isNaN then "NaN"
  else if x.isInf then if x < 0 then "-Inf" else "+Inf"
  else
    let b := Binary.ofBits x.toBits
    let sign := if b.negative then "-" else ""
    if b.mantissa = 0 then sign ++ "0"
    else
      let (digits, last) := b.shortest
      sign ++ f.digits digits last

end TreeWalk.Text
