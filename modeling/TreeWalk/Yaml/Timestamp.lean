/-!
# Dates and times

A date is a year of four digits, a month and a day; a time of day may follow, and after a `T` a
zone has to follow it. A moment is shown on the clock it was written with.
-/

namespace TreeWalk.Yaml

structure Timestamp where
  year : Nat
  month : Nat
  day : Nat
  hour : Nat
  minute : Nat
  second : Nat
  /-- Digits after the second, at most nine. -/
  fraction : List Char
  /-- Minutes east of the prime meridian. -/
  zone : Int
deriving DecidableEq, Repr

namespace Timestamp

private def digitsNat (ds : List Char) : Nat :=
  ds.foldl (fun n d => n * 10 + (d.toNat - '0'.toNat)) 0

def shortNumber : List Char → Option (Nat × List Char)
  | a :: b :: cs =>
    if !a.isDigit then none
    else if b.isDigit then some (digitsNat [a, b], cs)
    else some (digitsNat [a], b :: cs)
  | [a] => if a.isDigit then some (digitsNat [a], []) else none
  | [] => none

def bounded (low high : Nat) (cs : List Char) : Option (Nat × List Char) :=
  (shortNumber cs).filter fun (n, _) => low ≤ n && n ≤ high

def skip (c : Char) : List Char → Option (List Char)
  | d :: cs => if c = d then some cs else none
  | [] => none

def isLeap (year : Nat) : Bool := year % 4 = 0 && (year % 100 ≠ 0 || year % 400 = 0)

def daysIn (year month : Nat) : Nat :=
  match month with
  | 2 => if isLeap year then 29 else 28
  | 4 | 6 | 9 | 11 => 30
  | _ => 31

def readFraction : List Char → List Char × List Char
  | c :: d :: cs =>
    if (c = '.' || c = ',') && d.isDigit then
      (((d :: cs).takeWhile Char.isDigit).take 9, (d :: cs).dropWhile Char.isDigit)
    else ([], c :: d :: cs)
  | cs => ([], cs)

def readZone : List Char → Option Int
  | ['Z'] => some 0
  | [s, a, b, ':', c, d] =>
    if [a, b, c, d].all Char.isDigit && (s = '+' || s = '-') then
      let hours := digitsNat [a, b]
      let minutes := digitsNat [c, d]
      if hours ≤ 24 && minutes ≤ 60 then
        let total : Int := hours * 60 + minutes
        some (if s = '-' then -total else total)
      else none
    else none
  | _ => none

def readClock (t : Timestamp) (cs : List Char) : Option (Timestamp × List Char) := do
  let (hour, cs) ← bounded 0 23 cs
  let (minute, cs) ← bounded 0 59 (← skip ':' cs)
  let (second, cs) ← bounded 0 59 (← skip ':' cs)
  let (fraction, cs) := readFraction cs
  return ({ t with hour := hour, minute := minute, second := second, fraction := fraction }, cs)

def read (text : String) : Option Timestamp := do
  let cs := text.toList
  let year := cs.takeWhile Char.isDigit
  if year.length ≠ 4 then none
  let (month, cs) ← bounded 1 12 (← skip '-' (cs.dropWhile Char.isDigit))
  let (day, cs) ← shortNumber (← skip '-' cs)
  let t : Timestamp := ⟨digitsNat year, month, day, 0, 0, 0, [], 0⟩
  if day < 1 || daysIn t.year month < day then none
  match cs with
  | [] => some t
  | ' ' :: cs =>
    let (t, rest) ← readClock t cs
    if rest.isEmpty then some t else none
  | c :: cs =>
    if c = 'T' || c = 't' then
      let (t, rest) ← readClock t cs
      let zone ← readZone rest
      some { t with zone := zone }
    else none

private def padded (width n : Nat) : String :=
  let ds := (toString n).toList
  String.ofList (List.replicate (width - ds.length) '0' ++ ds)

def zoneText (zone : Int) : String :=
  (if zone < 0 then "-" else "+") ++ padded 2 (zone.natAbs / 60) ++ padded 2 (zone.natAbs % 60)

/-- Date, time, zone and the zone's name; only the zone of the prime meridian has a name. -/
def text (t : Timestamp) : String :=
  let fraction := (t.fraction.reverse.dropWhile (· = '0')).reverse
  padded 4 t.year ++ "-" ++ padded 2 t.month ++ "-" ++ padded 2 t.day ++ " " ++
    padded 2 t.hour ++ ":" ++ padded 2 t.minute ++ ":" ++ padded 2 t.second ++
    (if fraction.isEmpty then "" else "." ++ String.ofList fraction) ++ " " ++
    zoneText t.zone ++ " " ++ (if t.zone = 0 then "UTC" else zoneText t.zone)

end Timestamp

end TreeWalk.Yaml
