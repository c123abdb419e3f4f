import TreeWalk.Text.Base64
import TreeWalk.Text.Decimal
import TreeWalk.Text.Shortest
import TreeWalk.Yaml.Node
import TreeWalk.Yaml.Timestamp

/-!
# Data of a YAML document

What scalars stand for, and the data of whole nodes when nothing is known about their shape.
A plain scalar without a tag stands for a null, a truth value, a number or a date if it is
spelled like one. A tag of a scalar type demands that the scalar is one.
-/

namespace TreeWalk.Yaml

inductive Datum where
  | null
  | bool (b : Bool)
  | int (n : Int)
  | float (x : Float)
  | time (t : Timestamp)
  | text (s : String)
  /-- Bytes that are no text. -/
  | binary (bytes : ByteArray)
  | sequence (items : List Datum)
  /-- With `textual`, every key was written as a text. -/
  | mapping (textual : Bool) (entries : List (Datum × Datum))
deriving Inhabited

namespace Datum

/-- Plain digits for numbers with a first digit from 10^-4 to 10^5, else an exponent of at least
two digits. -/
def floats : Text.FloatFormat := ⟨-4, 6, 2⟩

def ofBytes (bytes : ByteArray) : Datum :=
  match String.fromUTF8? bytes with
  | some s => text s
  | none => binary bytes

def tag : Datum → String
  | null => "!!null"
  | bool _ => "!!bool"
  | int _ => "!!int"
  | float _ => "!!float"
  | time _ => "!!timestamp"
  | text _ | binary _ => "!!str"
  | sequence _ => "!!seq"
  | mapping .. => "!!map"

/-- Keys of one kind are shown in their own order. -/
def keyLe : Datum → Datum → Bool
  | bool a, bool b => !a || b
  | int a, int b => a ≤ b
  | float a, float b => a ≤ b
  | text a, text b => a ≤ b
  | text a, binary b => a.toUTF8.data.toList ≤ b.data.toList
  | binary a, text b => a.data.toList ≤ b.toUTF8.data.toList
  | binary a, binary b => a.data.toList ≤ b.data.toList
  | a, b => a.tag ≤ b.tag

def spaced : List ByteArray → ByteArray
  | [] => .empty
  | [b] => b
  | b :: rest => b ++ " ".toUTF8 ++ spaced rest

mutual

def display : Datum → ByteArray
  | null => "<nil>".toUTF8
  | bool b => (if b then "true" else "false").toUTF8
  | int n => (toString n).toUTF8
  | float x => (floats.text x).toUTF8
  | time t => t.text.toUTF8
  | text s => s.toUTF8
  | binary bytes => bytes
  | sequence items => "[".toUTF8 ++ spaced (displayItems items) ++ "]".toUTF8
  | mapping _ entries =>
    let shown := (displayEntries entries).mergeSort fun a b => keyLe a.1 b.1
    "map[".toUTF8 ++ spaced (shown.map Prod.snd) ++ "]".toUTF8

def displayItems : List Datum → List ByteArray
  | [] => []
  | d :: ds => d.display :: displayItems ds

def displayEntries : List (Datum × Datum) → List (Datum × ByteArray)
  | [] => []
  | (k, v) :: rest => (k, k.display ++ ":".toUTF8 ++ v.display) :: displayEntries rest

end

end Datum

def constants : List (List String × Datum) := [
  (["true", "True", "TRUE"], .bool true),
  (["false", "False", "FALSE"], .bool false),
  (["", "~", "null", "Null", "NULL"], .null),
  ([".nan", ".NaN", ".NAN"], .float (0.0 / 0.0)),
  ([".inf", ".Inf", ".INF", "+.inf", "+.Inf", "+.INF"], .float (1.0 / 0.0)),
  (["-.inf", "-.Inf", "-.INF"], .float (-1.0 / 0.0))]

def constant? (text : String) : Option Datum :=
  (constants.find? fun (spellings, _) => spellings.contains text).map Prod.snd

/-- The digits of a whole number that carries its sign after the base mark. -/
def markedInt? : List Char → Option Int
  | '0' :: 'b' :: cs => based 2 cs
  | '0' :: 'o' :: cs => based 8 cs
  | _ => none
where
  based (base : Nat) (cs : List Char) : Option Int :=
    let (negative, digits) := Text.splitSign cs
    ((Text.readNat base digits).bind (Text.signed64 negative)).toOption.map Int64.toInt

/-- Reads a number that starts with a digit or a sign. Underscores may stand anywhere in it. -/
def number? (text : String) : Option Datum :=
  let cs := text.toList.filter (· ≠ '_')
  match Text.readMarkedInt64 (String.ofList cs) with
  | .ok n => some (.int n.toInt)
  | .error _ =>
    match Text.readMarkedNat cs with
    | .ok n => some (.int n)
    | .error _ =>
      match Text.readFloat? cs with
      | some x => some (.float x)
      | none => (markedInt? cs).map .int

def spelledLike (dated : Bool) (text : String) : Datum :=
  match constant? text with
  | some d => d
  | none =>
    let found := match text.toList with
      | '.' :: cs =>
        if Text.underscoresOk false false false cs then
          (Text.readFloat? (('.' :: cs).filter (· ≠ '_'))).map Datum.float
        else none
      | c :: _ =>
        if c.isDigit || c = '+' || c = '-' then
          ((if dated then Timestamp.read text else none).map Datum.time).or (number? text)
        else none
      | [] => none
    found.getD (.text text)

def isScalarTag (tag : String) : Bool :=
  tag ∈ ["!!bool", "!!int", "!!float", "!!null", "!!timestamp"]

/-- The datum of a tagged scalar; none if the scalar is not what its tag says. A whole number
below 2^63 may be tagged as a fraction. -/
def taggedDatum (tag text : String) : Option Datum :=
  if isScalarTag tag then
    let d := spelledLike (tag = "!!timestamp") text
    if d.tag = tag then some d
    else
      match d with
      | .int n => if tag = "!!float" && n < Text.halfSpan then some (.float (Float.ofInt n)) else none
      | _ => none
  else if tag = "!!binary" then (Text.Base64.decode? text).map Datum.ofBytes
  else some (.text text)

def scalarDatum (tag : Option String) (text : String) (style : Style) : Option Datum :=
  match tag with
  | some tag => taggedDatum tag text
  | none => some (if style = .plain then spelledLike true text else .text text)

namespace Node

def tag : Node → String
  | scalar _ (some tag) .. => tag
  | scalar _ none text style =>
    if style ≠ .plain then "!!str"
    else if text = "<<" then "!!merge"
    else (spelledLike true text).tag
  | sequence _ tag _ => tag.getD "!!seq"
  | mapping _ tag _ => tag.getD "!!map"
  | reference _ _ (some target) => target.tag
  | reference _ _ none => ""

def text : Node → String
  | scalar _ _ text _ => text
  | reference _ name _ => name
  | _ => ""

def isMerge : Node → Bool
  | scalar _ none text style => text = "<<" && style = .plain
  | scalar _ (some tag) text _ => text = "<<" && tag = "!!merge"
  | _ => false

end Node

end TreeWalk.Yaml
