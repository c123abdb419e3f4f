import TreeWalk.Text.Quoted
import TreeWalk.Text.Space

/-!
# Log records

A record has a level, a message and named attributes, and is written as one line of
`key=value` pairs. How long something took and what time it is come from outside.
-/

namespace TreeWalk.Log

inductive Level where
  | debug
  | info
  | warn
  | error
deriving DecidableEq, Repr, Inhabited

namespace Level

def all : List Level := [debug, info, warn, error]

/-- The weight of a level; a logger passes what weighs at least as much as its own level. -/
def weight : Level → Int
  | debug => -4
  | info => 0
  | warn => 4
  | error => 8

def label : Level → String
  | debug => "DEBUG"
  | info => "INFO"
  | warn => "WARN"
  | error => "ERROR"

/-- Reads the name of a level, blanks around it and letter case ignored. -/
def ofName? (name : String) : Option Level :=
  match Text.lower (Text.trim name) with
  | "debug" => some debug
  | "info" => some info
  | "warn" | "warning" => some warn
  | "error" => some error
  | _ => none

def enabledAt (l threshold : Level) : Bool := threshold.weight ≤ l.weight

end Level

inductive AttrValue where
  | text (bytes : ByteArray)
  | elapsed
deriving Inhabited

structure Record where
  level : Level
  message : String
  attrs : List (String × AttrValue)
deriving Inhabited

def attr (key value : String) : String × AttrValue := (key, .text value.toUTF8)

def debug (message : String) (attrs : List (String × AttrValue)) : Record := ⟨.debug, message, attrs⟩

def info (message : String) (attrs : List (String × AttrValue)) : Record := ⟨.info, message, attrs⟩

structure Clock where
  now : String
  elapsed : String

def quotedFor (c : Char) : Bool :=
  if c.toNat < 0x80 then c.toNat ≤ 0x20 || c = '"' || c = '='
  else c = Text.replacement || !Text.isPrintable c

/-- Values that a line shows between quotes: empty ones and those with a blank, a quote, an equals
sign, an ASCII control character other than delete, or beyond ASCII anything not printable. -/
def needsQuotes (bytes : ByteArray) : Bool :=
  bytes.isEmpty || (Text.pieces bytes.data.toList).any fun
    | .char c => quotedFor c
    | .stray _ => true

def showValue (clock : Clock) : AttrValue → String
  | .text bytes => if needsQuotes bytes then Text.quoteBytes bytes else Text.decode bytes
  | .elapsed => clock.elapsed

def Record.line (clock : Clock) (r : Record) : String :=
  let pairs := ("level", AttrValue.text r.level.label.toUTF8) ::
    ("msg", .text r.message.toUTF8) :: r.attrs
  let written := pairs.map fun (key, value) => key ++ "=" ++ showValue clock value
  String.intercalate " " (("time=" ++ clock.now) :: written) ++ "\n"

end TreeWalk.Log
