import TreeWalk.Json.Basic
import TreeWalk.Text.Quoted

/-!
# Writing JSON

The compact form of a value: no blanks, members in the order given. Characters that could be
taken for markup are escaped, as are the two line separators beyond ASCII.
-/

namespace TreeWalk.Json

def writeChar (c : Char) : String :=
  match c with
  | '"' => "\\\""
  | '\\' => "\\\\"
  | '\x08' => "\\b"
  | '\x0c' => "\\f"
  | '\n' => "\\n"
  | '\r' => "\\r"
  | '\t' => "\\t"
  | c =>
    if c.toNat < 0x20 || c = '<' || c = '>' || c = '&' || c.toNat = 0x2028 || c.toNat = 0x2029 then
      "\\u" ++ Text.hex 4 c.toNat
    else String.singleton c

def writeString (s : String) : String :=
  "\"" ++ s.foldl (fun acc c => acc ++ writeChar c) "" ++ "\""

mutual

def writeTo (acc : String) : Json → String
  | .null => acc ++ "null"
  | .bool b => acc ++ (if b then "true" else "false")
  | .number spelling => acc ++ spelling
  | .string s => acc ++ writeString s
  | .array items => writeItems (acc ++ "[") true items ++ "]"
  | .object members => writeMembers (acc ++ "\x7b") true members ++ "\x7d"

def writeItems (acc : String) (first : Bool) : List Json → String
  | [] => acc
  | j :: rest => writeItems (writeTo (if first then acc else acc ++ ",") j) false rest

def writeMembers (acc : String) (first : Bool) : List (String × Json) → String
  | [] => acc
  | (k, j) :: rest =>
    writeMembers (writeTo ((if first then acc else acc ++ ",") ++ writeString k ++ ":") j) false rest

end

def write (j : Json) : String := writeTo "" j

end TreeWalk.Json
