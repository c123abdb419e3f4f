import TreeWalk.Text.Printable
import TreeWalk.Text.Utf8

/-!
# Quoted text

Text between double quotes. Printable characters stand for themselves; a quote, a backslash
and everything else is escaped, a byte outside any character by its two hexadecimal digits.
-/

namespace TreeWalk.Text

/-- The lower-case hexadecimal digits of `n`, filled with zeros up to `width`. -/
def hex (width n : Nat) : String :=
  let digits := Nat.toDigits 16 n
  String.ofList (List.replicate (width - digits.length) '0' ++ digits)

/-- How one character stands between quotes. -/
def quoteChar (c : Char) : String :=
  if c = '"' then "\\\""
  else if c = '\\' then "\\\\"
  else if isPrintable c then String.singleton c
  else
    match c.toNat with
    | 0x07 => "\\a"
    | 0x08 => "\\b"
    | 0x09 => "\\t"
    | 0x0A => "\\n"
    | 0x0B => "\\v"
    | 0x0C => "\\f"
    | 0x0D => "\\r"
    | n =>
      if n < 0x80 then "\\x" ++ hex 2 n
      else if n < 0x10000 then "\\u" ++ hex 4 n
      else "\\U" ++ hex 8 n

def Piece.quote : Piece → String
  | .char c => quoteChar c
  | .stray b => "\\x" ++ hex 2 b.toNat

def quoteBytes (bytes : ByteArray) : String :=
  "\"" ++ String.join ((pieces bytes.data.toList).map Piece.quote) ++ "\""

def quote (s : String) : String := "\"" ++ String.join (s.toList.map quoteChar) ++ "\""

end TreeWalk.Text
