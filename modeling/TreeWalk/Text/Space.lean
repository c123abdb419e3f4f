/-!
# Blanks and letter case

White space as Unicode defines it, and the letter case of ASCII words. Two letters outside
ASCII share their small or folded form with an ASCII letter, and both are accounted for.
-/

namespace TreeWalk.Text

def isSpace (c : Char) : Bool :=
  let n := c.toNat
  (0x09 ≤ n && n ≤ 0x0D) || n == 0x20 || n == 0x85 || n == 0xA0 || n == 0x1680 ||
    (0x2000 ≤ n && n ≤ 0x200A) || n == 0x2028 || n == 0x2029 || n == 0x202F ||
    n == 0x205F || n == 0x3000

/-- Drops what satisfies `p` from both ends. -/
def trimList (p : Char → Bool) (cs : List Char) : List Char :=
  ((cs.dropWhile p).reverse.dropWhile p).reverse

def trim (s : String) : String := String.ofList (trimList isSpace s.toList)

def isBlank (s : String) : Bool := s.toList.all isSpace

/-- The small form of a letter as far as it is an ASCII letter: besides `A` to `Z` these are the
capital I with a dot above and the Kelvin sign. Other characters stay. -/
def lowerChar (c : Char) : Char :=
  if c = '\u0130' then 'i' else if c = '\u212A' then 'k' else c.toLower

def lower (s : String) : String := String.ofList (s.toList.map lowerChar)

/-- The small ASCII letter a character is equal to when case is ignored: besides the ASCII
letters these are the long s and the Kelvin sign. Other characters stay. -/
def foldChar (c : Char) : Char :=
  if c = '\u017F' then 's' else if c = '\u212A' then 'k' else c.toLower

def foldsTo (s word : String) : Bool := s.toList.map foldChar == word.toList.map Char.toLower

end TreeWalk.Text
