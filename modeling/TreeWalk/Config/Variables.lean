import TreeWalk.Text.Space
import TreeWalk.Text.Utf8

/-!
# Environment variables and files of them

A file sets one variable a statement, as `NAME=value` or `NAME: value`, after an optional
`export`. A value ends with its line or at a comment, or it stands between quotes. Values other
than those between single quotes may refer to variables set earlier in the file.
-/

namespace TreeWalk

abbrev Variables := List (String × String)

namespace Variables

def set (vars : Variables) (name value : String) : Variables :=
  match vars with
  | [] => [(name, value)]
  | (other, old) :: rest =>
    if other = name then (name, value) :: rest else (other, old) :: set rest name value

def isGap (c : Char) : Bool :=
  c = '\t' || c = '\x0b' || c = '\x0c' || c = '\r' || c = ' ' || c = '\u0085' || c = '\u00a0'

/-- Whether a byte may stand in a name. Bytes past ASCII are taken as the letters, numbers and
blanks of Latin-1. -/
def isNameByte (b : UInt8) : Bool :=
  let c := Char.ofNat b.toNat
  c.isAlphanum || c = '_' || c = '.' || isGap c ||
    b ∈ [0xAA, 0xB2, 0xB3, 0xB5, 0xB9, 0xBA, 0xBC, 0xBD, 0xBE] ||
    (0xC0 ≤ b && b ≠ 0xD7 && b ≠ 0xF7)

def isNameChar (c : Char) : Bool := (String.singleton c).toUTF8.data.all isNameByte

def statement : (fuel : Nat) → List Char → List Char
  | 0, _ => []
  | fuel + 1, cs =>
    match cs.dropWhile Text.isSpace with
    | '#' :: rest => statement fuel (rest.dropWhile (· ≠ '\n'))
    | cs => cs

def skipExport (cs : List Char) : List Char :=
  match cs with
  | 'e' :: 'x' :: 'p' :: 'o' :: 'r' :: 't' :: c :: rest => if isGap c then rest.dropWhile isGap else cs
  | cs => cs

/-- Reads a name up to its mark. A text that ends before the mark is a value without a name. -/
def readName (cs : List Char) : Option (String × List Char) :=
  let cs := skipExport (cs.dropWhile isGap)
  let name := cs.takeWhile isNameChar
  match cs.dropWhile isNameChar with
  | [] => if cs.isEmpty then none else some ("", cs)
  | c :: rest =>
    if c = '=' || c = ':' then
      let name := (name.reverse.dropWhile Text.isSpace).reverse
      some (String.ofList name, rest.dropWhile isGap)
    else none

structure Reference where
  escaped : Bool
  text : List Char
  name : List Char

def skipOne (c : Char) : List Char → List Char × List Char
  | d :: cs => if c = d then ([d], cs) else ([], d :: cs)
  | [] => ([], [])

def isReferenceChar (c : Char) : Bool := ('A' ≤ c && c ≤ 'Z') || c.isDigit || c = '_'

/-- Reads what may follow a dollar sign: an opening parenthesis, an opening brace, a name and a
closing brace, each of which may be missing. -/
def readReference (escaped : Bool) (cs : List Char) : Reference × List Char :=
  let (paren, cs) := skipOne '(' cs
  let (opening, cs) := skipOne '\x7b' cs
  let name := cs.takeWhile isReferenceChar
  let (closing, cs) := skipOne '\x7d' (cs.dropWhile isReferenceChar)
  (⟨escaped, '$' :: paren ++ opening ++ name ++ closing, name⟩, cs)

/-- What stands for a reference: itself if it is escaped or has no name, else the value of its
variable, which is empty for a variable that is not set. -/
def expandReference (vars : Variables) (r : Reference) : List Char :=
  if r.escaped || r.name.isEmpty then r.text
  else ((vars.lookup (String.ofList r.name)).getD "").toList

def expand (vars : Variables) : (fuel : Nat) → List Char → List Char
  | 0, cs => cs
  | _ + 1, [] => []
  | fuel + 1, '\\' :: '$' :: cs =>
    let (r, rest) := readReference true cs
    expandReference vars r ++ expand vars fuel rest
  | fuel + 1, '$' :: cs =>
    let (r, rest) := readReference false cs
    expandReference vars r ++ expand vars fuel rest
  | fuel + 1, c :: cs => c :: expand vars fuel cs

def unescapeBreaks : List Char → List Char
  | '\\' :: c :: cs =>
    if c = '\n' then '\\' :: c :: unescapeBreaks cs
    else if c = 'n' then '\n' :: unescapeBreaks cs
    else if c = 'r' then '\r' :: unescapeBreaks cs
    else '\\' :: c :: unescapeBreaks cs
  | c :: cs => c :: unescapeBreaks cs
  | [] => []

/-- Drops the backslash before any character but a dollar sign. -/
def dropEscapes : List Char → List Char
  | '\\' :: c :: cs => if c = '$' then '\\' :: c :: dropEscapes cs else c :: dropEscapes cs
  | c :: cs => c :: dropEscapes cs
  | [] => []

/-- The part of a line before its last comment. A comment starts after a blank. -/
def beforeComment (line : List Char) : List Char :=
  cut line.reverse line
where
  cut : List Char → List Char → List Char
    | '#' :: c :: rest, line => if isGap c then (c :: rest).reverse else cut (c :: rest) line
    | _ :: rest, line => cut rest line
    | [], line => line

/-- The text up to a closing quote, and what follows it. A quote after a backslash does not
close. -/
def readQuoted (quote : Char) : (last : Char) → List Char → Option (List Char × List Char)
  | _, [] => none
  | last, c :: cs =>
    if c = quote && last ≠ '\\' then some ([], cs)
    else (readQuoted quote c cs).map fun (text, rest) => (c :: text, rest)

def isLineEnd (c : Char) : Bool := c = '\n' || c = '\r'

def readValue (vars : Variables) (cs : List Char) : Option (String × List Char) :=
  let plain :=
    let line := cs.takeWhile (!isLineEnd ·)
    let text := Text.trimList isGap (beforeComment line)
    some (String.ofList (expand vars (text.length + 1) text), cs.dropWhile (!isLineEnd ·))
  match cs with
  | quote :: rest =>
    if quote = '"' then
      (readQuoted quote quote rest).map fun (text, rest) =>
        let text := dropEscapes (unescapeBreaks (Text.trimList (· = quote) text))
        (String.ofList (expand vars (text.length + 1) text), rest)
    else if quote = '\x27' then
      (readQuoted quote quote rest).map fun (text, rest) =>
        (String.ofList (Text.trimList (· = quote) text), rest)
    else plain
  | [] => plain

def readStatements : (fuel : Nat) → Variables → List Char → Option Variables
  | 0, vars, _ => some vars
  | fuel + 1, vars, cs =>
    match statement (cs.length + 1) cs with
    | [] => some vars
    | cs => do
      let (name, cs) ← readName cs
      let (value, cs) ← readValue vars cs
      readStatements fuel (vars.set name value) cs

def joinBreaks : List Char → List Char
  | '\r' :: '\n' :: cs => '\n' :: joinBreaks cs
  | c :: cs => c :: joinBreaks cs
  | [] => []

/-- The variables that a file sets, none if it is malformed. -/
def read? (content : ByteArray) : Option Variables :=
  let cs := joinBreaks (Text.decode content).toList
  readStatements (cs.length + 1) [] cs

section Names

variable (vars : Variables) (name value : String)

theorem names_set : (vars.set name value).map Prod.fst =
    if name ∈ vars.map Prod.fst then vars.map Prod.fst else vars.map Prod.fst ++ [name] := by
  induction vars with
  | nil => simp [set]
  | cons p vars ih =>
    by_cases hp : p.1 = name
    · simp [set, hp]
    · have hne : ¬name = p.1 := fun heq => hp heq.symm
      simp only [set, hp, if_false, List.map_cons, ih, List.mem_cons, hne, false_or]
      split <;> simp

variable {vars}

theorem nodup_set (h : (vars.map Prod.fst).Nodup) : ((vars.set name value).map Prod.fst).Nodup := by
  rw [names_set]
  split
  · exact h
  · next hnew =>
    rw [List.nodup_append]
    exact ⟨h, by simp, fun n hn m hm => by rintro rfl; exact hnew (List.mem_singleton.mp hm ▸ hn)⟩

theorem nodup_readStatements {fuel : Nat} {cs : List Char} {file : Variables} (h : (vars.map Prod.fst).Nodup)
    (hread : readStatements fuel vars cs = some file) : (file.map Prod.fst).Nodup := by
  induction fuel generalizing vars cs with
  | zero => exact Option.some.inj hread ▸ h
  | succ fuel ih =>
    unfold readStatements at hread
    split at hread
    · exact Option.some.inj hread ▸ h
    · obtain ⟨⟨name, cs'⟩, -, hread⟩ := Option.bind_eq_some_iff.mp hread
      obtain ⟨⟨value, cs''⟩, -, hread⟩ := Option.bind_eq_some_iff.mp hread
      exact ih (nodup_set name value h) hread

theorem nodup_read? {content : ByteArray} {file : Variables} (h : read? content = some file) :
    (file.map Prod.fst).Nodup := by
  have hempty : (([] : Variables).map Prod.fst).Nodup := List.nodup_nil
  exact nodup_readStatements hempty h

end Names

/-- Adds the variables of a file that are not set yet. A variable without a name, or with a
value that holds a zero character, cannot be set. -/
def load (vars file : Variables) : Variables :=
  file.foldl (fun vars (name, value) =>
    if name = "" || '\x00' ∈ value.toList || (vars.lookup name).isSome then vars
    else vars ++ [(name, value)]) vars

end Variables

end TreeWalk
