import TreeWalk.Text.Utf8

/-!
# Tokens of a YAML text

A text is cut into tokens. Blocks have no brackets of their own, so tokens for their start and
end come from the indentation. A key need not be announced either: when a colon shows that what
stood before it was a key, the token for it is put in afterwards.
-/

namespace TreeWalk.Yaml

inductive Style where
  | plain
  | quoted
  | block
deriving DecidableEq, Repr, Inhabited

inductive Symbol where
  | streamEnd
  | version (major minor : Nat)
  | tagPrefix (handle text : String)
  | documentStart
  | documentEnd
  | blockSequenceStart
  | blockMappingStart
  | blockEnd
  | flowSequenceStart
  | flowSequenceEnd
  | flowMappingStart
  | flowMappingEnd
  | blockEntry
  | flowEntry
  | key
  | value
  | reference (name : String)
  | anchor (name : String)
  | tag (handle suffix : String)
  | scalar (text : String) (style : Style)
deriving DecidableEq, Repr, Inhabited

structure Token where
  symbol : Symbol
  line : Nat
deriving DecidableEq, Repr, Inhabited

def isBlank (c : Char) : Bool := c = ' ' || c = '\t'

def isBreak (c : Char) : Bool :=
  c = '\n' || c = '\r' || c = '\u0085' || c = '\u2028' || c = '\u2029'

/-- Whether a blank, a line break or the end comes next. -/
def atBlank : List Char → Bool
  | [] => true
  | c :: _ => isBlank c || isBreak c

def atLineEnd : List Char → Bool
  | [] => true
  | c :: _ => isBreak c

def isNameChar (c : Char) : Bool := c.isAlphanum || c = '_' || c = '-'

def isAllowed (c : Char) : Bool :=
  let n := c.toNat
  n = 0x09 || n = 0x0A || n = 0x0D || (0x20 ≤ n && n ≤ 0x7E) || n = 0x85 ||
    (0xA0 ≤ n && n ≤ 0xD7FF) || (0xE000 ≤ n && n ≤ 0xFFFD) || 0x10000 ≤ n

structure Cursor where
  rest : List Char
  line : Nat
  column : Nat
  index : Nat
deriving Inhabited

namespace Cursor

def ofText (text : List Char) : Cursor := ⟨text, 1, 0, 0⟩

def skip (c : Cursor) : Cursor :=
  { c with rest := c.rest.tail, column := c.column + 1, index := c.index + 1 }

def skipN : Nat → Cursor → Cursor
  | 0, c => c
  | n + 1, c => skipN n c.skip

/-- Past one line break, and the text it counts as. -/
def readBreak (c : Cursor) : List Char × Cursor :=
  match c.rest with
  | '\r' :: '\n' :: rest => (['\n'], ⟨rest, c.line + 1, 0, c.index + 2⟩)
  | b :: rest =>
    if b = '\u2028' || b = '\u2029' then ([b], ⟨rest, c.line + 1, 0, c.index + 1⟩)
    else if isBreak b then (['\n'], ⟨rest, c.line + 1, 0, c.index + 1⟩)
    else ([], c)
  | [] => ([], c)

def skipWhile (p : Char → Bool) (c : Cursor) : Cursor :=
  skipN (c.rest.takeWhile p).length c

def takeWhile (p : Char → Bool) (c : Cursor) : List Char × Cursor :=
  (c.rest.takeWhile p, c.skipWhile p)

def skipToLineEnd (c : Cursor) : Cursor := c.skipWhile fun x => !isBreak x

def atDocumentMark (c : Cursor) : Bool :=
  c.column = 0 &&
    match c.rest with
    | '-' :: '-' :: '-' :: rest => atBlank rest
    | '.' :: '.' :: '.' :: rest => atBlank rest
    | _ => false

/-- Past a comment and the comment lines that follow it, up to the end of the last line. -/
def skipComments (c : Cursor) : Cursor :=
  go c.rest.length c
where
  go : Nat → Cursor → Cursor
    | 0, c => c
    | fuel + 1, c =>
      let c := c.skipToLineEnd
      match c.rest.dropWhile fun x => isBlank x || isBreak x with
      | '#' :: _ => go fuel (toComment c.rest.length c)
      | _ => c
  toComment : Nat → Cursor → Cursor
    | 0, c => c
    | fuel + 1, c =>
      match c.rest with
      | [] => c
      | x :: _ =>
        if isBreak x then toComment fuel c.readBreak.2
        else if isBlank x then toComment fuel c.skip
        else c

def skipLineComment (c : Cursor) : Cursor :=
  match c.rest.dropWhile isBlank with
  | '#' :: _ => c.skipToLineEnd
  | _ => c

end Cursor

structure Gap where
  broken : Bool
  blanks : List Char
  first : List Char
  more : List Char
deriving Inhabited

namespace Gap

def none : Gap := ⟨false, [], [], []⟩

/-- What the gap counts as: a single line break becomes a blank, of several one is dropped. -/
def text (g : Gap) : List Char :=
  if g.broken then
    match g.first with
    | '\n' :: _ => if g.more.isEmpty then [' '] else g.more
    | first => first ++ g.more
  else g.blanks

/-- Reads blanks and line breaks. With `indent`, a tab may not stand to the left of that column
at the start of a line. -/
def read (indent : Option Nat) : (fuel : Nat) → Gap → Cursor → Option (Gap × Cursor)
  | 0, g, c => some (g, c)
  | fuel + 1, g, c =>
    match c.rest with
    | [] => some (g, c)
    | x :: _ =>
      if isBlank x then
        if g.broken && x = '\t' && c.column < indent.getD 0 then Option.none
        else read indent fuel (if g.broken then g else { g with blanks := g.blanks ++ [x] }) c.skip
      else if isBreak x then
        let (brk, c) := c.readBreak
        let g := if g.broken then { g with more := g.more ++ brk } else ⟨true, [], brk, []⟩
        read indent fuel g c
      else some (g, c)

end Gap

/-! ## Scalars -/

def endsPlain (inFlow : Bool) : List Char → Bool
  | [] => true
  | c :: rest =>
    isBlank c || isBreak c || (c = ':' && atBlank rest) ||
      (inFlow && (c = ',' || c = '?' || c = '[' || c = ']' || c = '{' || c = '}'))

def plainWord (inFlow : Bool) : List Char → List Char
  | [] => []
  | c :: rest => if endsPlain inFlow (c :: rest) then [] else c :: plainWord inFlow rest

/-- A plain scalar, where it ends, and whether its last gap held a line break. -/
def scanPlain (inFlow : Bool) (indent : Nat) :
    (fuel : Nat) → List Char → Gap → Cursor → Option (List Char × Cursor × Bool)
  | 0, text, g, c => some (text, c, g.broken)
  | fuel + 1, text, g, c =>
    if c.atDocumentMark || c.rest.head? = some '#' then some (text, c, g.broken)
    else
      let word := plainWord inFlow c.rest
      let c := Cursor.skipN word.length c
      let (text, g) := if word.isEmpty then (text, g) else (text ++ g.text ++ word, Gap.none)
      match c.rest with
      | [] => some (text, c, g.broken)
      | x :: _ =>
        if isBlank x || isBreak x then
          match g.read (some indent) c.rest.length c with
          | none => none
          | some (g, c) =>
            if !inFlow && c.column < indent then some (text, c, g.broken)
            else scanPlain inFlow indent fuel text g c
        else some (text, c, g.broken)

def hexValue? (c : Char) : Option Nat :=
  if '0' ≤ c && c ≤ '9' then some (c.toNat - '0'.toNat)
  else if 'a' ≤ c && c ≤ 'f' then some (c.toNat - 'a'.toNat + 10)
  else if 'A' ≤ c && c ≤ 'F' then some (c.toNat - 'A'.toNat + 10)
  else none

def hexNumber? : Nat → List Char → Option Nat
  | acc, [] => some acc
  | acc, c :: cs =>
    match hexValue? c with
    | some d => hexNumber? (acc * 16 + d) cs
    | none => none

/-- What a backslash and the characters after it stand for, and how many they are. -/
def escape? : List Char → Option (Char × Nat)
  | [] => none
  | c :: rest =>
    let code := fun digits =>
      if rest.length < digits then none
      else
        match hexNumber? 0 (rest.take digits) with
        | some n =>
          if (0xD800 ≤ n && n ≤ 0xDFFF) || 0x10FFFF < n then none
          else some (Char.ofNat n, digits + 1)
        | none => none
    match c with
    | '0' => some ('\x00', 1)
    | 'a' => some ('\x07', 1)
    | 'b' => some ('\x08', 1)
    | 't' | '\t' => some ('\t', 1)
    | 'n' => some ('\n', 1)
    | 'v' => some ('\x0b', 1)
    | 'f' => some ('\x0c', 1)
    | 'r' => some ('\r', 1)
    | 'e' => some ('\x1b', 1)
    | ' ' => some (' ', 1)
    | '"' => some ('"', 1)
    | '\x27' => some ('\x27', 1)
    | '\\' => some ('\\', 1)
    | 'N' => some ('\u0085', 1)
    | '_' => some ('\u00a0', 1)
    | 'L' => some ('\u2028', 1)
    | 'P' => some ('\u2029', 1)
    | 'x' => code 2
    | 'u' => code 4
    | 'U' => code 8
    | _ => none

/-- The part of a quoted scalar up to a gap or the closing quote. The flag says whether it ends in
an escaped line break. -/
def quotedWord (single : Bool) : (fuel : Nat) → List Char → Cursor → Option (List Char × Cursor × Bool)
  | 0, text, c => some (text, c, false)
  | fuel + 1, text, c =>
    match c.rest with
    | [] => some (text, c, false)
    | x :: rest =>
      if isBlank x || isBreak x then some (text, c, false)
      else if single then
        if x = '\x27' then
          match rest with
          | '\x27' :: _ => quotedWord single fuel (text ++ ['\x27']) c.skip.skip
          | _ => some (text, c, false)
        else quotedWord single fuel (text ++ [x]) c.skip
      else if x = '"' then some (text, c, false)
      else if x = '\\' then
        match rest with
        | y :: _ =>
          if isBreak y then some (text, c.skip.readBreak.2, true)
          else
            match escape? rest with
            | some (e, n) => quotedWord single fuel (text ++ [e]) (Cursor.skipN (n + 1) c)
            | none => none
        | [] => none
      else quotedWord single fuel (text ++ [x]) c.skip

def scanQuoted (single : Bool) : (fuel : Nat) → List Char → Cursor → Option (List Char × Cursor)
  | 0, _, _ => none
  | fuel + 1, text, c =>
    if c.atDocumentMark || c.rest.isEmpty then none
    else
      match quotedWord single (c.rest.length + 1) text c with
      | none => none
      | some (text, c, broken) =>
        let quote := if single then '\x27' else '"'
        if c.rest.head? = some quote then some (text, c.skip)
        else
          match ({ Gap.none with broken } : Gap).read none c.rest.length c with
          | none => none
          | some (g, c) => scanQuoted single fuel (text ++ g.text) c

inductive Chomp where
  | strip
  | clip
  | keep
deriving DecidableEq, Repr

def blockHeader (c : Cursor) : Option (Chomp × Nat × Cursor) :=
  let chomp? : Char → Option Chomp := fun x =>
    if x = '+' then some .keep else if x = '-' then some .strip else none
  let digit? : List Char → Option Nat := fun
    | x :: _ => if x.isDigit then some (x.toNat - '0'.toNat) else none
    | [] => none
  let first := c.rest.head?.bind chomp?
  let c := if first.isSome then c.skip else c
  match digit? c.rest with
  | some 0 => none
  | some n =>
    let c := c.skip
    match first with
    | some chomp => some (chomp, n, c)
    | none =>
      match c.rest.head?.bind chomp? with
      | some chomp => some (chomp, n, c.skip)
      | none => some (.clip, n, c)
  | none => some (first.getD .clip, 0, c)

/-- Reads indentation and empty lines of a block scalar: the line breaks, the indentation seen and
where a line with text starts. Indentation 0 is one not yet known. -/
def blockBreaks (indent : Nat) :
    (fuel : Nat) → (widest : Nat) → List Char → Cursor → Option (List Char × Nat × Cursor)
  | 0, widest, breaks, c => some (breaks, widest, c)
  | fuel + 1, widest, breaks, c =>
    let spaces := (c.rest.takeWhile (· = ' ')).length
    let c := Cursor.skipN (if indent = 0 then spaces else min spaces (indent - c.column)) c
    let widest := max widest c.column
    match c.rest with
    | [] => some (breaks, widest, c)
    | x :: _ =>
      if x = '\t' && (indent = 0 || c.column < indent) then none
      else if isBreak x then
        let (brk, c) := c.readBreak
        blockBreaks indent fuel widest (breaks ++ brk) c
      else some (breaks, widest, c)

/-- The lines of a block scalar: its text, the last line break and those after it. -/
def blockLines (literal : Bool) (indent : Nat) :
    (fuel : Nat) → (text leading trailing : List Char) → (leadingBlank : Bool) → Cursor →
      Option (List Char × List Char × List Char × Cursor)
  | 0, text, leading, trailing, _, c => some (text, leading, trailing, c)
  | fuel + 1, text, leading, trailing, leadingBlank, c =>
    match c.rest with
    | [] => some (text, leading, trailing, c)
    | x :: _ =>
      if c.column ≠ indent then some (text, leading, trailing, c)
      else
        let blank := isBlank x
        let folds := !literal && !leadingBlank && !blank && leading.head? = some '\n'
        let joint := if folds then (if trailing.isEmpty then [' '] else []) else leading
        let (line, c) := c.takeWhile fun y => !isBreak y
        let (brk, c) := c.readBreak
        match blockBreaks indent (c.rest.length + 1) 0 [] c with
        | none => none
        | some (breaks, _, c) =>
          blockLines literal indent fuel (text ++ joint ++ trailing ++ line) brk breaks blank c

def scanBlock (literal : Bool) (outer : Int) (c : Cursor) : Option (List Char × Cursor) := do
  let (chomp, increment, c) ← blockHeader c
  let c := c.skipWhile isBlank
  let c := if c.rest.head? = some '#' then c.skipToLineEnd else c
  guard (atLineEnd c.rest)
  let c := c.readBreak.2
  let given := if increment = 0 then 0 else (max outer 0).toNat + increment
  let (breaks, widest, c) ← blockBreaks given (c.rest.length + 1) 0 [] c
  let indent := if given = 0 then max (max widest (outer + 1).toNat) 1 else given
  let (text, leading, trailing, c) ← blockLines literal indent (c.rest.length + 1) [] [] breaks false c
  let text := if chomp = .strip then text else text ++ leading
  return (if chomp = .keep then text ++ trailing else text, c)

/-! ## Tags and directives -/

def isUriChar (c : Char) : Bool :=
  isNameChar c || c ∈ [';', '/', '?', ':', '@', '&', '=', '+', '$', '.', '!', '~', '*', '\x27', '(', ')']

def scanUri (verbatim : Bool) : (fuel : Nat) → List UInt8 → Cursor → Option (List UInt8 × Cursor)
  | 0, acc, c => some (acc, c)
  | fuel + 1, acc, c =>
    match c.rest with
    | '%' :: a :: b :: _ =>
      match hexNumber? 0 [a, b] with
      | some n => scanUri verbatim fuel (acc ++ [n.toUInt8]) (Cursor.skipN 3 c)
      | none => none
    | '%' :: _ => none
    | x :: _ =>
      if isUriChar x || (verbatim && (x = ',' || x = '[' || x = ']')) then
        scanUri verbatim fuel (acc ++ String.utf8EncodeChar x) c.skip
      else some (acc, c)
    | [] => some (acc, c)

def uriText (bytes : List UInt8) : Option String := String.fromUTF8? bytes.toByteArray

def scanHandle (c : Cursor) : Option (List Char × Cursor) :=
  match c.rest with
  | '!' :: _ =>
    let (name, c) := c.skip.takeWhile isNameChar
    if c.rest.head? = some '!' then some ('!' :: name ++ ['!'], c.skip) else some ('!' :: name, c)
  | _ => none

def scanTag (c : Cursor) : Option (Symbol × Cursor) := do
  let (symbol, c) ← match c.rest with
    | '!' :: '<' :: _ => do
      let (uri, c) ← scanUri true (c.rest.length) [] c.skip.skip
      guard (!uri.isEmpty && c.rest.head? = some '>')
      pure (Symbol.tag "" (← uriText uri), c.skip)
    | _ => do
      let (handle, c) ← scanHandle c
      if 1 < handle.length && handle.getLast? = some '!' then do
        let (uri, c) ← scanUri false (c.rest.length) [] c
        guard (!uri.isEmpty)
        pure (Symbol.tag (String.ofList handle) (← uriText uri), c)
      else do
        let (uri, c) ← scanUri false (c.rest.length) (handle.tail.flatMap String.utf8EncodeChar) c
        let suffix ← uriText uri
        pure (if suffix = "" then Symbol.tag "" "!" else Symbol.tag "!" suffix, c)
  guard (atBlank c.rest)
  return (symbol, c)

def scanName (c : Cursor) : Option (String × Cursor) :=
  let (name, c) := c.skip.takeWhile isNameChar
  let ends := atBlank c.rest || c.rest.head?.any (['?', ':', ',', ']', '}', '%', '@', '\x60'].contains ·)
  if name.isEmpty || !ends then none else some (String.ofList name, c)

def digitsValue (ds : List Char) : Nat := ds.foldl (fun n d => n * 10 + (d.toNat - '0'.toNat)) 0

def scanDirective (c : Cursor) : Option (Symbol × Cursor) := do
  let (name, c) := c.skip.takeWhile isNameChar
  guard (!name.isEmpty && atBlank c.rest)
  let c := c.skipWhile isBlank
  let (symbol, c) ←
    if name = ['Y', 'A', 'M', 'L'] then do
      let (major, c) := c.takeWhile Char.isDigit
      guard (!major.isEmpty && major.length ≤ 9 && c.rest.head? = some '.')
      let (minor, c) := c.skip.takeWhile Char.isDigit
      guard (!minor.isEmpty && minor.length ≤ 9)
      pure (Symbol.version (digitsValue major) (digitsValue minor), c)
    else if name = ['T', 'A', 'G'] then do
      let (handle, c) ← scanHandle c
      guard (handle = ['!'] || (1 < handle.length && handle.getLast? = some '!'))
      guard (c.rest.head?.any isBlank)
      let c := c.skipWhile isBlank
      let (uri, c) ← scanUri true c.rest.length [] c
      guard (!uri.isEmpty && atBlank c.rest)
      pure (Symbol.tagPrefix (String.ofList handle) (← uriText uri), c)
    else none
  let c := c.skipWhile isBlank
  let c := if c.rest.head? = some '#' then c.skipToLineEnd else c
  guard (atLineEnd c.rest)
  return (symbol, c.readBreak.2)

/-! ## The scanner -/

/-- Something that turns out to be a key if a colon follows on its line. -/
structure PendingKey where
  required : Bool
  /-- The number of its first token. -/
  number : Nat
  line : Nat
  column : Nat
  index : Nat
deriving Inhabited

structure Scanner where
  cursor : Cursor
  flow : Nat
  /-- The column of the innermost block, and those of the blocks around it. -/
  indent : Int
  indents : List Int
  keyAllowed : Bool
  /-- The pending key of each flow level, innermost first. -/
  keys : List (Option PendingKey)
  tokens : Array Token
deriving Inhabited

namespace Scanner

def start (text : List Char) : Scanner :=
  { cursor := .ofText text, flow := 0, indent := -1, indents := [], keyAllowed := true,
    keys := [none], tokens := #[] }

def push (s : Scanner) (symbol : Symbol) : Scanner :=
  { s with tokens := s.tokens.push ⟨symbol, s.cursor.line⟩ }

def insert (s : Scanner) (number : Nat) (t : Token) : Scanner :=
  { s with tokens := ((s.tokens.extract 0 number).push t) ++ s.tokens.extract number s.tokens.size }

def dropKey (s : Scanner) : Option Scanner :=
  match s.keys with
  | some key :: keys => if key.required then none else some { s with keys := none :: keys }
  | _ => some s

def noteKey (s : Scanner) : Option Scanner :=
  if s.keyAllowed then do
    let c := s.cursor
    let required := s.flow = 0 && s.indent = c.column
    let s ← s.dropKey
    return { s with keys := some ⟨required, s.tokens.size, c.line, c.column, c.index⟩ :: s.keys.tail }
  else some s

def unroll (s : Scanner) (column : Int) : Scanner :=
  if s.flow > 0 then s else go s.indents.length s
where
  go : Nat → Scanner → Scanner
    | 0, s => s
    | fuel + 1, s =>
      match s.indents with
      | outer :: indents =>
        if column < s.indent then go fuel ({ s with indent := outer, indents }.push .blockEnd) else s
      | [] => s

def roll (s : Scanner) (column number line : Nat) (symbol : Symbol) : Scanner :=
  if s.flow > 0 || (column : Int) ≤ s.indent then s
  else
    { s with indent := column, indents := s.indent :: s.indents }.insert number ⟨symbol, line⟩

/-- Past white space and comments. A new line allows keys outside flow brackets; there a tab may
not stand where a key may. -/
def skipSpace (s : Scanner) : Scanner :=
  go (s.cursor.rest.length + 1) s
where
  go : Nat → Scanner → Scanner
    | 0, s => s
    | fuel + 1, s =>
      let c := s.cursor
      let c := if c.column = 0 && c.rest.head? = some '\ufeff' then c.skip else c
      let c := c.skipWhile fun x => x = ' ' || (x = '\t' && (s.flow > 0 || !s.keyAllowed))
      let c := if c.rest.head? = some '#' then c.skipComments else c
      match c.rest with
      | [] => { s with cursor := c }
      | x :: _ =>
        if isBreak x then
          go fuel { s with cursor := c.readBreak.2, keyAllowed := s.keyAllowed || s.flow = 0 }
        else { s with cursor := c }

def advance (s : Scanner) (n : Nat) : Scanner := { s with cursor := Cursor.skipN n s.cursor }

def leaveBlocks (s : Scanner) : Option Scanner := do
  let s ← (s.unroll (-1)).dropKey
  return { s with keyAllowed := false }

def fetchValue (s : Scanner) : Option Scanner :=
  let c := s.cursor
  match s.keys with
  | some key :: keys =>
    let stale := key.line < c.line || key.index + 1024 < c.index
    if stale then if key.required then none else complex { s with keys := none :: keys }
    else
      let s := s.insert key.number ⟨.key, key.line⟩
      let s := s.roll key.column key.number key.line .blockMappingStart
      some (({ s with keys := none :: keys, keyAllowed := false }.push .value).advance 1)
  | _ => complex s
where
  complex (s : Scanner) : Option Scanner :=
    if s.flow = 0 then
      if !s.keyAllowed then none
      else
        let c := s.cursor
        let s := s.roll c.column s.tokens.size c.line .blockMappingStart
        some (({ s with keyAllowed := true }.push .value).advance 1)
    else some (({ s with keyAllowed := false }.push .value).advance 1)

def openFlow (s : Scanner) (symbol : Symbol) : Option Scanner := do
  let s ← s.noteKey
  return ({ s with keys := none :: s.keys, flow := s.flow + 1, keyAllowed := true }.push symbol).advance 1

def closeFlow (s : Scanner) (symbol : Symbol) : Option Scanner := do
  let s ← s.dropKey
  let s := if s.flow > 0 then { s with flow := s.flow - 1, keys := s.keys.tail } else s
  return ({ s with keyAllowed := false }.push symbol).advance 1

def fetchBlockEntry (s : Scanner) : Option Scanner := do
  guard (s.flow > 0 || s.keyAllowed)
  let c := s.cursor
  let s ← (s.roll c.column s.tokens.size c.line .blockSequenceStart).dropKey
  return ({ s with keyAllowed := true }.push .blockEntry).advance 1

def fetchKey (s : Scanner) : Option Scanner := do
  guard (s.flow > 0 || s.keyAllowed)
  let c := s.cursor
  let s ← (s.roll c.column s.tokens.size c.line .blockMappingStart).dropKey
  return ({ s with keyAllowed := s.flow = 0 }.push .key).advance 1

def fetchKeyLike (s : Scanner) (scan : Cursor → Option (Symbol × Cursor)) : Option Scanner := do
  let s ← s.noteKey
  let (symbol, cursor) ← scan s.cursor
  return { ({ s with keyAllowed := false }.push symbol) with cursor }

def fetchBlockScalar (s : Scanner) (literal : Bool) : Option Scanner := do
  let s ← s.dropKey
  let (text, cursor) ← scanBlock literal s.indent s.cursor.skip
  return { ({ s with keyAllowed := true }.push (.scalar (String.ofList text) .block)) with cursor }

def fetchQuoted (s : Scanner) (single : Bool) : Option Scanner :=
  s.fetchKeyLike fun c => do
    let (text, c) ← scanQuoted single (c.rest.length + 1) [] c.skip
    return (.scalar (String.ofList text) .quoted, c)

def fetchPlain (s : Scanner) : Option Scanner := do
  let s ← s.noteKey
  let c := s.cursor
  let (text, cursor, broken) ←
    scanPlain (s.flow > 0) (s.indent + 1).toNat (c.rest.length + 1) [] .none c
  let s := s.push (.scalar (String.ofList text) .plain)
  return { s with cursor, keyAllowed := broken }

def startsPlain (inFlow : Bool) : List Char → Bool
  | [] => false
  | c :: rest =>
    !(isBlank c || isBreak c ||
        c ∈ ['-', '?', ':', ',', '[', ']', '{', '}', '#', '&', '*', '!', '|', '>', '\x27', '"', '%', '@',
          '\x60']) ||
      (c = '-' && !rest.head?.any isBlank) ||
      (!inFlow && (c = '?' || c = ':') && !atBlank rest)

def next (s : Scanner) : Option (Scanner × Bool) :=
  let s := s.skipSpace
  let s := s.unroll s.cursor.column
  let c := s.cursor
  let go := fun (r : Option Scanner) => r.map fun s => (s, false)
  let commented := fun (r : Option Scanner) =>
    r.map fun s => ({ s with cursor := s.cursor.skipLineComment }, false)
  match c.rest with
  | [] => s.leaveBlocks.map fun s => (s.push .streamEnd, true)
  | x :: rest =>
    if c.column = 0 && x = '%' then go do
      let s ← s.leaveBlocks
      let (symbol, cursor) ← scanDirective s.cursor
      return { s.push symbol with cursor }
    else if c.atDocumentMark then go do
      let s ← s.leaveBlocks
      return (s.push (if x = '-' then .documentStart else .documentEnd)).advance 3
    else if x = '[' then commented (s.openFlow .flowSequenceStart)
    else if x = '{' then commented (s.openFlow .flowMappingStart)
    else if x = ']' then commented (s.closeFlow .flowSequenceEnd)
    else if x = '}' then commented (s.closeFlow .flowMappingEnd)
    else if x = ',' then commented do
      let s ← s.dropKey
      return ({ s with keyAllowed := true }.push .flowEntry).advance 1
    else if x = '-' && atBlank rest then go s.fetchBlockEntry
    else if x = '?' && (s.flow > 0 || atBlank rest) then commented s.fetchKey
    else if x = ':' && (s.flow > 0 || atBlank rest) then commented s.fetchValue
    else if x = '*' then
      commented (s.fetchKeyLike fun c => (scanName c).map fun (name, c) => (.reference name, c))
    else if x = '&' then
      commented (s.fetchKeyLike fun c => (scanName c).map fun (name, c) => (.anchor name, c))
    else if x = '!' then commented (s.fetchKeyLike scanTag)
    else if x = '|' && s.flow = 0 then go (s.fetchBlockScalar true)
    else if x = '>' && s.flow = 0 then go (s.fetchBlockScalar false)
    else if x = '\x27' then commented (s.fetchQuoted true)
    else if x = '"' then commented (s.fetchQuoted false)
    else if startsPlain (s.flow > 0) c.rest then
      s.fetchPlain.map fun s =>
        (if s.keyAllowed then s else { s with cursor := s.cursor.skipLineComment }, false)
    else none

def run : (fuel : Nat) → Scanner → List Token
  | 0, s => s.tokens.toList
  | fuel + 1, s =>
    match s.next with
    | some (s, true) => s.tokens.toList
    | some (s, false) => run fuel s
    | none => s.tokens.toList

end Scanner

/-- The tokens of a text. Without a fault the last one marks the end of the text; with one, the
tokens before the fault are all there is. -/
def tokens (text : String) : List Token :=
  let chars := text.toList
  let chars := if chars.head? = some '\ufeff' then chars.tail else chars
  if chars.all isAllowed then Scanner.run (chars.length + 2) (.start chars) else []

end TreeWalk.Yaml
