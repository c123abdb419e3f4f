import TreeWalk.Yaml.Token

/-!
# Nodes of a YAML document

The first document of a text as a tree. Tags are in their short form, where `!!` stands for the
common tags; a node without a tag has none. A reference holds the node of its anchor.
-/

namespace TreeWalk.Yaml

inductive Node where
  | scalar (line : Nat) (tag : Option String) (text : String) (style : Style)
  | sequence (line : Nat) (tag : Option String) (items : List Node)
  | mapping (line : Nat) (tag : Option String) (entries : List (Node × Node))
  /-- Without a target, the alias stands inside the very node it refers to. -/
  | reference (line : Nat) (name : String) (target : Option Node)
deriving Inhabited

namespace Node

def line : Node → Nat
  | scalar l .. | sequence l .. | mapping l .. | reference l .. => l

def commonTags : String := "tag:yaml.org,2002:"

def shortTag (tag : String) : String :=
  if tag.startsWith commonTags then "!!" ++ (tag.drop commonTags.length).toString else tag

end Node

structure Names where
  tagPrefixes : List (String × String)
  anchors : List (String × Option Node)
deriving Inhabited

def Names.initial : Names := ⟨[("!", "!"), ("!!", Node.commonTags)], []⟩

/-- What is left after reading a part of the document: tokens, and the names known by then. -/
abbrev Left := List Token × Names

private def empty (line : Nat) : Node := .scalar line none "" .plain

structure Properties where
  anchor : Option String
  tag : Option String
  line : Nat

def resolveTag (names : Names) (handle suffix : String) : Option (Option String) :=
  if handle = "" then some (if suffix = "!" then none else some (Node.shortTag suffix))
  else
    match names.tagPrefixes.lookup handle with
    | some start => some (some (Node.shortTag (start ++ suffix)))
    | none => none

/-- Reads anchor and tag, in either order. -/
def properties (names : Names) : List Token → Option (Properties × List Token)
  | ⟨.anchor a, line⟩ :: ⟨.tag h s, _⟩ :: rest =>
    (resolveTag names h s).map fun tag => (⟨some a, tag, line⟩, rest)
  | ⟨.tag h s, line⟩ :: ⟨.anchor a, _⟩ :: rest =>
    (resolveTag names h s).map fun tag => (⟨some a, tag, line⟩, rest)
  | ⟨.anchor a, line⟩ :: rest => some (⟨some a, none, line⟩, rest)
  | ⟨.tag h s, line⟩ :: rest => (resolveTag names h s).map fun tag => (⟨none, tag, line⟩, rest)
  | t :: rest => some (⟨none, none, t.line⟩, t :: rest)
  | [] => none

def Names.begin (names : Names) (anchor : Option String) : Names :=
  match anchor with
  | some a => { names with anchors := (a, none) :: names.anchors }
  | none => names

/-- Notes the node of an anchor, unless the anchor was used again inside it. -/
def Names.finish (names : Names) (anchor : Option String) (n : Node) : Names :=
  match anchor with
  | some a =>
    match names.anchors.lookup a with
    | some none => { names with anchors := (a, some n) :: names.anchors }
    | _ => names
  | none => names

mutual

/-- Reads a node. Blocks are allowed with `block`, a sequence without indentation of its own with
`indentless`. -/
def readNode (block indentless : Bool) : (fuel : Nat) → Names → List Token → Option (Node × Left)
  | 0, _, _ => none
  | fuel + 1, names, ts =>
    match ts with
    | ⟨.reference a, line⟩ :: rest => (names.anchors.lookup a).map fun target => (.reference line a target, rest, names)
    | ts => do
      let (p, ts) ← properties names ts
      let names := names.begin p.anchor
      let seq := fun (r : Option (List Node × Left)) => do
        let (items, ts, names) ← r
        let n := Node.sequence p.line p.tag items
        return (n, ts, names.finish p.anchor n)
      let map := fun (r : Option (List (Node × Node) × Left)) => do
        let (entries, ts, names) ← r
        let n := Node.mapping p.line p.tag entries
        return (n, ts, names.finish p.anchor n)
      match ts with
      | ⟨.scalar text style, _⟩ :: rest =>
        let n := Node.scalar p.line p.tag text style
        return (n, rest, names.finish p.anchor n)
      | ⟨.flowSequenceStart, _⟩ :: rest => seq (readFlowItems true fuel names rest)
      | ⟨.flowMappingStart, _⟩ :: rest => map (readFlowEntries true fuel names rest)
      | t :: rest =>
        if indentless && t.symbol = .blockEntry then seq (readIndentless fuel names ts)
        else if block && t.symbol = .blockSequenceStart then seq (readItems fuel names rest)
        else if block && t.symbol = .blockMappingStart then map (readEntries fuel names rest)
        else if p.anchor.isSome || p.tag.isSome then
          let n := Node.scalar p.line p.tag "" .plain
          return (n, ts, names.finish p.anchor n)
        else none
      | [] => none

def readNodeOr (block indentless : Bool) (stops : List Symbol) (line : Nat) :
    (fuel : Nat) → Names → List Token → Option (Node × Left)
  | 0, _, _ => none
  | fuel + 1, names, ts =>
    match ts with
    | [] => none
    | t :: _ =>
      if t.symbol ∈ stops then some (empty line, ts, names)
      else readNode block indentless fuel names ts

def readItems : (fuel : Nat) → Names → List Token → Option (List Node × Left)
  | 0, _, _ => none
  | fuel + 1, names, ts =>
    match ts with
    | ⟨.blockEntry, line⟩ :: rest => do
      let (n, ts, names) ← readNodeOr true false [.blockEntry, .blockEnd] line fuel names rest
      let (ns, ts, names) ← readItems fuel names ts
      return (n :: ns, ts, names)
    | ⟨.blockEnd, _⟩ :: rest => some ([], rest, names)
    | _ => none

/-- The items of a block sequence that is not indented further than the mapping it stands in. -/
def readIndentless : (fuel : Nat) → Names → List Token → Option (List Node × Left)
  | 0, _, _ => none
  | fuel + 1, names, ts =>
    match ts with
    | ⟨.blockEntry, line⟩ :: rest => do
      let (n, ts, names) ← readNodeOr true false [.blockEntry, .key, .value, .blockEnd] line fuel names rest
      let (ns, ts, names) ← readIndentless fuel names ts
      return (n :: ns, ts, names)
    | [] => none
    | ts => some ([], ts, names)

def readEntryValue : (fuel : Nat) → Names → List Token → Option (Node × Left)
  | 0, _, _ => none
  | fuel + 1, names, ts =>
    match ts with
    | ⟨.value, line⟩ :: rest => readNodeOr true true [.key, .value, .blockEnd] line fuel names rest
    | t :: rest => some (empty t.line, t :: rest, names)
    | [] => none

def readEntries : (fuel : Nat) → Names → List Token → Option (List (Node × Node) × Left)
  | 0, _, _ => none
  | fuel + 1, names, ts =>
    match ts with
    | ⟨.key, line⟩ :: rest => do
      let (k, ts, names) ← readNodeOr true true [.key, .value, .blockEnd] line fuel names rest
      let (v, ts, names) ← readEntryValue fuel names ts
      let (entries, ts, names) ← readEntries fuel names ts
      return ((k, v) :: entries, ts, names)
    | ⟨.blockEnd, _⟩ :: rest => some ([], rest, names)
    | _ => none

def readFlowItems (first : Bool) : (fuel : Nat) → Names → List Token → Option (List Node × Left)
  | 0, _, _ => none
  | fuel + 1, names, ts =>
    let item := fun ts =>
      match ts with
      | ⟨.flowSequenceEnd, _⟩ :: rest => some ([], rest, names)
      | ⟨.key, line⟩ :: rest => do
        let (k, ts, names) ←
          match rest with
          | t :: after =>
            if t.symbol ∈ [.value, .flowEntry, .flowSequenceEnd] then some (empty t.line, after, names)
            else readNode false false fuel names rest
          | [] => none
        let (v, ts, names) ←
          readFlowValue [.flowEntry, .flowSequenceEnd] fuel names ts
        let (ns, ts, names) ← readFlowItems false fuel names ts
        return (.mapping line none [(k, v)] :: ns, ts, names)
      | ts => do
        let (n, ts, names) ← readNode false false fuel names ts
        let (ns, ts, names) ← readFlowItems false fuel names ts
        return (n :: ns, ts, names)
    match ts with
    | ⟨.flowSequenceEnd, _⟩ :: rest => some ([], rest, names)
    | ⟨.flowEntry, _⟩ :: rest => if first then item ts else item rest
    | ts => if first then item ts else none

def readFlowValue (stops : List Symbol) : (fuel : Nat) → Names → List Token → Option (Node × Left)
  | 0, _, _ => none
  | fuel + 1, names, ts =>
    match ts with
    | ⟨.value, line⟩ :: rest => readNodeOr false false stops line fuel names rest
    | t :: rest => some (empty t.line, t :: rest, names)
    | [] => none

def readFlowEntries (first : Bool) : (fuel : Nat) → Names → List Token → Option (List (Node × Node) × Left)
  | 0, _, _ => none
  | fuel + 1, names, ts =>
    let entry := fun ts =>
      match ts with
      | ⟨.flowMappingEnd, _⟩ :: rest => some ([], rest, names)
      | ⟨.key, line⟩ :: rest => do
        let (k, ts, names) ←
          readNodeOr false false [.value, .flowEntry, .flowMappingEnd] line fuel names rest
        let (v, ts, names) ← readFlowValue [.flowEntry, .flowMappingEnd] fuel names ts
        let (entries, ts, names) ← readFlowEntries false fuel names ts
        return ((k, v) :: entries, ts, names)
      | ts => do
        let (k, ts, names) ← readNode false false fuel names ts
        let (entries, ts, names) ← readFlowEntries false fuel names ts
        return ((k, empty k.line) :: entries, ts, names)
    match ts with
    | ⟨.flowMappingEnd, _⟩ :: rest => some ([], rest, names)
    | ⟨.flowEntry, _⟩ :: rest => if first then entry ts else entry rest
    | ts => if first then entry ts else none

end

def readDirectives (version : Bool) (names : Names) : List Token → Option (Names × List Token)
  | ⟨.version major minor, _⟩ :: rest =>
    if version || major ≠ 1 || minor ≠ 1 then none else readDirectives true names rest
  | ⟨.tagPrefix handle text, _⟩ :: rest =>
    if (names.tagPrefixes.take (names.tagPrefixes.length - 2)).any (·.1 = handle) then none
    else readDirectives version { names with tagPrefixes := (handle, text) :: names.tagPrefixes } rest
  | ts => some (names, ts)

inductive Document where
  | nothing
  | root (n : Node)
  | malformed
deriving Inhabited

/-- Whether the tokens two places beyond the next one were read too, or the text ends there. -/
def looksAhead (ts : List Token) : Bool :=
  3 ≤ ts.length || (ts.getLast?.map Token.symbol) = some .streamEnd

def document (text : String) : Document :=
  let ts := tokens text
  let fuel := 4 * ts.length + 16
  let finish := fun (r : Option (Node × Left)) =>
    match r with
    | some (n, rest, _) => if looksAhead rest then .root n else .malformed
    | none => .malformed
  match ts with
  | [] => .malformed
  | ⟨.streamEnd, _⟩ :: _ => .nothing
  | t :: rest =>
    match t.symbol with
    | .version .. | .tagPrefix .. | .documentStart =>
      match readDirectives false .initial (t :: rest) with
      | some (names, ⟨.documentStart, line⟩ :: rest) =>
        match rest with
        | u :: _ =>
          match u.symbol with
          | .version .. | .tagPrefix .. | .documentStart | .documentEnd | .streamEnd =>
            finish (some (empty line, rest, names))
          | _ => finish (readNode true false fuel names rest)
        | [] => .malformed
      | _ => .malformed
    | _ => finish (readNode true false fuel .initial (t :: rest))

end TreeWalk.Yaml
