import TreeWalk.Text.Quoted
import TreeWalk.Yaml.Datum

/-!
# Reading typed values from YAML

A reader takes a node and gives a value, or none where the node has no value of the wanted type.
Misfits are noted and reading goes on, so a document's issues are all reported together. A
scalar that belies its tag, or a reference inside its own node, ends the reading.
-/

namespace TreeWalk.Yaml

inductive Issue where
  | unknownField (line : Nat) (field type : String)
  | fieldAgain (line : Nat) (field type : String)
  | keyAgain (line : Nat) (key : String) (first : Nat)
  | mismatch (line : Nat) (tag : String) (text : Option String) (type : String)
deriving DecidableEq, Repr

/-- Scalars of more than ten bytes are shown by their first seven. -/
def excerpt (text : String) : ByteArray :=
  let bytes := text.toUTF8
  if 10 < bytes.size then bytes.extract 0 7 ++ "...".toUTF8 else bytes

def Issue.message : Issue → ByteArray
  | unknownField line field type => s!"line {line}: field {field} not found in type {type}".toUTF8
  | fieldAgain line field type => s!"line {line}: field {field} already set in type {type}".toUTF8
  | keyAgain line key first =>
    s!"line {line}: mapping key {Text.quote key} already defined at line {first}".toUTF8
  | mismatch line tag text type =>
    let shown := match text with
      | some text => " \x60".toUTF8 ++ excerpt text ++ "\x60".toUTF8
      | none => .empty
    s!"line {line}: cannot unmarshal {tag}".toUTF8 ++ shown ++ s!" into {type}".toUTF8

inductive Misread where
  | malformed
  | misfits (issues : List Issue)
deriving DecidableEq, Repr

def issuesText (issues : List Issue) : ByteArray :=
  issues.foldl (fun text issue => text ++ "\n  ".toUTF8 ++ issue.message) "yaml: unmarshal errors:".toUTF8

/-- Reading with issues noted, the latest first. -/
abbrev Decoder := StateT (List Issue) Option

namespace Decoder

def note (issue : Issue) : Decoder Unit := modify (issue :: ·)

def ruined {α : Type} : Decoder α := fun _ => none

def ofOption {α : Type} (x : Option α) : Decoder α := fun issues => x.map (·, issues)

end Decoder

open Decoder (note ruined ofOption)

namespace Node

def target : Node → Option Node
  | reference _ _ none => none
  | reference _ _ (some n) => n.target
  | n => some n

def misfit (n : Node) (type : String) : Decoder Unit :=
  let tag := n.tag
  note (.mismatch n.line tag (if tag = "!!seq" || tag = "!!map" then none else some n.text) type)

/-- Whether two keys are written alike. -/
def sameKey : Node → Node → Bool
  | scalar _ _ a _, scalar _ _ b _ => a = b
  | sequence .., sequence .. => true
  | mapping .., mapping .. => true
  | reference _ a _, reference _ b _ => a = b
  | _, _ => false

def repeatedKeys : List (Node × Node) → List Issue
  | [] => []
  | (k, _) :: rest =>
    (rest.filter fun (other, _) => k.sameKey other).map
      (fun (other, _) => .keyAgain other.line other.text k.line) ++ repeatedKeys rest

def checkKeys (entries : List (Node × Node)) : Decoder Bool := do
  let issues := repeatedKeys entries
  modify (issues.reverse ++ ·)
  return issues.isEmpty

def isMapping : Node → Bool
  | mapping .. => true
  | _ => false

mutual

/-- The entries of a mapping, then those of each mapping merged into it, one list for each. -/
def layers : Node → Option (List (List (Node × Node)))
  | mapping _ _ entries => (mergedLayers entries).map (entries :: ·)
  | reference _ _ (some n) => n.layers
  | _ => none

def mergedLayers : List (Node × Node) → Option (List (List (Node × Node)))
  | [] => some []
  | (k, v) :: rest =>
    if k.isMerge then
      match v with
      | sequence _ _ items => itemLayers items
      | v => v.layers
    else mergedLayers rest

def itemLayers : List Node → Option (List (List (Node × Node)))
  | [] => some []
  | n :: rest => do return (← n.layers) ++ (← itemLayers rest)

end

end Node

/-- The bytes of a text: what any scalar but a null is written as, or the binary data it stands for. -/
def readBytes (n : Node) : Decoder (Option ByteArray) := do
  match ← ofOption n.target with
  | .scalar _ tag text style =>
    match ← ofOption (scalarDatum tag text style) with
    | .null => return none
    | .text s => return some s.toUTF8
    | .binary bytes => return some bytes
    | _ => return some text.toUTF8
  | n => do
    n.misfit "string"
    return none

def readText (n : Node) : Decoder (Option String) := do return (← readBytes n).map Text.decode

/-- A fraction without its digits after the point. Past the range of words it is the least word. -/
def truncate (x : Float) : Int64 :=
  if -9223372036854775808.0 ≤ x && x < 9223372036854775808.0 then x.toInt64 else Int64.minValue

/-- A word: a whole number, or a fraction up to 2^63, truncated. -/
def wordOf? : Datum → Option Int64
  | .int n => if n < Text.halfSpan then some (Int64.ofInt n) else none
  | .float x => if x ≤ 9223372036854775808.0 then some (truncate x) else none
  | _ => none

def boolOf? : Datum → Option Bool
  | .bool b => some b
  | .text s =>
    if s ∈ ["y", "Y", "yes", "Yes", "YES", "on", "On", "ON"] then some true
    else if s ∈ ["n", "N", "no", "No", "NO", "off", "Off", "OFF"] then some false
    else none
  | _ => none

def readScalar {α : Type} (type : String) (of? : Datum → Option α) (n : Node) : Decoder (Option α) := do
  let n ← ofOption n.target
  match n with
  | .scalar _ tag text style =>
    match ← ofOption (scalarDatum tag text style) with
    | .null => return none
    | d =>
      match of? d with
      | some x => return some x
      | none =>
        n.misfit type
        return none
  | n =>
    n.misfit type
    return none

def readWord : Node → Decoder (Option Int64) := readScalar "int" wordOf?

def readBool : Node → Decoder (Option Bool) := readScalar "bool" boolOf?

def readList {α : Type} (type : String) (item : Node → Decoder (Option α)) (n : Node) :
    Decoder (Option (List α)) := do
  match ← ofOption n.target with
  | .sequence _ _ items => return some ((← items.mapM item).filterMap id)
  | n =>
    match n with
    | .scalar _ tag text style =>
      match ← ofOption (scalarDatum tag text style) with
      | .null => return some []
      | _ =>
        n.misfit type
        return none
    | n =>
      n.misfit type
      return none

structure Field (α : Type) where
  name : String
  read : Node → α → Decoder α

/-- A field that holds what a reader gives, and is left alone where the reader gives nothing. -/
def Field.of {α β : Type} (name : String) (read : Node → Decoder (Option β)) (set : α → β → α) : Field α :=
  ⟨name, fun n record => do
    match ← read n with
    | some x => return set record x
    | none => return record⟩

/-- Reads the entries of one layer. `seen` are the names that earlier layers hold, `done` the
fields read so far. -/
def readLayer {α : Type} (type : String) (fields : List (Field α)) (seen : List String) :
    (done : List String) → List (Node × Node) → α → Decoder α
  | _, [], record => return record
  | done, (k, v) :: rest, record => do
    if k.isMerge then readLayer type fields seen done rest record
    else
      match ← readText k with
      | none => readLayer type fields seen done rest record
      | some name =>
        if name ∈ seen then readLayer type fields seen done rest record
        else
          match fields.find? (·.name = name) with
          | none =>
            note (.unknownField k.line name type)
            readLayer type fields seen done rest record
          | some field =>
            if name ∈ done then
              note (.fieldAgain k.line name type)
              readLayer type fields seen done rest record
            else
              let record ← field.read v record
              readLayer type fields seen (name :: done) rest record

def readLayers {α : Type} (type : String) (fields : List (Field α)) :
    (seen : List String) → List (List (Node × Node)) → α → Decoder α
  | _, [], record => return record
  | seen, layer :: rest, record => do
    let record ← if ← Node.checkKeys layer then readLayer type fields seen [] layer record else pure record
    readLayers type fields (seen ++ layer.map fun (k, _) => k.text) rest record

def readRecord {α : Type} (type : String) (fields : List (Field α)) (init : α) (n : Node) :
    Decoder (Option α) := do
  let n ← ofOption n.target
  match n with
  | .mapping _ _ entries =>
    if ← Node.checkKeys entries then
      let merged ← ofOption (Node.mergedLayers entries)
      let record ← readLayer type fields [] [] entries init
      return some (← readLayers type fields (entries.map fun (k, _) => k.text) merged record)
    else return none
  | .scalar _ tag text style =>
    match ← ofOption (scalarDatum tag text style) with
    | .null => return none
    | _ =>
      n.misfit type
      return none
  | n =>
    n.misfit type
    return none

def addEntries (same : Datum → Datum → Bool) (entries : List (Datum × Datum)) :
    List (Datum × Datum) → List (Datum × Datum)
  | [] => entries
  | (k, v) :: rest =>
    if entries.any fun (other, _) => same k other then addEntries same entries rest
    else addEntries same (entries ++ [(k, v)]) rest

def Datum.sameScalar (a b : Datum) : Bool := a.tag = b.tag && Text.sameBytes a.display b.display

def Datum.isScalar : Datum → Bool
  | .sequence _ | .mapping .. => false
  | _ => true

def textualKeys (entries : List (Node × Node)) : Bool :=
  entries.all fun (k, _) => k.tag = "!!str" || k.tag = "!!merge"

mutual

def readDatum : Node → Decoder (Option Datum)
  | .scalar _ tag text style => do return some (← ofOption (scalarDatum tag text style))
  | .sequence _ _ items => do return some (.sequence (← readItemData items))
  | .mapping _ _ entries => do
    if ← Node.checkKeys entries then
      let own ← readEntryData entries
      let merged ← readMergedData entries
      return some (.mapping (textualKeys entries) (addEntries Datum.sameScalar own merged))
    else return none
  | .reference _ _ (some n) => readDatum n
  | .reference _ _ none => ruined

def readItemData : List Node → Decoder (List Datum)
  | [] => return []
  | n :: rest => do
    let first ← readDatum n
    return first.toList ++ (← readItemData rest)

/-- The entries of a mapping; of two equal keys the later one counts. -/
def readEntryData : List (Node × Node) → Decoder (List (Datum × Datum))
  | [] => return []
  | (k, v) :: rest => do
    if k.isMerge then readEntryData rest
    else
      match ← readDatum k with
      | none => readEntryData rest
      | some key =>
        if !key.isScalar then ruined
        else
          let value ← readDatum v
          let rest ← readEntryData rest
          match value with
          | none => return rest
          | some value =>
            return if rest.any fun (other, _) => key.sameScalar other then rest else (key, value) :: rest

def readMergedData : List (Node × Node) → Decoder (List (Datum × Datum))
  | [] => return []
  | (k, v) :: rest =>
    if k.isMerge then
      match v with
      | .sequence _ _ items => readSourceItems items
      | v => readSource v
    else readMergedData rest

def readSource : Node → Decoder (List (Datum × Datum))
  | .mapping _ _ entries => do
    if ← Node.checkKeys entries then
      let own ← readEntryData entries
      return addEntries Datum.sameScalar own (← readMergedData entries)
    else return []
  | .reference _ _ (some n) => readSource n
  | _ => ruined

def readSourceItems : List Node → Decoder (List (Datum × Datum))
  | [] => return []
  | n :: rest => do
    let first ← readSource n
    return first ++ (← readSourceItems rest)

end

def readDocument {α : Type} (read : Node → Decoder (Option α)) (init : α) (bytes : ByteArray) :
    Except Misread α :=
  match String.fromUTF8? bytes with
  | none => .error .malformed
  | some text =>
    match document text with
    | .nothing => .ok init
    | .malformed => .error .malformed
    | .root n =>
      match (read n).run [] with
      | none => .error .malformed
      | some (record, []) => .ok (record.getD init)
      | some (_, issues) => .error (.misfits issues.reverse)

end TreeWalk.Yaml
