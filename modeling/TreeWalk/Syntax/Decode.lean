import TreeWalk.Json.Reader
import TreeWalk.Syntax.Term
import TreeWalk.Text.Quoted

/-!
# Reading programs

A program is read from the first JSON value of a text. Each node names its kind; fields that its
kind does not use are passed over. Locations are never refused: what is wrong in one counts as
empty.
-/

namespace TreeWalk

inductive IntegerError where
  | outOfRange (spelling : String)
  | notInteger (spelling : String)
  | badText (text : String)
  | notNumber (got : String)
deriving DecidableEq, Repr

def IntegerError.message : IntegerError → String
  | .outOfRange spelling => s!"integer literal {spelling} out of range"
  | .notInteger spelling => s!"integer literal {spelling} is not an integer"
  | .badText text => "invalid integer literal " ++ Text.quote text
  | .notNumber got => s!"integer literal must be a number, got {got}"

def decodeInt : Option Json → Except IntegerError Int64
  | some (.number spelling) =>
    match Text.readInt64 spelling with
    | .ok n => .ok n
    | .error .range => .error (.outOfRange spelling)
    | .error .form => .error (.notInteger spelling)
  | some (.string text) =>
    match Text.readInt64 text with
    | .ok n => .ok n
    | .error _ => .error (.badText text)
  | other => .error (.notNumber (Json.typeName other))

/-- A text field; anything else counts as empty. -/
def textField (members : List (String × Json)) (key : String) : String :=
  ((Json.member? key members).bind Json.string?).getD ""

def decodeLocation : Option Json → Location
  | some (.object members) =>
    let offset := fun key => ((decodeInt (Json.member? key members)).toOption).getD 0
    ⟨offset "start", offset "end", textField members "filename"⟩
  | _ => .unknown

def nodeLocation (members : List (String × Json)) : Location :=
  decodeLocation (Json.member? "location" members)

inductive ParameterError where
  | notObject (got : String)
  | noText
deriving DecidableEq, Repr

def ParameterError.message : ParameterError → String
  | .notObject got => s!"expected object, got {got}"
  | .noText => "missing text"

def decodeParameter : Option Json → Except ParameterError Parameter
  | some (.object members) =>
    let text := textField members "text"
    if text = "" then .error .noText else .ok ⟨text, nodeLocation members⟩
  | other => .error (.notObject (Json.typeName other))

inductive NodeError where
  | integer (cause : IntegerError)
  | notString (got : String)
  | notBool (got : String)
  | unknownOperator (name : String)
  | noText
  | letName (cause : ParameterError)
  | parameter (index : Nat) (cause : ParameterError)
  | argument (index : Nat) (got : String)
  | missing (kind field : String)
  | noKind
  | unknownKind (kind : String)
deriving DecidableEq, Repr

def NodeError.message : NodeError → String
  | .integer cause => cause.message
  | .notString got => s!"Str value must be a string, got {got}"
  | .notBool got => s!"Bool value must be a boolean, got {got}"
  | .unknownOperator name => "unknown binary operator " ++ Text.quote name
  | .noText => "Var requires text"
  | .letName cause => "invalid let name: " ++ cause.message
  | .parameter index cause => s!"invalid parameter {index}: " ++ cause.message
  | .argument index got => s!"invalid argument {index} {got}"
  | .missing kind field => s!"{kind} missing {field}"
  | .noKind => "node is missing kind"
  | .unknownKind kind => "unsupported node kind " ++ Text.quote kind

inductive SourceKind where
  | file
  | term
deriving DecidableEq, Repr

def SourceKind.name : SourceKind → String
  | .file => "file"
  | .term => "term"

inductive DecodeError where
  | unreadable (kind : SourceKind) (cause : Json.ReadError)
  | wrongType (kind : SourceKind)
  | notObject (kind : SourceKind)
  | noExpression
  | node (loc : Location) (cause : NodeError)
deriving DecidableEq, Repr

def DecodeError.message : DecodeError → String
  | .unreadable kind _ | .wrongType kind => s!"decode {kind.name} json: <json error>"
  | .notObject kind => s!"decode {kind.name} json: expected object"
  | .noExpression => "decode file: missing expression"
  | .node loc cause => loc.render ++ ": " ++ cause.message

private def refuse {α : Type} (loc : Location) (cause : NodeError) : Except DecodeError α :=
  .error (.node loc cause)

def decodeParameters (loc : Location) : (index : Nat) → List Json → Except DecodeError (List Parameter)
  | _, [] => .ok []
  | index, j :: rest =>
    match decodeParameter (some j) with
    | .error cause => refuse loc (.parameter index cause)
    | .ok p => (decodeParameters loc (index + 1) rest).map (p :: ·)

mutual

def decodeNode : Json → Except DecodeError Term
  | .object members =>
    let loc := nodeLocation members
    let kind := textField members "kind"
    let child := fun field =>
      match decodeMember field members with
      | some result => result
      | none => refuse loc (.missing kind field)
    match kind with
    | "Int" =>
      match decodeInt (Json.member? "value" members) with
      | .ok n => .ok (.int loc n)
      | .error cause => refuse loc (.integer cause)
    | "Str" =>
      match Json.member? "value" members with
      | some (.string s) => .ok (.str loc s.toUTF8)
      | other => refuse loc (.notString (Json.typeName other))
    | "Bool" =>
      match Json.member? "value" members with
      | some (.bool b) => .ok (.bool loc b)
      | other => refuse loc (.notBool (Json.typeName other))
    | "Binary" => do
      let lhs ← child "lhs"
      let rhs ← child "rhs"
      let name := textField members "op"
      let op := Operator.ofName name
      if op.isKnown then .ok (.binary loc lhs op rhs) else refuse loc (.unknownOperator name)
    | "Var" =>
      let text := textField members "text"
      if text = "" then refuse loc .noText else .ok (.var loc text)
    | "Let" =>
      match decodeParameter (Json.member? "name" members) with
      | .error cause => refuse loc (.letName cause)
      | .ok name => do
        let value ← child "value"
        let next ← child "next"
        .ok (.letIn loc name value next)
    | "Function" => do
      let params ← decodeParameters loc 0
        (((Json.member? "parameters" members).bind Json.array?).getD [])
      let body ← child "value"
      .ok (.function loc params body)
    | "Call" => do
      let callee ← child "callee"
      let args ← (decodeArgumentsOf loc members).getD (.ok [])
      .ok (.call loc callee args true)
    | "If" => do
      let condition ← child "condition"
      let thenBranch ← child "then"
      let otherwise ← child "otherwise"
      .ok (.ite loc condition thenBranch otherwise)
    | "Tuple" => do
      let first ← child "first"
      let second ← child "second"
      .ok (.tuple loc first second)
    | "First" => return .first loc (← child "value")
    | "Second" => return .second loc (← child "value")
    | "Print" => return .print loc (← child "value")
    | "Error" => .ok (.error loc (textField members "message") (textField members "full_text"))
    | "" => refuse loc .noKind
    | kind => refuse loc (.unknownKind kind)
  | _ => .error (.node .unknown .noKind)

/-- Reads the node that the last member called `key` holds, if it holds an object. -/
def decodeMember (key : String) : List (String × Json) → Option (Except DecodeError Term)
  | [] => none
  | (k, v) :: rest =>
    match Json.member? key rest with
    | some _ => decodeMember key rest
    | none =>
      match v with
      | .object members => if k = key then some (decodeNode (.object members)) else none
      | _ => none

def decodeArgumentsOf (loc : Location) : List (String × Json) → Option (Except DecodeError (List Term))
  | [] => none
  | (k, v) :: rest =>
    match Json.member? "arguments" rest with
    | some _ => decodeArgumentsOf loc rest
    | none =>
      match v with
      | .array items => if k = "arguments" then some (decodeArguments loc 0 items) else none
      | _ => none

def decodeArguments (loc : Location) : (index : Nat) → List Json → Except DecodeError (List Term)
  | _, [] => .ok []
  | index, j :: rest =>
    match j with
    | .object members => do
      let arg ← decodeNode (.object members)
      return arg :: (← decodeArguments loc (index + 1) rest)
    | other => refuse loc (.argument index (Json.typeName (some other)))

end

/-- Reads the first value of a text, which has to be an object. -/
def decodeObject (kind : SourceKind) (source : ByteArray) : Except DecodeError (List (String × Json)) :=
  match Json.read source.data.toList with
  | .error cause => .error (.unreadable kind cause)
  | .ok (.object members) => .ok members
  | .ok .null => .error (.notObject kind)
  | .ok _ => .error (.wrongType kind)

def Term.decode (source : ByteArray) : Except DecodeError Term := do
  decodeNode (.object (← decodeObject .term source))

def Program.decode (source : ByteArray) : Except DecodeError Program := do
  let members ← decodeObject .file source
  match decodeMember "expression" members with
  | none => .error .noExpression
  | some result =>
    return ⟨textField members "name", ← result, nodeLocation members⟩

end TreeWalk
