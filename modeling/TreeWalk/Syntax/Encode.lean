import TreeWalk.Json.Writer
import TreeWalk.Syntax.Term
import TreeWalk.Text.Utf8

/-!
# Programs as JSON

The JSON form of a program, one object for each node.
-/

namespace TreeWalk

private def integer (n : Int64) : Json := .number (Text.decimal n)

def Location.toJson (l : Location) : Json :=
  .object [("start", integer l.start), ("end", integer l.stop), ("filename", .string l.filename)]

def Parameter.toJson (p : Parameter) : Json :=
  .object [("text", .string p.text), ("location", p.location.toJson)]

namespace Term

private def node (kind : String) (l : Location) (fields : List (String × Json)) : Json :=
  .object (("kind", .string kind) :: ("location", l.toJson) :: fields)

mutual

def toJson : Term → Json
  | absent => .null
  | int l n => node "Int" l [("value", integer n)]
  | str l s => node "Str" l [("value", .string (Text.decode s))]
  | bool l b => node "Bool" l [("value", .bool b)]
  | binary l lhs op rhs =>
    node "Binary" l [("lhs", lhs.toJson), ("op", .string op.name), ("rhs", rhs.toJson)]
  | var l text => node "Var" l [("text", .string text)]
  | letIn l name value next =>
    node "Let" l [("name", name.toJson), ("value", value.toJson), ("next", next.toJson)]
  | function l params body =>
    node "Function" l
      [("parameters", .array (params.map Parameter.toJson)), ("value", body.toJson)]
  | call l callee args listed =>
    let arguments := if args.isEmpty && !listed then .null else .array (toJsonEach args)
    node "Call" l [("callee", callee.toJson), ("arguments", arguments)]
  | ite l c t e =>
    node "If" l [("condition", c.toJson), ("then", t.toJson), ("otherwise", e.toJson)]
  | tuple l a b => node "Tuple" l [("first", a.toJson), ("second", b.toJson)]
  | first l v => node "First" l [("value", v.toJson)]
  | second l v => node "Second" l [("value", v.toJson)]
  | print l v => node "Print" l [("value", v.toJson)]
  | error l message fullText =>
    node "Error" l [("message", .string message), ("full_text", .string fullText)]

def toJsonEach : List Term → List Json
  | [] => []
  | t :: rest => t.toJson :: toJsonEach rest

end

def encode (t : Term) : String := t.toJson.write

end Term

def Program.toJson (p : Program) : Json :=
  .object [("name", .string p.name), ("expression", p.expression.toJson),
    ("location", p.location.toJson)]

def Program.encode (p : Program) : String := p.toJson.write

end TreeWalk
