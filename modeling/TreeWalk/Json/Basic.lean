/-!
# JSON values

A value as a text gives it. A number keeps its spelling, and an object keeps every member in the
order written, so a name may occur twice; looking it up finds the last one.
-/

namespace TreeWalk

inductive Json where
  | null
  | bool (b : Bool)
  | number (spelling : String)
  | string (s : String)
  | array (items : List Json)
  | object (members : List (String × Json))
deriving Repr, Inhabited

namespace Json

/-- The value of the last member called `key`. -/
def member? (key : String) : List (String × Json) → Option Json
  | [] => none
  | (k, v) :: rest =>
    match member? key rest with
    | some w => some w
    | none => if k = key then some v else none

def get? (j : Json) (key : String) : Option Json :=
  match j with
  | .object members => member? key members
  | _ => none

def string? : Json → Option String
  | .string s => some s
  | _ => none

def bool? : Json → Option Bool
  | .bool b => some b
  | _ => none

def array? : Json → Option (List Json)
  | .array items => some items
  | _ => none

def object? : Json → Option (List (String × Json))
  | .object members => some members
  | _ => none

def typeName : Option Json → String
  | none | some .null => "<nil>"
  | some (.bool _) => "bool"
  | some (.number _) => "json.Number"
  | some (.string _) => "string"
  | some (.array _) => "[]interface \x7b\x7d"
  | some (.object _) => "map[string]interface \x7b\x7d"

mutual

/-- How many arrays and objects stand inside one another. -/
def depth : Json → Nat
  | .array items => depthItems items + 1
  | .object members => depthMembers members + 1
  | _ => 0

def depthItems : List Json → Nat
  | [] => 0
  | j :: rest => max (depth j) (depthItems rest)

def depthMembers : List (String × Json) → Nat
  | [] => 0
  | (_, j) :: rest => max (depth j) (depthMembers rest)

end

end Json

end TreeWalk
