/-!
# Binary operators

Thirteen operators have a meaning. A tree built by hand may hold any other name, which then is
its own symbol.
-/

namespace TreeWalk

inductive Operator where
  | add
  | sub
  | mul
  | div
  | rem
  | eq
  | neq
  | lt
  | gt
  | lte
  | gte
  | and
  | or
  | unknown (name : String)
deriving DecidableEq, Repr, Inhabited

namespace Operator

def name : Operator → String
  | add => "Add"
  | sub => "Sub"
  | mul => "Mul"
  | div => "Div"
  | rem => "Rem"
  | eq => "Eq"
  | neq => "Neq"
  | lt => "Lt"
  | gt => "Gt"
  | lte => "Lte"
  | gte => "Gte"
  | and => "And"
  | or => "Or"
  | unknown name => name

def ofName : String → Operator
  | "Add" => add
  | "Sub" => sub
  | "Mul" => mul
  | "Div" => div
  | "Rem" => rem
  | "Eq" => eq
  | "Neq" => neq
  | "Lt" => lt
  | "Gt" => gt
  | "Lte" => lte
  | "Gte" => gte
  | "And" => and
  | "Or" => or
  | name => unknown name

def symbol : Operator → String
  | add => "+"
  | sub => "-"
  | mul => "*"
  | div => "/"
  | rem => "%"
  | eq => "=="
  | neq => "!="
  | lt => "<"
  | gt => ">"
  | lte => "<="
  | gte => ">="
  | and => "&&"
  | or => "||"
  | unknown name => name

def isKnown : Operator → Bool
  | unknown _ => false
  | _ => true

end Operator

end TreeWalk
