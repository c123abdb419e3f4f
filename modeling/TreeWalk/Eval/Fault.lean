import TreeWalk.Value.Basic

/-!
# Faults

What ends an evaluation. Each fault is recorded as its cause; its kind, wording and location are
read off the cause.
-/

namespace TreeWalk

inductive FaultKind where
  | malformedInput
  | unboundVariable
  | notCallable
  | arityMismatch
  | typeMismatch
  | divisionByZero
  | stackExhausted
deriving DecidableEq, Repr, Inhabited

namespace FaultKind

def all : List FaultKind :=
  [malformedInput, unboundVariable, notCallable, arityMismatch, typeMismatch, divisionByZero,
    stackExhausted]

def name : FaultKind → String
  | malformedInput => "MalformedInput"
  | unboundVariable => "UnboundVariable"
  | notCallable => "NotCallable"
  | arityMismatch => "ArityMismatch"
  | typeMismatch => "TypeMismatch"
  | divisionByZero => "DivisionByZero"
  | stackExhausted => "StackExhausted"

def code : FaultKind → Nat
  | malformedInput => 1
  | unboundVariable => 2
  | notCallable => 3
  | arityMismatch => 4
  | typeMismatch => 5
  | divisionByZero => 6
  | stackExhausted => 7

def description : FaultKind → String
  | malformedInput => "malformed input"
  | unboundVariable => "unbound variable"
  | notCallable => "not callable"
  | arityMismatch => "arity mismatch"
  | typeMismatch => "type mismatch"
  | divisionByZero => "division by zero"
  | stackExhausted => "stack exhausted"

def ofName? (name : String) : Option FaultKind := all.find? (·.name = name)

def ofCode? (code : Int) : Option FaultKind := all.find? ((·.code : FaultKind → Int) · = code)

def nameOfCode (code : Int) : String :=
  match ofCode? code with
  | some k => k.name
  | none => s!"ErrorKind({code})"

def unknownName (name : String) : String := "unknown error kind " ++ Text.quote name

end FaultKind

inductive Side where
  | first
  | second
deriving DecidableEq, Repr, Inhabited

def Side.name : Side → String
  | .first => "first"
  | .second => "second"

inductive Division where
  | quotient
  | remainder
deriving DecidableEq, Repr, Inhabited

inductive Fault where
  | noProgram
  | missingExpression
  | parseError (loc : Location) (message : String)
  | unknownOperator (loc : Location) (name : String)
  | unbound (loc : Location) (name : String)
  | notCallable (loc : Location) (got : Kind)
  | arity (loc : Location) (expected got : Nat)
  | condition (loc : Location) (got : Kind)
  | projection (loc : Location) (side : Side) (got : Kind)
  | operands (loc : Location) (op : Operator) (left right : Kind)
  | byZero (loc : Location) (division : Division)
  | exhausted (loc : Location) (limit : Nat)
deriving DecidableEq, Repr, Inhabited

def Operator.expects : Operator → String
  | .add => "integers or strings"
  | .eq | .neq => "operands of the same scalar type"
  | .and | .or => "bools"
  | _ => "integers"

namespace Fault

def kind : Fault → FaultKind
  | noProgram | missingExpression | parseError .. | unknownOperator .. => .malformedInput
  | unbound .. => .unboundVariable
  | notCallable .. => .notCallable
  | arity .. => .arityMismatch
  | condition .. | projection .. | operands .. => .typeMismatch
  | byZero .. => .divisionByZero
  | exhausted .. => .stackExhausted

def loc : Fault → Location
  | noProgram | missingExpression => .unknown
  | parseError l _ | unknownOperator l _ | unbound l _ | notCallable l _ | arity l _ _
  | condition l _ | projection l _ _ | operands l _ _ _ | byZero l _ | exhausted l _ => l

/-- The bare wording, without kind and location. -/
def message : Fault → String
  | noProgram => "program has no expression"
  | missingExpression => "missing expression"
  | parseError _ message => s!"parse error: {message}"
  | unknownOperator _ name => "unsupported binary operator " ++ Text.quote name
  | unbound _ name => s!"variable '{name}' is not defined"
  | notCallable _ got => s!"cannot call {got.name}"
  | arity _ expected got => s!"expected {expected} arguments, got {got}"
  | condition _ got => s!"if condition must be bool, got {got.name}"
  | projection _ side got => s!"{side.name} expects a tuple, got {got.name}"
  | operands _ op left right =>
    s!"{op.symbol} expects {op.expects}, got {left.name} and {right.name}"
  | byZero _ .quotient => "division by zero"
  | byZero _ .remainder => "remainder by zero"
  | exhausted _ limit => s!"call depth exceeded {limit}"

/-- The operator and operand kinds of a fault about the operands of an operator. -/
def operands? : Fault → Option (Operator × Kind × Kind)
  | operands _ op left right => some (op, left, right)
  | _ => none

def fullText (kind message : String) (loc : Location) : String :=
  kind ++ ": " ++ message ++ (if loc = .unknown then "" else " at " ++ loc.render)

def text (f : Fault) : String := fullText f.kind.name f.message f.loc

end Fault

/-- What ends an evaluation without a value: a fault of the program, a write that the output
refused, or, outside what a well-made scope allows, a value or parameter that is not there.
`unfinished` is left for an evaluation that was cut short. -/
inductive Failure where
  | fault (f : Fault)
  | output (loc : Location) (reason : String)
  | absentValue
  | absentParameter
  | unfinished
deriving DecidableEq, Repr, Inhabited

def Failure.text : Failure → String
  | fault f => f.text
  | output loc reason => s!"print at {loc.render}: {reason}"
  | absentValue => "absent value"
  | absentParameter => "absent parameter"
  | unfinished => "unfinished"

end TreeWalk
