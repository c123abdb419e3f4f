import TreeWalk.Syntax.Term

/-!
# Building terms

Nodes without a location, for writing programs by hand.
-/

namespace TreeWalk.Build

def param (text : String) : Parameter := ⟨text, .unknown⟩

def int (n : Int64) : Term := .int .unknown n

def str (s : String) : Term := .str .unknown s.toUTF8

def bool (b : Bool) : Term := .bool .unknown b

def id (name : String) : Term := .var .unknown name

def bin (lhs : Term) (op : Operator) (rhs : Term) : Term := .binary .unknown lhs op rhs

def letIn (name : String) (value next : Term) : Term := .letIn .unknown (param name) value next

def fn (params : List String) (body : Term) : Term := .function .unknown (params.map param) body

/-- A call; one without arguments has no list of them. -/
def call (callee : Term) (args : List Term) : Term := .call .unknown callee args !args.isEmpty

def callNamed (name : String) (args : List Term) : Term := call (id name) args

def ite (condition thenBranch otherwise : Term) : Term :=
  .ite .unknown condition thenBranch otherwise

def tuple (a b : Term) : Term := .tuple .unknown a b

def first (v : Term) : Term := .first .unknown v

def second (v : Term) : Term := .second .unknown v

def print (v : Term) : Term := .print .unknown v

def err (message : String) : Term := .error .unknown message ""

end TreeWalk.Build
