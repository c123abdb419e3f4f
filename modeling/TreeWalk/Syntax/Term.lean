import TreeWalk.Syntax.Location
import TreeWalk.Syntax.Operator

/-!
# Terms

The tree of a program. Every node carries its location. A tree built by hand may lack a part,
which is the term `absent`; reading a program never gives one.
-/

namespace TreeWalk

structure Parameter where
  text : String
  location : Location
deriving DecidableEq, Repr, Inhabited

inductive Term where
  | absent
  | int (loc : Location) (value : Int64)
  | str (loc : Location) (value : ByteArray)
  | bool (loc : Location) (value : Bool)
  | binary (loc : Location) (lhs : Term) (op : Operator) (rhs : Term)
  | var (loc : Location) (text : String)
  | letIn (loc : Location) (name : Parameter) (value next : Term)
  | function (loc : Location) (parameters : List Parameter) (body : Term)
  /-- `listed` tells an empty list of arguments from none at all. -/
  | call (loc : Location) (callee : Term) (arguments : List Term) (listed : Bool)
  | ite (loc : Location) (condition thenBranch otherwise : Term)
  | tuple (loc : Location) (first second : Term)
  | first (loc : Location) (value : Term)
  | second (loc : Location) (value : Term)
  | print (loc : Location) (value : Term)
  | error (loc : Location) (message fullText : String)
deriving Inhabited

namespace Term

def loc : Term → Location
  | absent => .unknown
  | int l _ | str l _ | bool l _ | binary l _ _ _ | var l _ | letIn l _ _ _ | function l _ _
  | call l _ _ _ | ite l _ _ _ | tuple l _ _ | first l _ | second l _ | print l _
  | error l _ _ => l

def withLoc (l : Location) : Term → Term
  | absent => absent
  | int _ n => int l n
  | str _ s => str l s
  | bool _ b => bool l b
  | binary _ a op b => binary l a op b
  | var _ text => var l text
  | letIn _ name value next => letIn l name value next
  | function _ params body => function l params body
  | call _ callee args listed => call l callee args listed
  | ite _ c t e => ite l c t e
  | tuple _ a b => tuple l a b
  | first _ v => first l v
  | second _ v => second l v
  | print _ v => print l v
  | error _ message fullText => error l message fullText

def isAbsent : Term → Bool
  | absent => true
  | _ => false

end Term

structure Program where
  name : String
  expression : Term
  location : Location
deriving Inhabited

def Program.inline (expression : Term) : Program := ⟨"<inline>", expression, .unknown⟩

end TreeWalk
