import TreeWalk.Syntax.Term

/-!
# Values

What a term evaluates to. A closure refers to its captured scope by number; scopes themselves
are kept in a store. The value `absent` never results from evaluation; it exists because a scope
can be filled by hand.
-/

namespace TreeWalk

abbrev ScopeId := Nat

/-- A function literal together with the scope captured where it was evaluated. Each evaluation
captures a scope of its own, so the scope is also the identity of the closure. -/
structure Closure where
  params : List String
  body : Term
  scope : ScopeId
deriving Inhabited

def Closure.arity (c : Closure) : Nat := c.params.length

inductive Value where
  | absent
  | int (n : Int64)
  | str (s : ByteArray)
  | bool (b : Bool)
  | pair (first second : Value)
  | closure (c : Closure)
deriving Inhabited

inductive Kind where
  | integer
  | string
  | bool
  | tuple
  | closure
deriving DecidableEq, Repr, Inhabited

namespace Kind

def all : List Kind := [integer, string, bool, tuple, closure]

def name : Kind → String
  | integer => "integer"
  | string => "string"
  | bool => "bool"
  | tuple => "tuple"
  | closure => "closure"

def code : Kind → Nat
  | integer => 0
  | string => 1
  | bool => 2
  | tuple => 3
  | closure => 4

def ofName? (name : String) : Option Kind := all.find? (·.name = name)

def nameOfCode (code : Int) : String :=
  match all.find? ((·.code : Kind → Int) · = code) with
  | some k => k.name
  | none => s!"unknown_kind_{code}"

end Kind

namespace Value

def kind? : Value → Option Kind
  | absent => none
  | int _ => some .integer
  | str _ => some .string
  | bool _ => some .bool
  | pair _ _ => some .tuple
  | closure _ => some .closure

def format : Value → ByteArray
  | absent => "<nil>".toUTF8
  | int n => (Text.decimal n).toUTF8
  | str s => s
  | bool b => (if b then "true" else "false").toUTF8
  | pair a b => "(".toUTF8 ++ a.format ++ ", ".toUTF8 ++ b.format ++ ")".toUTF8
  | closure _ => "<#closure>".toUTF8

/-- Structural equality; closures are equal when they are the same closure. -/
def equal : Value → Value → Bool
  | absent, absent => true
  | int a, int b => a = b
  | str a, str b => Text.sameBytes a b
  | bool a, bool b => a = b
  | pair a b, pair c d => equal a c && equal b d
  | closure a, closure b => a.scope = b.scope
  | _, _ => false

end Value

end TreeWalk
