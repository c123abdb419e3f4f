import TreeWalk.Value.Basic

/-!
# Scopes

A store of scopes. A scope is a list of bindings, newest first, and the number of the scope
around it. Defining a name changes one scope in place, and every scope inside it sees the
change; a capture copies the whole chain, so nothing defined later reaches it.
-/

namespace TreeWalk

/-- The bindings of one scope, newest first. -/
abbrev Bindings := List (String × Value)

/-- What a scope sees: its own bindings, then those of each scope around it. -/
abbrev Env := List Bindings

structure Scope where
  bindings : Bindings
  parent : Option ScopeId
deriving Inhabited

/-- All scopes made so far. A scope's number is its place in the order of making. -/
structure Store where
  scopes : Array Scope
deriving Inhabited

namespace Env

def lookup? (env : Env) (name : String) : Option Value :=
  env.findSome? fun bindings => bindings.lookup name

def depth (env : Env) : Nat := env.length - 1

def firstBindings : Bindings → Bindings
  | [] => []
  | (name, v) :: rest => (name, v) :: (firstBindings rest).filter (·.1 ≠ name)

/-- Every visible binding, once for each name. -/
def bindings (env : Env) : Bindings := firstBindings env.flatten

def keys (env : Env) : List String :=
  ((env.headD []).map Prod.fst).eraseDups.mergeSort fun a b => !(b < a)

end Env

namespace Store

def empty : Store := ⟨#[]⟩

def alloc (s : Store) (scope : Scope) : ScopeId × Store := (s.scopes.size, ⟨s.scopes.push scope⟩)

def envFrom (s : Store) : (fuel : Nat) → (id? : Option ScopeId) → Env
  | fuel + 1, some id =>
    match s.scopes[id]? with
    | some scope => scope.bindings :: envFrom s fuel scope.parent
    | none => []
  | _, _ => []

/-- What scope `id` sees. No chain is longer than the store. -/
def env (s : Store) (id : ScopeId) : Env := s.envFrom s.scopes.size (some id)

def parent? (s : Store) (id : ScopeId) : Option ScopeId := (s.scopes[id]?).bind Scope.parent

def define (s : Store) (id : ScopeId) (name : String) (v : Value) : Store :=
  ⟨s.scopes.modify id fun scope => { scope with bindings := (name, v) :: scope.bindings }⟩

/-- Makes a chain of new scopes that sees `env`. -/
def plant (s : Store) : Env → Option ScopeId × Store
  | [] => (none, s)
  | bindings :: outer =>
    let (parent, s) := s.plant outer
    let (id, s) := s.alloc ⟨bindings, parent⟩
    (some id, s)

def child (s : Store) (parent : Option ScopeId) : ScopeId × Store := s.alloc ⟨[], parent⟩

/-- A copy of the whole chain of `id`. -/
def capture (s : Store) (id : ScopeId) : ScopeId × Store :=
  let env := s.env id
  let (parent, s) := s.plant env.tail
  s.alloc ⟨env.headD [], parent⟩

/-- A new empty scope inside a copy of the chain of `id`. -/
def extend (s : Store) (id : ScopeId) : ScopeId × Store :=
  let (copy, s) := s.capture id
  s.child (some copy)

end Store

end TreeWalk
