import TreeWalk.Eval.Evaluate
import TreeWalk.Log.Record

/-!
# The interpreter

An interpreter keeps its machine from one evaluation to the next, and a global scope that each
run of a program replaces by a fresh one.
-/

namespace TreeWalk

def defaultDepth : Nat := 10000

def maxDepth : Nat := 100000

/-- The depth limit in effect when `asked` is asked for. -/
def effectiveDepth (asked : Int) : Nat :=
  if asked ≤ 0 then defaultDepth else min asked.toNat maxDepth

structure Interpreter where
  machine : Machine
  global : ScopeId
  /-- What was logged, newest first. -/
  log : List Log.Record
deriving Inhabited

abbrev Outcome := Except Failure Value

namespace Interpreter

def new (output : Output) (depth : Int) : Interpreter :=
  let (global, store) := Store.empty.child none
  ⟨⟨store, output, 0, effectiveDepth depth⟩, global, []⟩

/-- Evaluates a term in a scope, the global one if none is given. -/
def evaluate (i : Interpreter) (t : Term) (scope : Option ScopeId) : Outcome × Interpreter :=
  let levels := i.machine.limit - i.machine.depth
  let (outcome, machine) := (t.eval levels (scope.getD i.global)).run i.machine
  (outcome, { i with machine })

def record (i : Interpreter) (r : Log.Record) : Interpreter := { i with log := r :: i.log }

def ending (name : String) : Outcome → Log.Record
  | .ok v => Log.debug "program finished"
      [Log.attr "name" name, ("result", .text v.format), ("elapsed", .elapsed)]
  | .error e => Log.debug "program failed"
      [Log.attr "name" name, Log.attr "error" e.text, ("elapsed", .elapsed)]

/-- Evaluates a whole program in a fresh global scope. -/
def run (i : Interpreter) (p : Program) : Outcome × Interpreter :=
  if p.expression.isAbsent then (.error (.fault .noProgram), i)
  else
    let (global, store) := i.machine.store.child none
    let i := { i with machine := { i.machine with store, depth := 0 }, global }
    let i := i.record (Log.debug "evaluating program" [Log.attr "name" p.name])
    let (outcome, i) := i.evaluate p.expression (some global)
    (outcome, i.record (ending p.name outcome))

def records (i : Interpreter) : List Log.Record := i.log.reverse

/-- What a scope sees; without a scope, nothing. -/
def env (i : Interpreter) (scope : Option ScopeId) : Env :=
  match scope with
  | some id => i.machine.store.env id
  | none => []

def onStore {α : Type} (i : Interpreter) (f : Store → α × Store) : α × Interpreter :=
  let (a, store) := f i.machine.store
  (a, { i with machine := { i.machine with store } })

def newScope (i : Interpreter) (parent : Option ScopeId) : ScopeId × Interpreter :=
  i.onStore (·.child parent)

def capture (i : Interpreter) : Option ScopeId → Option ScopeId × Interpreter
  | none => (none, i)
  | some id =>
    let (copy, i) := i.onStore (·.capture id)
    (some copy, i)

def extend (i : Interpreter) : Option ScopeId → ScopeId × Interpreter
  | none => i.newScope none
  | some id => i.onStore (·.extend id)

def parent? (i : Interpreter) (scope : Option ScopeId) : Option ScopeId :=
  scope.bind i.machine.store.parent?

def define (i : Interpreter) (id : ScopeId) (name : String) (v : Value) : Interpreter :=
  (i.onStore fun s => ((), s.define id name v)).2

def undefinedText (name : String) : String := s!"undefined variable '{name}'"

end Interpreter

def Env.get (env : Env) (name : String) : Except String Value :=
  match env.lookup? name with
  | some v => .ok v
  | none => .error (Interpreter.undefinedText name)

end TreeWalk
