import TreeWalk.Eval.Fault
import TreeWalk.Scope.Store

/-!
# The machine

The state an evaluation works on: the scopes, the output, and how many closure bodies are being
evaluated, which a limit bounds. A failure keeps the state reached so far.
-/

namespace TreeWalk

/-- Where printed text goes. An output may accept only so many writes. -/
structure Output where
  /-- The accepted writes, newest first. -/
  writes : List ByteArray
  /-- How many more writes are accepted; without a number, all. -/
  room : Option Nat
  complaint : String
deriving Inhabited

namespace Output

def unlimited : Output := ⟨[], none, ""⟩

def limited (n : Nat) (complaint : String) : Output := ⟨[], some n, complaint⟩

def text (out : Output) : ByteArray :=
  out.writes.reverse.foldl (· ++ ·) ByteArray.empty

def write? (out : Output) (bytes : ByteArray) : Option Output :=
  match out.room with
  | none => some { out with writes := bytes :: out.writes }
  | some 0 => none
  | some (n + 1) => some { out with writes := bytes :: out.writes, room := some n }

end Output

structure Machine where
  store : Store
  output : Output
  /-- The number of closure bodies being evaluated. -/
  depth : Nat
  limit : Nat
deriving Inhabited

abbrev Eval (α : Type) := ExceptT Failure (StateM Machine) α

namespace Eval

def run {α : Type} (x : Eval α) (m : Machine) : Except Failure α × Machine := x m

def fail {α : Type} (f : Fault) : Eval α := throw (.fault f)

def onStore {α : Type} (f : Store → α × Store) : Eval α :=
  fun m => let (a, store) := f m.store; (.ok a, { m with store })

def lookup? (scope : ScopeId) (name : String) : Eval (Option Value) :=
  fun m => (.ok ((m.store.env scope).lookup? name), m)

def define (scope : ScopeId) (name : String) (v : Value) : Eval Unit :=
  onStore fun s => ((), s.define scope name v)

def kindOf (v : Value) : Eval Kind :=
  match v.kind? with
  | some k => pure k
  | none => throw .absentValue

def print (loc : Location) (v : Value) : Eval Unit := fun m =>
  match m.output.write? (v.format ++ "\n".toUTF8) with
  | some output => (.ok (), { m with output })
  | none => (.error (.output loc m.output.complaint), m)

/-- Evaluates a closure body one level deeper, if the limit allows. The level is left again
whatever comes of it. -/
def enter {α : Type} (loc : Location) (body : Eval α) : Eval α := fun m =>
  if m.limit ≤ m.depth then (.error (.fault (.exhausted loc m.limit)), m)
  else
    let (result, m) := body { m with depth := m.depth + 1 }
    (result, { m with depth := m.depth - 1 })

end Eval

end TreeWalk
