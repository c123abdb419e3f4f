import Mathlib.Logic.Relation
import TreeWalk.Proofs.Eval.Run

/-!
# Visits

An evaluation as a tree: a point is a term about to be evaluated, with the scope and the machine
it meets, and a point leads to the points whose evaluation it calls for. The points that come up
in the course of an evaluation are those it visits.
-/

namespace TreeWalk

theorem Output.exists_write? {out : Output} (h : out.room ≠ some 0) (bytes : ByteArray) :
    ∃ out', out.write? bytes = some out' ∧ out'.writes = bytes :: out.writes := by
  unfold write?
  split
  · exact ⟨_, rfl, rfl⟩
  · next hroom => exact absurd hroom h
  · exact ⟨_, rfl, rfl⟩

/-- A term about to be evaluated in a scope, with `levels` closure bodies left to enter. -/
structure Point where
  levels : Nat
  term : Term
  scope : ScopeId
  machine : Machine

namespace Point

def result (p : Point) : Outcome × Machine := (p.term.eval p.levels p.scope).run p.machine

def final (p : Point) : Machine := p.result.2

section

variable {n : Nat} {scope : ScopeId} {m m₁ m₂ : Machine} {lhs rhs : Term} {v w : Value}

theorem result_binary (hl : result ⟨n, lhs, scope, m⟩ = (.ok v, m₁)) (hr : result ⟨n, rhs, scope, m₁⟩ = (.ok w, m₂))
    (loc : Location) (op : Operator) : result ⟨n, .binary loc lhs op rhs, scope, m⟩ = (operate loc op v w, m₂) := by
  rw [result, Term.eval_eq] at hl hr ⊢
  rw [Term.evalWith, Eval.run_bind_ok hl, Eval.run_bind_ok hr, Eval.run_liftExcept]

theorem result_print {t : Term} (h : result ⟨n, t, scope, m⟩ = (.ok v, m₁)) (hroom : m₁.output.room ≠ some 0)
    (loc : Location) : ∃ m', result ⟨n, .print loc t, scope, m⟩ = (.ok v, m') ∧
      m'.output.writes = (v.format ++ "\n".toUTF8) :: m₁.output.writes := by
  obtain ⟨out, hwrite, hwrites⟩ := Output.exists_write? hroom (v.format ++ "\n".toUTF8)
  refine ⟨{ m₁ with output := out }, ?_, hwrites⟩
  rw [result, Term.eval_eq] at h ⊢
  have hprint : (Eval.print loc v).run m₁ = (.ok (), { m₁ with output := out }) := by rw [Eval.run_print, hwrite]
  rw [Term.evalWith, Eval.run_bind_ok h, Eval.run_bind_ok hprint]
  rfl

end

end Point

/-- The frame of a call of a closure captured in scope `id`, and the machine that has it. -/
def Machine.frame (m : Machine) (id : ScopeId) : Nat × Machine :=
  ((m.store.extend id).1, { m with store := (m.store.extend id).2 })

namespace Point

/-- Evaluating the first point calls the closure `c`, which is found on the machine `m₁`, and evaluates
its body at the second point. -/
inductive Enters : Point → Closure → Machine → Point → Prop
  | intro {n loc callee args listed h m c m₁ m₂} (e : result ⟨n + 1, callee, h, m⟩ = (.ok (.closure c), m₁))
    (harity : args.length = c.arity)
    (hargs : (Term.bindWith (Term.evalBody (n + 1)) args c.params h (m₁.frame c.scope).1).run
      (m₁.frame c.scope).2 = (.ok (), m₂))
    (hdepth : m₂.depth < m₂.limit) :
    Enters ⟨n + 1, .call loc callee args listed, h, m⟩ c m₁
      ⟨n, c.body, (m₁.frame c.scope).1, { m₂ with depth := m₂.depth + 1 }⟩

/-- Evaluating the first point takes evaluating the second. -/
inductive Next : Point → Point → Prop
  | binaryLeft {n loc lhs op rhs h m} : Next ⟨n, .binary loc lhs op rhs, h, m⟩ ⟨n, lhs, h, m⟩
  | binaryRight {n loc lhs op rhs h m v m'} (e : result ⟨n, lhs, h, m⟩ = (.ok v, m')) :
    Next ⟨n, .binary loc lhs op rhs, h, m⟩ ⟨n, rhs, h, m'⟩
  | letValue {n loc name value next h m} : Next ⟨n, .letIn loc name value next, h, m⟩ ⟨n, value, h, m⟩
  | letNext {n loc name value next h m v m'} (e : result ⟨n, value, h, m⟩ = (.ok v, m')) :
    Next ⟨n, .letIn loc name value next, h, m⟩
      ⟨n, next, h, { m' with store := m'.store.define h name.text v }⟩
  | callee {n loc callee args listed h m} : Next ⟨n, .call loc callee args listed, h, m⟩ ⟨n, callee, h, m⟩
  | argument {n loc callee listed h m c m₁ m₂ before arg after}
    (e : result ⟨n, callee, h, m⟩ = (.ok (.closure c), m₁))
    (harity : (before ++ arg :: after).length = c.arity)
    (hbefore : (Term.bindWith (Term.evalBody n) before c.params h (m₁.frame c.scope).1).run
      (m₁.frame c.scope).2 = (.ok (), m₂)) :
    Next ⟨n, .call loc callee (before ++ arg :: after) listed, h, m⟩ ⟨n, arg, h, m₂⟩
  | body {p c m q} (h : Enters p c m q) : Next p q
  | condition {n loc c t e h m} : Next ⟨n, .ite loc c t e, h, m⟩ ⟨n, c, h, m⟩
  | thenBranch {n loc c t e h m m'} (hc : result ⟨n, c, h, m⟩ = (.ok (.bool true), m')) :
    Next ⟨n, .ite loc c t e, h, m⟩ ⟨n, t, h, m'⟩
  | otherwise {n loc c t e h m m'} (hc : result ⟨n, c, h, m⟩ = (.ok (.bool false), m')) :
    Next ⟨n, .ite loc c t e, h, m⟩ ⟨n, e, h, m'⟩
  | tupleFirst {n loc a b h m} : Next ⟨n, .tuple loc a b, h, m⟩ ⟨n, a, h, m⟩
  | tupleSecond {n loc a b h m v m'} (e : result ⟨n, a, h, m⟩ = (.ok v, m')) :
    Next ⟨n, .tuple loc a b, h, m⟩ ⟨n, b, h, m'⟩
  | first {n loc t h m} : Next ⟨n, .first loc t, h, m⟩ ⟨n, t, h, m⟩
  | second {n loc t h m} : Next ⟨n, .second loc t, h, m⟩ ⟨n, t, h, m⟩
  | print {n loc t h m} : Next ⟨n, .print loc t, h, m⟩ ⟨n, t, h, m⟩

/-- The points that come up in the course of an evaluation, the first one included. -/
def Visits : Point → Point → Prop := Relation.ReflTransGen Next

end Point

end TreeWalk
