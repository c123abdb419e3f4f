import TreeWalk.Proofs.Scope.Relocation
import TreeWalk.Proofs.Syntax.Locations

/-!
# Scopes without locations

The only locations in a store are those in the bodies of closures. What is done to a store with its locations is done
in the same way to the store without them.
-/

namespace TreeWalk

def Closure.unlocated (c : Closure) : Closure := { c with body := c.body.unlocated }

def Value.unlocated : Value → Value
  | .pair a b => .pair a.unlocated b.unlocated
  | .closure c => .closure c.unlocated
  | v => v

def Bindings.unlocated (bindings : Bindings) : Bindings := bindings.map fun b => (b.1, b.2.unlocated)

def Env.unlocated (env : Env) : Env := env.map Bindings.unlocated

def Scope.unlocated (scope : Scope) : Scope := ⟨Bindings.unlocated scope.bindings, scope.parent⟩

@[simp] theorem Value.kind?_unlocated (v : Value) : v.unlocated.kind? = v.kind? := by
  cases v <;> rfl

@[simp] theorem Value.format_unlocated (v : Value) : v.unlocated.format = v.format := by
  induction v with
  | pair a b iha ihb => simp only [unlocated, format, iha, ihb]
  | _ => rfl

namespace Store

def unlocated (s : Store) : Store := ⟨s.scopes.map Scope.unlocated⟩

theorem scope?_unlocated (s : Store) (id : Nat) : s.unlocated.scope? id = (s.scope? id).map Scope.unlocated := by
  simp [scope?, unlocated]

theorem alloc_unlocated (s : Store) (scope : Scope) :
    s.unlocated.alloc scope.unlocated = ((s.alloc scope).1, (s.alloc scope).2.unlocated) := by
  simp [alloc, unlocated]

theorem define_unlocated (s : Store) (id : Nat) (name : String) (v : Value) :
    s.unlocated.define id name v.unlocated = (s.define id name v).unlocated := by
  apply ext_scope?
  intro g
  rw [scope?_define, scope?_unlocated, scope?_unlocated, scope?_define]
  split
  · next hg =>
    subst hg
    cases s.scope? id <;> rfl
  · rfl

theorem plant_unlocated (s : Store) (env : Env) :
    s.unlocated.plant env.unlocated = ((s.plant env).1, (s.plant env).2.unlocated) := by
  induction env with
  | nil => rfl
  | cons bindings outer ih =>
    have halloc : (s.plant outer).2.unlocated.alloc ⟨Bindings.unlocated bindings, (s.plant outer).1⟩ = _ :=
      alloc_unlocated (s.plant outer).2 ⟨bindings, (s.plant outer).1⟩
    change s.unlocated.plant (Bindings.unlocated bindings :: Env.unlocated outer) = _
    rw [plant_cons, plant_cons, ih, halloc]

theorem envFrom_unlocated (s : Store) (fuel : Nat) (id? : Option ScopeId) :
    s.unlocated.envFrom fuel id? = (s.envFrom fuel id?).unlocated := by
  induction fuel generalizing id? with
  | zero => rfl
  | succ fuel ih =>
    cases id? with
    | none => rfl
    | some id =>
      rw [envFrom_succ, envFrom_succ, scope?_unlocated]
      cases s.scope? id with
      | none => rfl
      | some scope => exact congrArg (_ :: ·) (ih scope.parent)

theorem env_unlocated (s : Store) (id : Nat) : s.unlocated.env id = (s.env id).unlocated := by
  have hsize : s.unlocated.scopes.size = s.scopes.size := by simp [unlocated]
  rw [env, env, hsize, envFrom_unlocated]

theorem capture_unlocated (s : Store) (id : Nat) :
    s.unlocated.capture id = ((s.capture id).1, (s.capture id).2.unlocated) := by
  have hhead : (Env.unlocated (s.env id)).headD [] = Bindings.unlocated ((s.env id).headD []) := by
    cases s.env id <;> rfl
  have htail : (Env.unlocated (s.env id)).tail = Env.unlocated (s.env id).tail := by
    cases s.env id <;> rfl
  rw [capture_eq, capture_eq, env_unlocated, hhead, htail, plant_unlocated]
  exact alloc_unlocated _ ⟨(s.env id).headD [], (s.plant (s.env id).tail).1⟩

theorem extend_unlocated (s : Store) (id : Nat) :
    s.unlocated.extend id = ((s.extend id).1, (s.extend id).2.unlocated) := by
  change (s.unlocated.capture id).2.child (some (s.unlocated.capture id).1) = _
  rw [capture_unlocated]
  exact alloc_unlocated (s.capture id).2 ⟨[], some (s.capture id).1⟩

end Store

end TreeWalk
