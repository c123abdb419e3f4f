import TreeWalk.Proofs.Eval.Locality
import TreeWalk.Proofs.Scope.Ownership

/-!
# Sessions

What can be done with an interpreter from outside, as actions, and sessions of any length. Each
action changes at most one scope of those there are, the one it is aimed at.
-/

namespace TreeWalk

inductive Action where
  | newScope (parent : Option ScopeId)
  | extend (scope : Option ScopeId)
  | capture (scope : Option ScopeId)
  | parent (scope : Option ScopeId)
  | define (scope : ScopeId) (name : String) (v : Value)
  | evaluate (t : Term) (scope : Option ScopeId)
  | run (p : Program)

inductive Answer where
  | scope (id : Option ScopeId)
  | outcome (o : Outcome)
  | done

def Interpreter.perform (i : Interpreter) : Action → Answer × Interpreter
  | .newScope parent => (.scope (some (i.newScope parent).1), (i.newScope parent).2)
  | .extend scope => (.scope (some (i.extend scope).1), (i.extend scope).2)
  | .capture scope => (.scope (i.capture scope).1, (i.capture scope).2)
  | .parent scope => (.scope (i.parent? scope), i)
  | .define scope name v => (.done, i.define scope name v)
  | .evaluate t scope => (.outcome (i.evaluate t scope).1, (i.evaluate t scope).2)
  | .run p => (.outcome (i.run p).1, (i.run p).2)

namespace Action

def scopes : Action → List ScopeId
  | newScope outer => outer.toList
  | extend scope | capture scope | parent scope | evaluate _ scope => scope.toList
  | define scope _ v => scope :: v.closures.map Closure.scope
  | run _ => []

/-- The action refers to scopes there are. -/
def Possible (a : Action) (i : Interpreter) : Prop := ∀ id ∈ a.scopes, id < i.machine.store.size

/-- The scope in which an action binds names or evaluates. -/
def target? (i : Interpreter) : Action → Option ScopeId
  | define scope _ _ => some scope
  | evaluate _ scope => some (scope.getD i.global)
  | _ => none

end Action

/-- From the first interpreter, actions that satisfy `P` lead to the second. -/
inductive Session (P : Interpreter → Action → Prop) (i : Interpreter) : Interpreter → Prop
  | start : Session P i i
  | step {j : Interpreter} (a : Action) (h : Session P i j) (hpossible : a.Possible j) (ha : P j a) :
    Session P i (j.perform a).2

/-- The interpreter results from a new one by some session. -/
def Interpreter.Reachable (i : Interpreter) : Prop :=
  ∃ output depth, Session (fun _ _ => True) (.new output depth) i

namespace Interpreter

/-- What holds of every interpreter in a session. -/
structure Sound (i : Interpreter) : Prop where
  ordered : i.machine.store.Ordered
  global_lt : i.global < i.machine.store.size

theorem new_sound (output : Output) (depth : Int) : (new output depth).Sound := by
  refine ⟨?_, Nat.zero_lt_one⟩
  have hempty : Store.empty.Ordered := fun _ _ _ h => nomatch Store.lt_size h
  exact hempty.child fun _ h => nomatch h

/-- From `i` to `j`, every scope there was is what it was but for `target?`. -/
structure Aims (i : Interpreter) (target? : Option ScopeId) (j : Interpreter) : Prop where
  sound : j.Sound
  size_le : i.machine.store.size ≤ j.machine.store.size
  others : ∀ id : Nat, id < i.machine.store.size → target? ≠ some id →
    j.machine.store.scope? id = i.machine.store.scope? id

theorem Aims.of_adds {i : Interpreter} {target? : Option ScopeId} {s : Store} (hi : i.Sound)
    (hs : i.machine.store.Adds s) (ho : s.Ordered) :
    i.Aims target? { i with machine := { i.machine with store := s } } :=
  ⟨⟨ho, Nat.lt_of_lt_of_le hi.global_lt hs.size_le⟩, hs.size_le, fun id hid _ => hs.scope?_eq id hid⟩

theorem evaluate_aims {i : Interpreter} (hi : i.Sound) (t : Term) (scope : Option ScopeId)
    (hscope : scope.getD i.global < i.machine.store.size) :
    i.Aims (some (scope.getD i.global)) (i.evaluate t scope).2 := by
  obtain ⟨added, e, _⟩ := (i.point t (scope.getD i.global)).effect hscope
  refine ⟨⟨e.ordered hi.ordered, Nat.lt_of_lt_of_le hi.global_lt e.size_le⟩, e.size_le, fun id hid hne => ?_⟩
  exact e.others id hid fun h => hne (by rw [h]; rfl)

theorem fresh_sound {i : Interpreter} (hi : i.Sound) : i.fresh.Sound := by
  refine ⟨hi.ordered.child (by rintro id ⟨⟩), ?_⟩
  change _ < (i.machine.store.alloc _).2.size
  rw [Store.size_alloc]
  exact Nat.lt_succ_self _

theorem run_machine {i : Interpreter} {p : Program} (h : ¬p.expression.isAbsent) :
    (i.run p).2.machine = (i.fresh.point p.expression i.fresh.global).final ∧
      (i.run p).2.global = i.fresh.global := by
  rw [run_present h]
  exact ⟨rfl, rfl⟩

theorem run_aims {i : Interpreter} (hi : i.Sound) (p : Program) : i.Aims none (i.run p).2 := by
  by_cases h : p.expression.isAbsent
  · rw [run_absent h]
    exact ⟨hi, Nat.le_refl _, fun _ _ _ => rfl⟩
  · have hadds : i.machine.store.Adds i.fresh.machine.store := Store.child_adds _ _
    obtain ⟨hmachine, hglobal⟩ := run_machine (i := i) h
    obtain ⟨added, e, _⟩ := (i.fresh.point p.expression i.fresh.global).effect (fresh_sound hi).global_lt
    rw [← hmachine] at e
    have hsize : i.fresh.machine.store.size ≤ (i.run p).2.machine.store.size := e.size_le
    refine ⟨⟨e.ordered (fresh_sound hi).ordered, ?_⟩, Nat.le_trans hadds.size_le hsize, fun id hid _ => ?_⟩
    · rw [hglobal]
      exact Nat.lt_of_lt_of_le (fresh_sound hi).global_lt hsize
    · have hne : id ≠ i.fresh.global := Nat.ne_of_lt hid
      exact (e.others id (Nat.lt_of_lt_of_le hid hadds.size_le) hne).trans (hadds.scope?_eq id hid)

theorem define_aims {i : Interpreter} (hi : i.Sound) (scope : ScopeId) (name : String) (v : Value) :
    i.Aims (some scope) (i.define scope name v) := by
  have hsize := Store.size_define i.machine.store scope name v
  refine ⟨⟨hi.ordered.define scope name v, ?_⟩, Nat.le_of_eq hsize.symm, fun id _ hne => ?_⟩
  · change _ < (i.machine.store.define scope name v).size
    rw [hsize]
    exact hi.global_lt
  · change (i.machine.store.define scope name v).scope? id = _
    rw [Store.scope?_define, if_neg fun h => hne (congrArg some h)]

theorem perform_aims {i : Interpreter} (hi : i.Sound) {a : Action} (ha : a.Possible i) :
    i.Aims (a.target? i) (i.perform a).2 := by
  cases a with
  | newScope parent =>
    refine .of_adds hi (Store.child_adds _ parent) (hi.ordered.child fun id h => ha id ?_)
    simp [Action.scopes, h]
  | extend scope =>
    cases scope with
    | none => exact .of_adds hi (Store.child_adds _ none) (hi.ordered.child fun _ h => nomatch h)
    | some id => exact .of_adds hi (Store.extend_adds _ id) (hi.ordered.extend id)
  | capture scope =>
    cases scope with
    | none => exact ⟨hi, Nat.le_refl _, fun _ _ _ => rfl⟩
    | some id => exact .of_adds hi (Store.capture_adds _ id) (hi.ordered.capture id)
  | parent scope => exact ⟨hi, Nat.le_refl _, fun _ _ _ => rfl⟩
  | define scope name v => exact define_aims hi scope name v
  | evaluate t scope =>
    refine evaluate_aims hi t scope ?_
    cases scope with
    | none => exact hi.global_lt
    | some id => exact ha id (by simp [Action.scopes])
  | run p => exact run_aims hi p

theorem Sound.of_session {P : Interpreter → Action → Prop} {i j : Interpreter} (hi : i.Sound)
    (h : Session P i j) : j.Sound := by
  induction h with
  | start => exact hi
  | step a _ hpossible _ ih => exact (perform_aims ih hpossible).sound

theorem Reachable.sound {i : Interpreter} (h : i.Reachable) : i.Sound := by
  obtain ⟨output, depth, hsession⟩ := h
  exact (new_sound output depth).of_session hsession

end Interpreter

end TreeWalk
