import TreeWalk.Proofs.Eval.Part

/-!
# Evaluation touches one scope

Of the scopes there are when a term is evaluated, only the one it is evaluated in changes. It gets
bindings in front of its own, from the `let`s in the text of the term; what the bodies of closures
bind stays in the frames of the calls.
-/

namespace TreeWalk

namespace Interpreter

/-- The point at which the evaluation of a term in a scope begins. -/
def point (i : Interpreter) (t : Term) (h : ScopeId) : Point :=
  ⟨i.machine.limit - i.machine.depth, t, h, i.machine⟩

theorem evaluate_eq (i : Interpreter) (t : Term) (scope : Option ScopeId) :
    i.evaluate t scope = ((i.point t (scope.getD i.global)).result.1,
      { i with machine := (i.point t (scope.getD i.global)).final }) := rfl

/-- The interpreter as a run begins: with a fresh global scope, at depth zero. -/
def fresh (i : Interpreter) : Interpreter :=
  { i with
    machine := { i.machine with store := (i.machine.store.child none).2, depth := 0 }
    global := (i.machine.store.child none).1 }

theorem run_absent {i : Interpreter} {p : Program} (h : p.expression.isAbsent) :
    i.run p = (.error (.fault .noProgram), i) := if_pos h

theorem run_present {i : Interpreter} {p : Program} (h : ¬p.expression.isAbsent) :
    i.run p = ((i.fresh.point p.expression i.fresh.global).result.1,
      ⟨(i.fresh.point p.expression i.fresh.global).final, i.fresh.global,
        ending p.name (i.fresh.point p.expression i.fresh.global).result.1 ::
          Log.debug "evaluating program" [Log.attr "name" p.name] :: i.log⟩) := by
  unfold run
  rw [if_neg h]
  rfl

end Interpreter

namespace Point

/-- The body of a closure leaves alone the scopes that were there when the closure was found, so the
scope of the caller and the scopes the closure captured. -/
theorem Enters.keeps {q b : Point} {c : Closure} {m₁ : Machine} (h : q.Enters c m₁ b)
    (hq : q.scope < q.machine.store.size) :
    q.scope < m₁.store.size ∧ m₁.store.size ≤ b.scope ∧
      ∀ id : Nat, id < m₁.store.size → b.final.store.scope? id = b.machine.store.scope? id := by
  cases h with
  | @intro n loc callee args listed h m _ _ m₂ e harity hargs hdepth =>
    obtain ⟨⟨_, he⟩, hsize, hin⟩ := frame_effect hq e hargs
    have hnew := m₁.size_le_frame c.scope
    refine ⟨Nat.lt_of_lt_of_le hq hsize, hnew, fun id hid => ?_⟩
    obtain ⟨added, hbody, _⟩ :=
      effect ⟨n, c.body, (m₁.frame c.scope).1, { m₂ with depth := m₂.depth + 1 }⟩ hin
    exact hbody.others id (Nat.lt_trans (Nat.lt_of_lt_of_le hid hnew) hin) (by dsimp only; omega)

end Point

namespace Interpreter

/-- Whatever comes of an evaluation in scope `h`, every other scope is what it was, and `h` keeps its
parent and its bindings. In front of these stand bindings that belong to `let`s of the term outside its
function literals: to each of these `let`s at most one, with its name and the value that was found for it.
During the body of a called closure, no scope changes that was there when the closure was found. -/
theorem evaluate_changes_one_scope (i : Interpreter) (t : Term) (h : Nat) (hh : h < i.machine.store.size) :
    (∀ id : Nat, id < i.machine.store.size → id ≠ h →
      (i.evaluate t (some h)).2.machine.store.scope? id = i.machine.store.scope? id) ∧
    (∃ scope added, i.machine.store.scope? h = some scope ∧
      (i.evaluate t (some h)).2.machine.store.scope? h = some ⟨added ++ scope.bindings, scope.parent⟩ ∧
      Drawn (i.point t h).Yields t.lets added) ∧
    ∀ q c m b, (i.point t h).Visits q → q.Enters c m b →
      q.scope < m.store.size ∧ m.store.size ≤ b.scope ∧
        ∀ id : Nat, id < m.store.size → b.final.store.scope? id = b.machine.store.scope? id := by
  obtain ⟨added, e, hdrawn⟩ := (i.point t h).effect hh
  obtain ⟨scope, hscope⟩ := Store.scope?_isSome hh
  refine ⟨fun id hid hne => e.others id hid hne, ⟨scope, added, hscope, ?_, hdrawn⟩, ?_⟩
  · have htarget := e.target
    change _ = (i.machine.store.scope? h).map _ at htarget
    rw [hscope] at htarget
    exact htarget
  · intro q c m b hvisits henters
    exact henters.keeps (hvisits.part hh).scope_lt

theorem evaluate_changes_one_scope_inside :
    1 < ((new .unlimited 0).newScope (some 0)).2.machine.store.size ∧
    (((new .unlimited 0).newScope (some 0)).2.evaluate
      (.letIn .unknown ⟨"x", .unknown⟩
        (.call .unknown (.function .unknown []
          (.letIn .unknown ⟨"y", .unknown⟩ (.int .unknown 1) (.var .unknown "y"))) [] true)
        (.var .unknown "x")) (some 1)).2.machine.store.scope? 0 =
      ((new .unlimited 0).newScope (some 0)).2.machine.store.scope? 0 :=
  have hsize : 1 < ((new .unlimited 0).newScope (some 0)).2.machine.store.size := by decide
  ⟨hsize, (evaluate_changes_one_scope _ _ 1 hsize).1 0 (by decide) (by decide)⟩

end Interpreter

end TreeWalk
