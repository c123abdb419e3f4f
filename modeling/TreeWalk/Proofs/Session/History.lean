import TreeWalk.Proofs.Eval.Relocation
import TreeWalk.Proofs.Session.CallDepth

/-!
# Runs and the past

A run makes all the scopes it works on, so nothing that was done with the interpreter before shows in it, apart from
the numbers of its scopes; and no scope that was there before it changes.
-/

namespace TreeWalk

namespace Interpreter

/-- The second run is the first with the numbers of its scopes raised by `d`: the outcome, the output, what is bound
globally, and the scopes from the global one on. -/
structure SameUpTo (d : Nat) (r r' : Outcome × Interpreter) : Prop where
  outcome : r'.1 = r.1.map (Value.shift d)
  output : r'.2.machine.output = r.2.machine.output
  global : r'.2.global = r.2.global + d
  env : r'.2.env (some r'.2.global) = (r.2.env (some r.2.global)).shift d
  scopes : ∀ id : Nat, r.2.global ≤ id →
    r'.2.machine.store.scope? (id + d) = (r.2.machine.store.scope? id).map (Scope.shift d)

section

variable {i : Interpreter} {p : Program}

theorem run_scope? (h : ¬p.expression.isAbsent) (id : Nat) :
    (i.run p).2.machine.store.scope? (id + i.machine.store.size) =
      ((Point.initial i.machine.output i.machine.limit p.expression).final.store.scope? id).map
        (Scope.shift i.machine.store.size) := by
  obtain ⟨-, hmachine, -⟩ := run_atop (i := i) h
  rw [hmachine]
  exact Store.scope?_atop _ i.machine.store.scopes id

theorem run_env (h : ¬p.expression.isAbsent) :
    (i.run p).2.env (some (i.run p).2.global) =
      ((Point.initial i.machine.output i.machine.limit p.expression).final.store.env 0).shift
        i.machine.store.size := by
  obtain ⟨-, hmachine, hglobal⟩ := run_atop (i := i) h
  have hordered := Point.initial_ordered i.machine.output i.machine.limit p.expression
  obtain ⟨-, hfinal⟩ := Point.result_atop hordered #[]
  have henv := Store.env_atop hfinal i.machine.store.scopes 0
  rw [Nat.zero_add] at henv
  rw [env, hmachine, hglobal]
  exact henv

end

theorem run_sameUpTo {i j : Interpreter} (houtput : j.machine.output = i.machine.output)
    (hlimit : j.machine.limit = i.machine.limit) (hsize : i.machine.store.size ≤ j.machine.store.size) {p : Program}
    (h : ¬p.expression.isAbsent) :
    SameUpTo (j.machine.store.size - i.machine.store.size) (i.run p) (j.run p) := by
  obtain ⟨hvalue, hmachine, hglobal⟩ := run_atop (i := i) h
  obtain ⟨hvalue', hmachine', hglobal'⟩ := run_atop (i := j) h
  have henv := run_env (i := i) h
  have henv' := run_env (i := j) h
  have hscope := run_scope? (i := i) h
  have hscope' := run_scope? (i := j) h
  obtain ⟨d, hd⟩ := Nat.exists_eq_add_of_le hsize
  rw [houtput, hlimit] at hvalue' hmachine' henv' hscope'
  rw [hd] at hvalue' hglobal' henv' hscope' ⊢
  rw [Nat.add_sub_cancel_left]
  refine ⟨?_, ?_, ?_, ?_, fun id hid => ?_⟩
  · rw [hvalue, hvalue']
    cases (Point.initial i.machine.output i.machine.limit p.expression).result.1 with
    | error e => rfl
    | ok v => exact congrArg Except.ok (Value.shift_shift _ d v).symm
  · rw [hmachine, hmachine']
    rfl
  · rw [hglobal, hglobal']
  · rw [henv, henv', Env.shift_shift]
  · have hid' : i.machine.store.size ≤ id := hglobal ▸ hid
    obtain ⟨k, rfl⟩ : ∃ k, id = k + i.machine.store.size := ⟨id - i.machine.store.size, by omega⟩
    rw [hscope, Nat.add_assoc, hscope', Option.map_map]
    congr 1
    funext scope
    exact (Scope.shift_shift _ d scope).symm

/-- In whatever way a session has brought an interpreter about, a program runs in it as in a new interpreter with the
same limit and the same output, apart from the numbers of scopes. No scope that was there before changes, nor what
is seen from it. A program without an expression fails and changes nothing. -/
theorem run_forgets_history (output : Output) (depth : Int) (i : Interpreter)
    (hsession : Session (fun _ _ => True) (new output depth) i) :
    (∀ p : Program, ¬p.expression.isAbsent →
      SameUpTo (i.machine.store.size - 1) ((new i.machine.output depth).run p) (i.run p)) ∧
    i.global < i.machine.store.size ∧
    (∀ (p : Program) (h : Nat), h < i.machine.store.size →
      (i.run p).2.machine.store.scope? h = i.machine.store.scope? h ∧ (i.run p).2.env (some h) = i.env (some h)) ∧
    ∀ p : Program, p.expression.isAbsent → i.run p = (.error (.fault .noProgram), i) := by
  have hsound := (new_sound output depth).of_session hsession
  refine ⟨fun p hp => ?_, hsound.global_lt, fun p h hh => ?_, fun p hp => run_absent hp⟩
  · obtain ⟨-, hlimit⟩ := session_depth hsession
    have hone : (new i.machine.output depth).machine.store.size = 1 := rfl
    have hsame := run_sameUpTo (i := new i.machine.output depth) (j := i) rfl hlimit
      (Nat.lt_of_le_of_lt (Nat.zero_le _) hsound.global_lt) hp
    rwa [hone] at hsame
  · have haims := run_aims hsound p
    have hadds : i.machine.store.Adds (i.run p).2.machine.store :=
      ⟨haims.size_le, fun id hid => haims.others id hid (by rintro ⟨⟩)⟩
    exact ⟨hadds.scope?_eq h hh, hadds.env_eq hsound.ordered haims.sound.ordered hh⟩

def printedClosure : Program :=
  ⟨"closure",
    .letIn .unknown ⟨"x", .unknown⟩ (.print .unknown (.bool .unknown true))
      (.function .unknown [] (.var .unknown "x")), .unknown⟩

/-- An interpreter with `x` bound in its first global scope, in which `printedClosure` has been run and then the
variable `y` has been looked for in vain. -/
def usedBefore : Interpreter :=
  ((((new .unlimited 0).perform (.define 0 "x" (.bool false))).2.perform (.run printedClosure)).2.perform
    (.evaluate (.var .unknown "y") none)).2

theorem run_forgets_history_printedClosure :
    Session (fun _ _ => True) (new .unlimited 0) usedBefore ∧ ¬printedClosure.expression.isAbsent ∧
    SameUpTo 2 ((new usedBefore.machine.output 0).run printedClosure) (usedBefore.run printedClosure) ∧
    (usedBefore.run printedClosure).2.env (some 0) = usedBefore.env (some 0) := by
  have hdefine : (Action.define 0 "x" (.bool false)).Possible (new .unlimited 0) := by
    intro id hid
    rw [List.mem_singleton.mp hid]
    exact Nat.zero_lt_one
  have hsession : Session (fun _ _ => True) (new .unlimited 0) usedBefore :=
    .step _ (.step _ (.step _ .start hdefine trivial) (by rintro id ⟨⟩) trivial) (by rintro id ⟨⟩) trivial
  have hpresent : ¬printedClosure.expression.isAbsent := by decide
  obtain ⟨hsame, -, hkept, -⟩ := run_forgets_history .unlimited 0 usedBefore hsession
  exact ⟨hsession, hpresent, hsame printedClosure hpresent, (hkept printedClosure 0 (by decide)).2⟩

end Interpreter

end TreeWalk
