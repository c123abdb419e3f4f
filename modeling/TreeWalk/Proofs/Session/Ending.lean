import TreeWalk.Proofs.Eval.Termination
import TreeWalk.Proofs.Reference.Invariant
import TreeWalk.Proofs.Session.Meaning

/-!
# Every evaluation ends

Evaluations and runs that follow the rules with fuel come, from some amount of fuel on, to one and the same end,
whatever closures the scopes hold. In an environment in which nothing is absent the end is a value, a fault of
the program or a write that the output refused.
-/

namespace TreeWalk

/-- The evaluation gave a value, or a fault of the program or the output stopped it. -/
def Outcome.Proper (outcome : Outcome) : Prop :=
  (∃ v, outcome = .ok v) ∨ (∃ f, outcome = .error (.fault f)) ∨ ∃ loc reason, outcome = .error (.output loc reason)

namespace Reference

inductive Value.Whole : Value → Prop
  | int (n : Int64) : Whole (.int n)
  | str (s : ByteArray) : Whole (.str s)
  | bool (b : Bool) : Whole (.bool b)
  | pair {a b : Value} (ha : Whole a) (hb : Whole b) : Whole (.pair a b)
  | closure {env : Env} (params : List String) (body : Term)
    (henv : ∀ bindings ∈ env, ∀ b ∈ bindings, Whole b.2) : Whole (.closure params body env)

def Env.Whole (env : Env) : Prop := ∀ bindings ∈ env, ∀ b ∈ bindings, Value.Whole b.2

/-- The discipline that allows every term everywhere. -/
def Discipline.lenient : Discipline Unit where
  ok _ _ _ := True
  operand _ _ := trivial
  next _ _ := trivial
  later _ _ _ := trivial
  body _ _ := ⟨(), trivial⟩

theorem Value.Whole.fits {v : Value} (h : v.Whole) : Fits Discipline.lenient v := by
  induction h with
  | int n => exact .int n
  | str s => exact .str s
  | bool b => exact .bool b
  | pair _ _ iha ihb => exact .pair iha ihb
  | @closure env params body _ ih =>
    -- any names are those of some parameters
    have hnames : (params.map (Parameter.mk · .unknown)).map Parameter.text = params := by
      rw [List.map_map]
      exact List.map_id params
    have hok : Discipline.lenient.ok () env (.function .unknown (params.map (Parameter.mk · .unknown)) body) := trivial
    have hfits := Fits.closure hok ih
    rwa [hnames] at hfits

theorem Raised.proper {limit : Nat} {env : Env} {t : Term} {e : Failure} (h : Raised limit env t e) :
    Outcome.Proper (.error e) := by
  right
  cases h with
  | operator lhs rhs hl hr hoperate =>
    left
    rcases operate_error hl hr hoperate with ⟨name, -, rfl⟩ | ⟨-, rfl⟩ | ⟨-, rfl⟩ | rfl
    · exact ⟨_, rfl⟩
    · exact ⟨_, rfl⟩
    · exact ⟨_, rfl⟩
    · exact ⟨_, rfl⟩
  | output loc t reason => exact .inr ⟨loc, reason, rfl⟩
  | _ => exact .inl ⟨_, rfl⟩

theorem proper_of_whole {outer : Env} {scope : Bindings} (hwhole : Env.Whole (scope :: outer)) {t : Term}
    {limit depth : Nat} {output : Output} {outcome : Outcome} {f : TreeWalk.Value → Value}
    (h : (evaluate limit depth t (scope :: outer) output).1 = outcome.map f) : outcome.Proper := by
  have hfits : Env.Fits Discipline.lenient (scope :: outer) :=
    fun bindings hmem b hb => (hwhole bindings hmem b hb).fits
  have hok : Discipline.lenient.ok () (scope :: outer) t := trivial
  obtain ⟨-, hfailure, -⟩ := evaluate_upholds hfits hok limit depth output
  cases outcome with
  | ok v => exact .inl ⟨v, rfl⟩
  | error e =>
    obtain ⟨_, _, _, -, -, hraised⟩ := hfailure e h
    exact hraised.proper

end Reference

namespace Interpreter

/-- Evaluates a term in a scope by following the rules with fuel. -/
def evaluateWithin (i : Interpreter) (fuel : Nat) (t : Term) (scope : Option ScopeId) : Outcome × Interpreter :=
  let (outcome, machine) := (t.evalWithin fuel (scope.getD i.global)).run i.machine
  (outcome, { i with machine })

def runWithin (i : Interpreter) (fuel : Nat) (p : Program) : Outcome × Interpreter :=
  if p.expression.isAbsent then (.error (.fault .noProgram), i)
  else
    let i := i.fresh.record (Log.debug "evaluating program" [Log.attr "name" p.name])
    let (outcome, i) := i.evaluateWithin fuel p.expression (some i.global)
    (outcome, i.record (ending p.name outcome))

theorem evaluate_settles (i : Interpreter) (t : Term) (scope : Option ScopeId) :
    ∃ fuel, (i.evaluate t scope).1 ≠ .error .unfinished ∧
      ∀ more, fuel ≤ more → i.evaluateWithin more t scope = i.evaluate t scope := by
  have hsettles := Term.ends i.machine.levels t (scope.getD i.global) i.machine rfl
  rw [← Term.eval_eq] at hsettles
  obtain ⟨⟨fuel, henough⟩, hfinished⟩ := hsettles
  refine ⟨fuel, hfinished, fun more hmore => ?_⟩
  rw [evaluateWithin, henough more hmore]
  rfl

theorem run_settles (i : Interpreter) (p : Program) :
    ∃ fuel, (i.run p).1 ≠ .error .unfinished ∧ ∀ more, fuel ≤ more → i.runWithin more p = i.run p := by
  by_cases h : p.expression.isAbsent
  · refine ⟨0, ?_, fun more _ => ?_⟩
    · rw [run_absent h]
      rintro ⟨⟩
    · rw [run_absent h, runWithin, if_pos h]
  · obtain ⟨fuel, hfinished, henough⟩ := evaluate_settles
      (i.fresh.record (Log.debug "evaluating program" [Log.attr "name" p.name])) p.expression (some i.fresh.global)
    refine ⟨fuel, ?_, fun more hmore => ?_⟩
    · rw [run_present h]
      exact hfinished
    · have hglobal : (i.fresh.record (Log.debug "evaluating program" [Log.attr "name" p.name])).global =
          i.fresh.global := rfl
      rw [runWithin, if_neg h]
      dsimp only
      rw [hglobal, henough more hmore, run_present h]
      rfl

/-- Followed with enough fuel, the rules of evaluation come to an end for every term, in every scope of every
interpreter, and more fuel changes nothing; the same goes for programs. A caller whose environment has nothing
absent in it gets a value, a fault or a refused write from each evaluation, and from each run of a program. -/
theorem evaluation_ends :
    (∀ (i : Interpreter) (t : Term) (scope : Option ScopeId),
      ∃ fuel, (i.evaluate t scope).1 ≠ .error .unfinished ∧
        ∀ more, fuel ≤ more → i.evaluateWithin more t scope = i.evaluate t scope) ∧
    (∀ (i : Interpreter) (p : Program),
      ∃ fuel, (i.run p).1 ≠ .error .unfinished ∧ ∀ more, fuel ≤ more → i.runWithin more p = i.run p) ∧
    ∀ (i : Interpreter) (k : Caller), Caller.Session i k →
      (∀ (t : Term) (h : Nat), k.held h → (i.machine.store.contents h).Whole → (i.evaluate t (some h)).1.Proper) ∧
      ∀ p : Program, (i.run p).1.Proper := by
  refine ⟨evaluate_settles, run_settles, fun i k hsession => ⟨fun t h hh hwhole => ?_, fun p => ?_⟩⟩
  · have hsealed := hsession.sealed hh
    have hcontents := Store.contents_eq_cons hsealed.ordered (hsealed.live_lt h rfl)
    have hrefines := (i.point t h).refines hsealed rfl (fun _ _ => trivial) rfl
    have hstart : (i.point t h).machine.store.contents (i.point t h).scope = _ := hcontents
    rw [hstart] at hrefines
    exact Reference.proper_of_whole (hcontents ▸ hwhole) (congrArg Prod.fst hrefines)
  · by_cases hp : p.expression.isAbsent
    · rw [run_absent hp]
      exact .inr (.inl ⟨_, rfl⟩)
    · have hempty : Reference.Env.Whole [[]] := by simp [Reference.Env.Whole]
      exact Reference.proper_of_whole hempty (congrArg Prod.fst (run_refines hsession hp))

/-- An interpreter with the limit 2 that has bound `f` to `fn (g) => g(g)`. -/
def selfApplier : Interpreter :=
  ((new .unlimited 2).perform (.evaluate
    (.letIn .unknown ⟨"f", .unknown⟩
      (.function .unknown [⟨"g", .unknown⟩] (.call .unknown (.var .unknown "g") [.var .unknown "g"] true))
      (.var .unknown "f")) none)).2

theorem evaluation_ends_selfApplier :
    (∃ k, Caller.Session selfApplier k ∧ k.held 0) ∧ (selfApplier.machine.store.contents 0).Whole ∧
    (∃ fuel, ∀ more, fuel ≤ more →
      selfApplier.evaluateWithin more (.call .unknown (.var .unknown "f") [.var .unknown "f"] true) (some 0) =
        selfApplier.evaluate (.call .unknown (.var .unknown "f") [.var .unknown "f"] true) (some 0)) ∧
    (selfApplier.evaluate (.call .unknown (.var .unknown "f") [.var .unknown "f"] true) (some 0)).1.Proper := by
  have hsession : Caller.Session selfApplier _ := .perform _ (.new .unlimited 2) (by rintro id ⟨⟩)
  have hcontents : selfApplier.machine.store.contents 0 =
      [[("f", .closure ["g"] (.call .unknown (.var .unknown "g") [.var .unknown "g"] true) [[]])]] := by rfl
  have hwhole : (selfApplier.machine.store.contents 0).Whole := by
    rw [hcontents]
    intro bindings hmem b hb
    obtain rfl := List.mem_singleton.mp hmem
    obtain rfl := List.mem_singleton.mp hb
    exact .closure _ _ (by simp)
  obtain ⟨fuel, -, henough⟩ := evaluation_ends.1 selfApplier
    (.call .unknown (.var .unknown "f") [.var .unknown "f"] true) (some 0)
  exact ⟨⟨_, hsession, .inl rfl⟩, hwhole, ⟨fuel, henough⟩,
    (evaluation_ends.2.2 selfApplier _ hsession).1 _ 0 (.inl rfl) hwhole⟩

end Interpreter

end TreeWalk
