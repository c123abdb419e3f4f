import TreeWalk.Proofs.Eval.DepthLimit
import TreeWalk.Proofs.Eval.Termination
import TreeWalk.Proofs.Session.Basic

/-!
# The depth counts closure bodies

At every point that an evaluation visits, the depth is what it was at the beginning plus the number of
closure bodies that were entered since and not left, and it is within the limit. Whatever becomes of an
evaluation, the depth is then what it was. So between the actions of a session nothing is left of it, and
each evaluation may go as deep as the first.
-/

namespace TreeWalk

namespace Point

/-- `q` is evaluated in the course of `p`, inside `k` closure bodies entered on the way. -/
inductive Inside (p : Point) : Nat → Point → Prop
  | start : Inside p 0 p
  | part {k : Nat} {q r : Point} (h : Inside p k q) (hnext : q.Next r) (hsame : ∀ c m, ¬q.Enters c m r) : Inside p k r
  | body {k : Nat} {q r : Point} {c : Closure} {m : Machine} (h : Inside p k q) (henters : q.Enters c m r) :
    Inside p (k + 1) r

theorem Visits.inside {p q : Point} (h : p.Visits q) : ∃ k, p.Inside k q := by
  induction h with
  | refl => exact ⟨0, .start⟩
  | @tail q r _ hnext ih =>
    obtain ⟨k, hk⟩ := ih
    by_cases henters : ∃ c m, q.Enters c m r
    · obtain ⟨c, m, h⟩ := henters
      exact ⟨k + 1, hk.body h⟩
    · exact ⟨k, hk.part hnext fun c m h => henters ⟨c, m, h⟩⟩

/-- A call whose callee is the closure `c`, found on the machine `m₁`, and whose arguments are bound in its
frame on the machine `m₂`. All that is left is to evaluate the body. -/
inductive Calls : Point → Location → Closure → Machine → Machine → Prop
  | intro {n loc callee args listed h m c m₁ m₂} (e : result ⟨n, callee, h, m⟩ = (.ok (.closure c), m₁))
    (harity : args.length = c.arity)
    (hargs : (Term.bindWith (Term.evalBody n) args c.params h (m₁.frame c.scope).1).run
      (m₁.frame c.scope).2 = (.ok (), m₂)) :
    Calls ⟨n, .call loc callee args listed, h, m⟩ loc c m₁ m₂

theorem frame_grows {n : Nat} {callee : Term} {h : ScopeId} {m m₁ m₂ : Machine} {c : Closure} {args : List Term}
    (e : result ⟨n, callee, h, m⟩ = (.ok (.closure c), m₁))
    (hargs : (Term.bindWith (Term.evalBody n) args c.params h (m₁.frame c.scope).1).run
      (m₁.frame c.scope).2 = (.ok (), m₂)) : m.Grows m₂ := by
  have hframe : m₁.Grows (m₁.frame c.scope).2 := Machine.grows_stepwise.extend m₁ c.scope
  have hbind := Machine.grows_stepwise.bindWith args
    (fun a _ => Machine.grows_stepwise.evalWith (Machine.grows_stepwise.evalBody n) a) c.params h
    (m₁.frame c.scope).1 (m₁.frame c.scope).2
  rw [hargs] at hbind
  exact Machine.grows_stepwise.trans (Machine.grows_stepwise.trans (grows_of_result e) hframe) hbind

theorem Calls.grows {q : Point} {loc : Location} {c : Closure} {m₁ m₂ : Machine} (h : q.Calls loc c m₁ m₂) :
    q.machine.Grows m₂ := by
  cases h with
  | intro e _ hargs => exact frame_grows e hargs

theorem Enters.term_eq {q b : Point} {c : Closure} {m : Machine} (h : q.Enters c m b) : b.term = c.body := by
  cases h with
  | intro => rfl

theorem Enters.depth {q b : Point} {c : Closure} {m : Machine} (h : q.Enters c m b) :
    b.machine.depth = q.machine.depth + 1 ∧ q.machine.depth < q.machine.limit ∧
      b.machine.limit = q.machine.limit ∧ q.levels = b.levels + 1 := by
  cases h with
  | intro e _ hargs hdepth =>
    obtain ⟨_, hd, hl⟩ := frame_grows e hargs
    dsimp only
    omega

theorem Enters.result_of_body {q b : Point} {c : Closure} {m₁ : Machine} (h : q.Enters c m₁ b) :
    q.result = (b.result.1, { b.final with depth := q.machine.depth }) := by
  cases h with
  | @intro n loc callee args listed h m _ _ m₂ e harity hargs hdepth =>
    have hcaller : m₂.depth = m.depth := (frame_grows e hargs).2.1
    have hbody : ((Term.evalBody (n + 1)) c.body (m₁.frame c.scope).1).run { m₂ with depth := m₂.depth + 1 } =
        result ⟨n, c.body, (m₁.frame c.scope).1, { m₂ with depth := m₂.depth + 1 }⟩ := rfl
    have hfinal : (result ⟨n, c.body, (m₁.frame c.scope).1, { m₂ with depth := m₂.depth + 1 }⟩).2.depth =
        m₂.depth + 1 := (grows _).2.1
    rw [result_eq] at e
    rw [result_eq, Term.run_call e harity, Eval.run_bind_ok hargs, Eval.run_enter_of_lt _ _ hdepth, hbody, hfinal,
      Nat.add_sub_cancel, hcaller]
    rfl

theorem Next.depth {q r : Point} (h : q.Next r) (hsame : ∀ c m, ¬q.Enters c m r) :
    r.machine.depth = q.machine.depth ∧ r.machine.limit = q.machine.limit ∧ r.levels = q.levels := by
  cases h with
  | binaryRight e => exact ⟨(grows_of_result e).2.1, (grows_of_result e).2.2, rfl⟩
  | letNext e => exact ⟨(grows_of_result e).2.1, (grows_of_result e).2.2, rfl⟩
  | argument e _ hbefore => exact ⟨(frame_grows e hbefore).2.1, (frame_grows e hbefore).2.2, rfl⟩
  | body h => exact absurd h (hsame _ _)
  | thenBranch e => exact ⟨(grows_of_result e).2.1, (grows_of_result e).2.2, rfl⟩
  | otherwise e => exact ⟨(grows_of_result e).2.1, (grows_of_result e).2.2, rfl⟩
  | tupleSecond e => exact ⟨(grows_of_result e).2.1, (grows_of_result e).2.2, rfl⟩
  | _ => exact ⟨rfl, rfl, rfl⟩

theorem Inside.depth {p q : Point} {k : Nat} (h : p.Inside k q) (hp : p.machine.depth ≤ p.machine.limit) :
    q.machine.depth = p.machine.depth + k ∧ q.machine.depth ≤ q.machine.limit ∧
      q.machine.limit = p.machine.limit ∧ q.levels + k = p.levels := by
  induction h with
  | start => exact ⟨rfl, hp, rfl, rfl⟩
  | part _ hnext hsame ih =>
    have hstep := hnext.depth hsame
    omega
  | body _ henters ih =>
    have hstep := henters.depth
    omega

theorem Calls.enters_iff {q : Point} {loc : Location} {c : Closure} {m₁ m₂ : Machine} (h : q.Calls loc c m₁ m₂)
    (hlevels : q.levels = q.machine.levels) : (∃ b, q.Enters c m₁ b) ↔ q.machine.depth < q.machine.limit := by
  constructor
  · rintro ⟨b, hb⟩
    exact hb.depth.2.1
  · intro hlt
    obtain ⟨_, hd, hl⟩ := h.grows
    cases h with
    | @intro n _ _ _ _ _ m _ _ _ e harity hargs =>
      obtain ⟨k, rfl⟩ : ∃ k, n = k + 1 := by
        refine ⟨m.limit - m.depth - 1, ?_⟩
        unfold Machine.levels at hlevels
        dsimp only at hlevels hlt
        omega
      exact ⟨_, .intro e harity hargs (by dsimp only at hd hl hlt; omega)⟩

theorem Calls.exhausted {q : Point} {loc : Location} {c : Closure} {m₁ m₂ : Machine} (h : q.Calls loc c m₁ m₂)
    (hstop : q.machine.limit ≤ q.machine.depth) :
    q.result = (.error (.fault (.exhausted loc q.machine.limit)), m₂) := by
  obtain ⟨_, hd, hl⟩ := h.grows
  cases h with
  | intro e harity hargs =>
    dsimp only at hd hl hstop
    rw [result_eq] at e ⊢
    rw [Term.run_call e harity, Eval.run_bind_ok hargs, Eval.run_enter, if_pos (by omega), hl]

end Point

namespace Interpreter

theorem evaluate_depth (i : Interpreter) (t : Term) (scope : Option ScopeId) :
    (i.evaluate t scope).2.machine.depth = i.machine.depth ∧
      (i.evaluate t scope).2.machine.limit = i.machine.limit :=
  (i.point t (scope.getD i.global)).grows.2

theorem run_depth {i : Interpreter} (hi : i.machine.depth = 0) (p : Program) :
    (i.run p).2.machine.depth = 0 ∧ (i.run p).2.machine.limit = i.machine.limit := by
  by_cases h : p.expression.isAbsent
  · rw [run_absent h]
    exact ⟨hi, rfl⟩
  · rw [run_present h]
    exact (i.fresh.point p.expression i.fresh.global).grows.2

theorem perform_depth {i : Interpreter} (hi : i.machine.depth = 0) (a : Action) :
    (i.perform a).2.machine.depth = 0 ∧ (i.perform a).2.machine.limit = i.machine.limit := by
  cases a with
  | newScope outer => exact ⟨hi, rfl⟩
  | extend scope => cases scope <;> exact ⟨hi, rfl⟩
  | capture scope => cases scope <;> exact ⟨hi, rfl⟩
  | parent scope => exact ⟨hi, rfl⟩
  | define scope name v => exact ⟨hi, rfl⟩
  | evaluate t scope =>
    obtain ⟨hd, hl⟩ := i.evaluate_depth t scope
    exact ⟨hd.trans hi, hl⟩
  | run p => exact run_depth hi p

theorem session_depth {P : Interpreter → Action → Prop} {output : Output} {depth : Int} {j : Interpreter}
    (h : Session P (new output depth) j) : j.machine.depth = 0 ∧ j.machine.limit = effectiveDepth depth := by
  induction h with
  | start => exact ⟨rfl, rfl⟩
  | step a _ _ _ ih =>
    obtain ⟨hd, hl⟩ := perform_depth ih.1 a
    exact ⟨hd, hl.trans ih.2⟩

/-- While a term is evaluated, each point visited is inside some number of closure bodies, and the depth there,
before and after, is the depth at the beginning plus that number; it is within the limit, which stays what it is.
What a call comes to is what the body it enters comes to, one level deeper, and that level is left again. Whatever
comes of the evaluation, the depth is then what it was. So after any session with an interpreter the depth is zero,
and in a further evaluation a call that is ready to enter a body does so exactly if fewer bodies than the limit are
being evaluated; otherwise it fails with the limit exhausted. -/
theorem depth_counts_bodies :
    (∀ (i : Interpreter) (t : Term) (scope : Option ScopeId), i.machine.depth ≤ i.machine.limit →
      (∀ q, (i.point t (scope.getD i.global)).Visits q → ∃ k, (i.point t (scope.getD i.global)).Inside k q) ∧
      (∀ k q, (i.point t (scope.getD i.global)).Inside k q →
        q.machine.depth = i.machine.depth + k ∧ q.machine.depth ≤ i.machine.limit ∧
          q.machine.limit = i.machine.limit ∧ q.final.depth = q.machine.depth ∧ q.final.limit = i.machine.limit ∧
          ∀ c m b, q.Enters c m b → b.term = c.body ∧ b.machine.depth = q.machine.depth + 1 ∧
            q.result = (b.result.1, { b.final with depth := q.machine.depth })) ∧
      (i.evaluate t scope).2.machine.depth = i.machine.depth ∧
      (i.evaluate t scope).2.machine.limit = i.machine.limit) ∧
    ∀ (output : Output) (depth : Int) (j : Interpreter), Session (fun _ _ => True) (new output depth) j →
      j.machine.depth = 0 ∧ j.machine.limit = effectiveDepth depth ∧
      ∀ (t : Term) (scope : Option ScopeId) (k : Nat) (q : Point) (loc : Location) (c : Closure) (m₁ m₂ : Machine),
        (j.point t (scope.getD j.global)).Inside k q → q.Calls loc c m₁ m₂ →
        ((∃ b, q.Enters c m₁ b) ↔ k < effectiveDepth depth) ∧
        (effectiveDepth depth ≤ k → q.result = (.error (.fault (.exhausted loc (effectiveDepth depth))), m₂)) := by
  constructor
  · intro i t scope hi
    refine ⟨fun q hq => hq.inside, fun k q hq => ?_, i.evaluate_depth t scope⟩
    obtain ⟨hdepth, hle, hlimit, -⟩ := hq.depth hi
    obtain ⟨-, hfinal, hfinal'⟩ := q.grows
    refine ⟨hdepth, hlimit ▸ hle, hlimit, hfinal, hfinal'.trans hlimit, fun c m b hb => ?_⟩
    exact ⟨hb.term_eq, hb.depth.1, hb.result_of_body⟩
  · intro output depth j hsession
    obtain ⟨hzero, hlim⟩ := session_depth hsession
    refine ⟨hzero, hlim, fun t scope k q loc c m₁ m₂ hq hcalls => ?_⟩
    have hstart : (j.point t (scope.getD j.global)).machine.depth ≤ (j.point t (scope.getD j.global)).machine.limit :=
      Nat.le_trans (Nat.le_of_eq hzero) (Nat.zero_le _)
    obtain ⟨hdepth, -, hlimit, hlevels⟩ := hq.depth hstart
    have hbegin : (j.point t (scope.getD j.global)).machine.depth = 0 := hzero
    have hbudget : (j.point t (scope.getD j.global)).machine.limit = effectiveDepth depth := hlim
    have hall : (j.point t (scope.getD j.global)).levels = effectiveDepth depth := by
      change j.machine.limit - j.machine.depth = _
      omega
    constructor
    · rw [hcalls.enters_iff (by unfold Machine.levels; omega)]
      omega
    · intro hstop
      have hresult := hcalls.exhausted (by omega)
      rwa [hlimit, hbudget] at hresult

/-- `let f = fn (g) => g(g); f(f)` -/
def selfCall : Term :=
  .letIn .unknown ⟨"f", .unknown⟩
    (.function .unknown [⟨"g", .unknown⟩] (.call .unknown (.var .unknown "g") [.var .unknown "g"] true))
    (.call .unknown (.var .unknown "f") [.var .unknown "f"] true)

def callOnce : Term := .call .unknown (.function .unknown [] (.int .unknown 1)) [] true

/-- With the limit 3, `selfCall` goes on until it fails. Then the depth is zero again, and in `callOnce` the body is
entered and what it comes to is what the call comes to. -/
theorem depth_counts_bodies_selfCall :
    (new .unlimited 3).machine.depth ≤ (new .unlimited 3).machine.limit ∧
    Exhausted ((new .unlimited 3).evaluate selfCall none).1 ∧
    ((new .unlimited 3).evaluate selfCall none).2.machine.depth = (new .unlimited 3).machine.depth ∧
    ∀ j, j = ((new .unlimited 3).perform (.evaluate selfCall none)).2 →
      j.machine.depth = 0 ∧
      ∃ b, (j.point callOnce 0).Enters ⟨[], .int .unknown 1, (j.machine.store.capture 0).1⟩
          { j.machine with store := (j.machine.store.capture 0).2 } b ∧
        (j.point callOnce 0).result = (b.result.1, { b.final with depth := 0 }) ∧
        (j.point callOnce 0).result.1 = .ok (.int 1) := by
  have hle : (new .unlimited 3).machine.depth ≤ (new .unlimited 3).machine.limit := by decide
  refine ⟨hle, by decide +kernel, (depth_counts_bodies.1 _ selfCall none hle).2.2.1, fun j hj => ?_⟩
  have hsession : Session (fun _ _ => True) (new .unlimited 3) j := by
    rw [hj]
    exact .step _ .start (by rintro id ⟨⟩) trivial
  obtain ⟨hzero, hlimit, hbudget⟩ := depth_counts_bodies.2 .unlimited 3 j hsession
  have hcallee : (Point.mk (j.point callOnce 0).levels (.function .unknown [] (.int .unknown 1)) 0 j.machine).result =
      (.ok (.closure ⟨[], .int .unknown 1, (j.machine.store.capture 0).1⟩),
        { j.machine with store := (j.machine.store.capture 0).2 }) := by
    rw [Point.result_eq]
    rfl
  obtain ⟨b, hb⟩ := (hbudget callOnce (some 0) 0 _ .unknown _ _ _ .start (.intro hcallee rfl rfl)).1.mpr (by decide)
  obtain ⟨hterm, -, hresult⟩ :=
    ((depth_counts_bodies.1 j callOnce (some 0) (by omega)).2.1 0 _ .start).2.2.2.2.2 _ _ b hb
  have hdepth : (j.point callOnce 0).machine.depth = 0 := hzero
  refine ⟨hzero, b, hb, hdepth ▸ hresult, (congrArg Prod.fst hresult).trans ?_⟩
  obtain ⟨n, t, h, m⟩ := b
  rw [show t = .int .unknown 1 from hterm, Point.result_eq]
  rfl

end Interpreter

end TreeWalk
