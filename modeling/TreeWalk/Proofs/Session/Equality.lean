import TreeWalk.Proofs.Eval.Identity
import TreeWalk.Proofs.Session.Custody

/-!
# Equality in a session

A caller cannot make closures but by evaluating function literals, so all it comes by is in the register of closures that
were made. For the values of a session, to be equal is therefore to be the same. The operators of the language compare
less than that: two integers, two texts or two truth values. There they agree with the equality of values, and on all
else they fail, whether or not the values are equal.
-/

namespace TreeWalk

theorem Answer.value?_outcome {o : Outcome} {v : Value} (h : (Answer.outcome o).value? = some v) : o = .ok v := by
  cases o with
  | error e => cases h
  | ok w => exact congrArg _ (Option.some.inj h)

namespace Caller

variable {i : Interpreter} {k : Caller}

/-- The caller can come by the value: each closure in it is known from an answer or found bound. -/
def Meets (k : Caller) (i : Interpreter) (v : Value) : Prop :=
  ∀ c ∈ v.closures, k.known c ∨ ∃ g, i.machine.store.Binds g c

theorem Apart.registers (hk : k.Apart i) {a : Action} (ha : k.Allows i a) {made : Closure → Prop}
    (hmade : i.machine.store.Registers made) (hknown : ∀ c, k.known c → made c) :
    ∃ made', (∀ c, made c → made' c) ∧ (i.perform a).2.machine.store.Registers made' ∧
      ∀ v, (i.perform a).1.value? = some v → ∀ c ∈ v.closures, made' c := by
  have hquiet {s : Store} {answer : Answer} (hs : s.Registers made) (hanswer : answer.value? = none) :
      ∃ made', (∀ c, made c → made' c) ∧ s.Registers made' ∧
        ∀ v, answer.value? = some v → ∀ c ∈ v.closures, made' c :=
    ⟨made, fun _ hc => hc, hs, by simp [hanswer]⟩
  cases a with
  | newScope outer => exact hquiet (hmade.child fun id hid => hk.lt_size (ha id hid)) rfl
  | extend scope =>
    cases scope with
    | none => exact hquiet (hmade.child (by simp)) rfl
    | some id => exact hquiet (hmade.extend id) rfl
  | capture scope =>
    cases scope with
    | none => exact hquiet hmade rfl
    | some id => exact hquiet (hmade.copy id) rfl
  | parent scope => exact hquiet hmade rfl
  | define scope name v =>
    apply hquiet (hmade.define scope name _) rfl
    intro c hc
    rcases ha.2 c hc with h | ⟨g, hg⟩
    · exact hknown c h
    · exact hmade.bound g c hg
  | evaluate t scope =>
    obtain ⟨made', hmore, hmade', hvalue⟩ := (i.point t (scope.getD i.global)).registers hmade
    exact ⟨made', hmore, hmade', fun v hv => hvalue v (Answer.value?_outcome hv)⟩
  | run p =>
    by_cases h : p.expression.isAbsent
    · simp only [Interpreter.perform, Interpreter.run_absent h]
      exact hquiet hmade rfl
    · have hfresh : i.fresh.machine.store.Registers made := hmade.child (by simp)
      obtain ⟨made', hmore, hmade', hvalue⟩ := (i.fresh.point p.expression i.fresh.global).registers hfresh
      simp only [Interpreter.perform, Interpreter.run_present h]
      exact ⟨made', hmore, hmade', fun v hv => hvalue v (Answer.value?_outcome hv)⟩

theorem Session.registers (h : Session i k) :
    ∃ made, i.machine.store.Registers made ∧ ∀ c, k.known c → made c := by
  induction h with
  | new output depth =>
    have hempty : Store.empty.Registers fun _ => False := by
      have hbinds : ∀ g c, ¬Store.empty.Binds g c := by
        rintro g c ⟨scope, hscope, _⟩
        exact absurd (Store.lt_size hscope) (Nat.not_lt_zero g)
      exact ⟨fun _ _ _ hscope => absurd (Store.lt_size hscope) (Nat.not_lt_zero _), by simp, by simp, hbinds⟩
    exact ⟨_, hempty.child (by simp), by simp⟩
  | perform a hsession ha ih =>
    obtain ⟨made, hmade, hknown⟩ := ih
    obtain ⟨made', hmore, hmade', hvalue⟩ := hsession.apart.registers ha hmade hknown
    refine ⟨made', hmade', ?_⟩
    rintro c (hc | ⟨v, hv, hc⟩)
    · exact hmore c (hknown c hc)
    · exact hvalue v hv c hc

/-- Equality tells apart all that the caller can come by: equal values are the same value, and a function literal always
gives a closure that is equal to none there was. -/
structure Discerns (k : Caller) (i : Interpreter) : Prop where
  same : ∀ v w, k.Meets i v → k.Meets i w → (v.equal w = true ↔ v = w)
  new : ∀ loc params body scope, ∃ c, (i.evaluate (.function loc params body) scope).1 = .ok (.closure c) ∧
    ∀ d, k.Meets i (.closure d) → (Value.closure c).equal (.closure d) = false

theorem Session.discerns (h : Session i k) : k.Discerns i := by
  obtain ⟨made, hmade, hknown⟩ := h.registers
  have hmeets : ∀ v, k.Meets i v → ∀ c ∈ v.closures, made c := by
    intro v hv c hc
    rcases hv c hc with hc | ⟨g, hg⟩
    · exact hknown c hc
    · exact hmade.bound g c hg
  constructor
  · intro v w hv hw
    exact hmade.equal_iff_eq (hmeets v hv) (hmeets w hw)
  · intro loc params body scope
    have hpoint : (i.evaluate (.function loc params body) scope).1 =
        .ok (.closure ⟨params.map Parameter.text, body, (i.machine.store.capture (scope.getD i.global)).1⟩) := by
      rw [Interpreter.evaluate_eq, Point.result, Term.eval_eq]
      rfl
    refine ⟨_, hpoint, fun d hd => ?_⟩
    have hlt := hmade.lt_size d (hmeets _ hd d List.mem_cons_self)
    have hge := i.machine.store.size_le_capture (scope.getD i.global)
    have hne : (i.machine.store.capture (scope.getD i.global)).1 ≠ d.scope :=
      Nat.ne_of_gt (Nat.lt_of_lt_of_le hlt hge)
    simpa [Value.equal] using hne

end Caller

section Operators

variable {l r : Value} {a b : Kind}

theorem scalarEq?_eq (hl : l.kind? = some a) (hr : r.kind? = some b) :
    l.scalarEq? r = if a = b ∧ a ∈ [Kind.integer, .string, .bool] then some (l.equal r) else none := by
  cases l <;> cases hl <;> cases r <;> cases hr <;> rfl

theorem operate_comparable (hl : l.kind? = some a) (hr : r.kind? = some b)
    (h : a = b ∧ a ∈ [Kind.integer, .string, .bool]) (loc : Location) :
    operate loc .eq l r = .ok (.bool (l.equal r)) ∧ operate loc .neq l r = .ok (.bool !(l.equal r)) := by
  have hscalar := scalarEq?_eq hl hr
  rw [if_pos h] at hscalar
  simp [operate, hscalar]

theorem operate_incomparable (hl : l.kind? = some a) (hr : r.kind? = some b)
    (h : ¬(a = b ∧ a ∈ [Kind.integer, .string, .bool])) {op : Operator} (hop : op ∈ [Operator.eq, .neq])
    (loc : Location) : operate loc op l r = .error (.fault (.operands loc op a b)) := by
  have hscalar := scalarEq?_eq hl hr
  rw [if_neg h] at hscalar
  simp only [List.mem_cons, List.not_mem_nil, or_false] at hop
  rcases hop with rfl | rfl <;> simp [operate, hscalar, mismatch, hl, hr]

end Operators

/-- Equality of values is an equivalence. Equal values are of one kind and are printed alike, and pairs of equal
components are equal. All that a caller comes by in a session is equal only to itself, and a closure that is made anew is
equal to none there was. The operators `==` and `!=` answer for two integers, two texts or two truth values, by equality
and by its negation. For any other two values that are there, both fail on the kinds of their operands, also if the values
are equal. -/
theorem equality_coherent :
    Equivalence (fun v w : Value => v.equal w = true) ∧
    (∀ v w : Value, v.equal w = true → v.format = w.format ∧ v.kind? = w.kind?) ∧
    (∀ a b a' b' : Value, a.equal a' = true → b.equal b' = true → (Value.pair a b).equal (.pair a' b') = true) ∧
    (∀ i k, Caller.Session i k → k.Discerns i) ∧
    ∀ (l r : Value) (a b : Kind), l.kind? = some a → r.kind? = some b → ∀ loc,
      (a = b ∧ a ∈ [Kind.integer, .string, .bool] →
        operate loc .eq l r = .ok (.bool (l.equal r)) ∧ operate loc .neq l r = .ok (.bool !(l.equal r))) ∧
      (¬(a = b ∧ a ∈ [Kind.integer, .string, .bool]) → ∀ op ∈ [Operator.eq, .neq], ∃ f : Fault,
        operate loc op l r = .error (.fault f) ∧ f.kind = .typeMismatch ∧ f.operands? = some (op, a, b)) ∧
      ∀ levels scope m m₁ m₂ lhs rhs, Point.result ⟨levels, lhs, scope, m⟩ = (.ok l, m₁) →
        Point.result ⟨levels, rhs, scope, m₁⟩ = (.ok r, m₂) → ∀ op ∈ [Operator.eq, .neq],
          Point.result ⟨levels, .binary loc lhs op rhs, scope, m⟩ = (operate loc op l r, m₂) := by
  refine ⟨Value.equal_equivalence, fun v w h => ?_, fun a b a' b' ha hb => ?_, fun i k h => h.discerns, ?_⟩
  · exact ⟨Value.format_eq_of_equal h, Value.kind?_eq_of_equal h⟩
  · exact Value.equal_pair_iff.mpr ⟨ha, hb⟩
  · intro l r a b hl hr loc
    refine ⟨fun h => operate_comparable hl hr h loc, fun h op hop => ?_, ?_⟩
    · exact ⟨_, operate_incomparable hl hr h hop loc, rfl, rfl⟩
    · intro levels scope m m₁ m₂ lhs rhs hlhs hrhs op _
      exact Point.result_binary hlhs hrhs loc op

def oneFrom (scope : ScopeId) : Closure := ⟨[], .int .unknown 1, scope⟩

def twins : Value := .pair (.closure (oneFrom 1)) (.closure (oneFrom 2))

def twinHolder : Interpreter :=
  ((Interpreter.new .unlimited 0).perform (.evaluate
    (.letIn .unknown ⟨"x", .unknown⟩
      (.tuple .unknown (.function .unknown [] (.int .unknown 1)) (.function .unknown [] (.int .unknown 1)))
      (.var .unknown "x")) none)).2

/-- Two closures with one text are not equal. The pair of them is equal to itself, but `x == x` fails on it. -/
theorem equality_coherent_twins :
    (Value.closure (oneFrom 1)).equal (.closure (oneFrom 2)) = false ∧ twins.equal twins = true ∧
    ∃ f : Fault, (twinHolder.evaluate (.binary .unknown (.var .unknown "x") .eq (.var .unknown "x")) none).1 =
      .error (.fault f) ∧ f.kind = .typeMismatch ∧ f.operands? = some (.eq, .tuple, .tuple) := by
  obtain ⟨hequivalence, _, _, hdiscerns, hoperators⟩ := equality_coherent
  refine ⟨?_, hequivalence.refl twins, ?_⟩
  · have hsession : Caller.Session twinHolder _ := .perform _ (.new .unlimited 0) (by simp [Caller.Allows])
    have hsame := (hdiscerns _ _ hsession).same (.closure (oneFrom 1)) (.closure (oneFrom 2))
      (fun c hc => .inl (.inr ⟨twins, rfl, List.mem_append_left _ hc⟩))
      (fun c hc => .inl (.inr ⟨twins, rfl, List.mem_append_right _ hc⟩))
    simpa [oneFrom] using hsame.not
  · have hvar (levels : Nat) : Point.result ⟨levels, .var .unknown "x", 0, twinHolder.machine⟩ =
        (.ok twins, twinHolder.machine) := by
      rw [Point.result, Term.eval_eq]
      rfl
    obtain ⟨_, hfails, hresult⟩ := hoperators twins twins .tuple .tuple rfl rfl .unknown
    obtain ⟨f, hf, hkind, hoperands⟩ := hfails (by simp) .eq (by simp)
    refine ⟨f, ?_, hkind, hoperands⟩
    rw [Interpreter.evaluate_eq, ← hf]
    exact congrArg Prod.fst (hresult _ 0 _ _ _ _ _ (hvar _) (hvar _) .eq (by simp))

end TreeWalk
