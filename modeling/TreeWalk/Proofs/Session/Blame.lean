import TreeWalk.Proofs.Eval.Relocation
import TreeWalk.Proofs.Session.Origin

/-!
# What a failure points at

The failure of a run names the place of a node of the program, and the node is one that can fail in this way.
-/

namespace TreeWalk

/-- The kinds of operands that an operator is defined on. -/
def Operator.accepts : Operator → Kind → Kind → Bool
  | .add, a, b => (a = .integer || a = .string) && (b = .integer || b = .string)
  | .sub, a, b | .mul, a, b | .div, a, b | .rem, a, b => a = .integer && b = .integer
  | .lt, a, b | .gt, a, b | .lte, a, b | .gte, a, b => a = .integer && b = .integer
  | .eq, a, b | .neq, a, b => a = b && (a = .integer || a = .string || a = .bool)
  | .and, a, b | .or, a, b => a = .bool && b = .bool
  | .unknown _, _, _ => false

/-- The fault has the place of a node of the term that can be at fault in this way. -/
def Fault.PointsInto (root : Term) (f : Fault) : Prop :=
  match f.kind with
  | .unboundVariable => ∃ name, .var f.loc name ∈ root.subterms ∧ f.message = "variable '" ++ name ++ "' is not defined"
  | .notCallable | .arityMismatch | .stackExhausted =>
    ∃ callee args listed, .call f.loc callee args listed ∈ root.subterms
  | .divisionByZero => ∃ lhs op rhs, .binary f.loc lhs op rhs ∈ root.subterms ∧ (op = .div ∨ op = .rem)
  | .typeMismatch =>
    (∃ lhs op rhs a b, .binary f.loc lhs op rhs ∈ root.subterms ∧ f.operands? = some (op, a, b) ∧
      op.isKnown ∧ op.accepts a b = false) ∨
    f.operands? = none ∧
      ((∃ t, .first f.loc t ∈ root.subterms) ∨ (∃ t, .second f.loc t ∈ root.subterms) ∨
        ∃ loc c t e, .ite loc c t e ∈ root.subterms ∧ c.loc = f.loc)
  | .malformedInput =>
    (∃ message fullText, .error f.loc message fullText ∈ root.subterms) ∨
    (∃ lhs op rhs, .binary f.loc lhs op rhs ∈ root.subterms ∧ op.isKnown = false) ∨
    f.loc = .unknown ∧ .absent ∈ root.subterms

namespace Reference

section

variable {v : Value}

theorem Value.int_of_kind (h : v.kind? = some .integer) : ∃ n, v = .int n := by
  cases v with
  | int n => exact ⟨n, rfl⟩
  | _ => cases h

theorem Value.str_of_kind (h : v.kind? = some .string) : ∃ s, v = .str s := by
  cases v with
  | str s => exact ⟨s, rfl⟩
  | _ => cases h

theorem Value.bool_of_kind (h : v.kind? = some .bool) : ∃ b, v = .bool b := by
  cases v with
  | bool b => exact ⟨b, rfl⟩
  | _ => cases h

end

theorem operate_of_accepts {op : Operator} {l r : Value} {a b : Kind} (hl : l.kind? = some a) (hr : r.kind? = some b)
    (h : op.accepts a b) (loc : Location) :
    (∃ v, operate loc op l r = .ok v) ∨ ∃ d, operate loc op l r = .error (.fault (.byZero loc d)) := by
  cases op with
  | unknown name => cases h
  | add =>
    simp only [Operator.accepts, Bool.and_eq_true, Bool.or_eq_true, decide_eq_true_eq] at h
    obtain ⟨rfl | rfl, rfl | rfl⟩ := h
    · obtain ⟨x, rfl⟩ := Value.int_of_kind hl
      obtain ⟨y, rfl⟩ := Value.int_of_kind hr
      exact .inl ⟨_, rfl⟩
    · obtain ⟨x, rfl⟩ := Value.int_of_kind hl
      obtain ⟨y, rfl⟩ := Value.str_of_kind hr
      exact .inl ⟨_, rfl⟩
    · obtain ⟨x, rfl⟩ := Value.str_of_kind hl
      obtain ⟨y, rfl⟩ := Value.int_of_kind hr
      exact .inl ⟨_, rfl⟩
    · obtain ⟨x, rfl⟩ := Value.str_of_kind hl
      obtain ⟨y, rfl⟩ := Value.str_of_kind hr
      exact .inl ⟨_, rfl⟩
  | sub | mul | lt | gt | lte | gte =>
    simp only [Operator.accepts, Bool.and_eq_true, decide_eq_true_eq] at h
    obtain ⟨rfl, rfl⟩ := h
    obtain ⟨x, rfl⟩ := Value.int_of_kind hl
    obtain ⟨y, rfl⟩ := Value.int_of_kind hr
    exact .inl ⟨_, rfl⟩
  | div | rem =>
    simp only [Operator.accepts, Bool.and_eq_true, decide_eq_true_eq] at h
    obtain ⟨rfl, rfl⟩ := h
    obtain ⟨x, rfl⟩ := Value.int_of_kind hl
    obtain ⟨y, rfl⟩ := Value.int_of_kind hr
    by_cases hy : y = 0
    · exact .inr ⟨_, if_pos hy⟩
    · exact .inl ⟨_, if_neg hy⟩
  | eq | neq =>
    simp only [Operator.accepts, Bool.and_eq_true, Bool.or_eq_true, decide_eq_true_eq] at h
    obtain ⟨rfl, (rfl | rfl) | rfl⟩ := h
    · obtain ⟨x, rfl⟩ := Value.int_of_kind hl
      obtain ⟨y, rfl⟩ := Value.int_of_kind hr
      exact .inl ⟨_, rfl⟩
    · obtain ⟨x, rfl⟩ := Value.str_of_kind hl
      obtain ⟨y, rfl⟩ := Value.str_of_kind hr
      exact .inl ⟨_, rfl⟩
    · obtain ⟨x, rfl⟩ := Value.bool_of_kind hl
      obtain ⟨y, rfl⟩ := Value.bool_of_kind hr
      exact .inl ⟨_, rfl⟩
  | and | or =>
    simp only [Operator.accepts, Bool.and_eq_true, decide_eq_true_eq] at h
    obtain ⟨rfl, rfl⟩ := h
    obtain ⟨x, rfl⟩ := Value.bool_of_kind hl
    obtain ⟨y, rfl⟩ := Value.bool_of_kind hr
    exact .inl ⟨_, rfl⟩

theorem not_accepts_of_operate {op : Operator} {l r : Value} {a b : Kind} {loc : Location} (hl : l.kind? = some a)
    (hr : r.kind? = some b) (h : operate loc op l r = .error (.fault (.operands loc op a b))) :
    op.isKnown ∧ op.accepts a b = false := by
  constructor
  · cases op with
    | unknown name => cases h
    | _ => rfl
  · by_contra haccepts
    rw [Bool.not_eq_false] at haccepts
    rcases operate_of_accepts hl hr haccepts loc with ⟨v, hv⟩ | ⟨d, hd⟩
    · cases h.symm.trans hv
    · cases h.symm.trans hd

theorem Raised.pointsInto {limit : Nat} {env : Env} {root t : Term} {e : Failure} (h : Raised limit env t e)
    (ht : t ∈ root.subterms) :
    (∃ loc reason u, e = .output loc reason ∧ .print loc u ∈ root.subterms) ∨
      ∃ f, e = .fault f ∧ f.PointsInto root := by
  cases h with
  | output loc u reason => exact .inl ⟨loc, reason, u, rfl, ht⟩
  | missing => exact .inr ⟨_, rfl, .inr (.inr ⟨rfl, ht⟩)⟩
  | parseError loc message fullText => exact .inr ⟨_, rfl, .inl ⟨message, fullText, ht⟩⟩
  | unbound loc hname => exact .inr ⟨_, rfl, _, ht, rfl⟩
  | notCallable loc callee args listed hgot => exact .inr ⟨_, rfl, callee, args, listed, ht⟩
  | arity loc callee listed harity => exact .inr ⟨_, rfl, callee, _, listed, ht⟩
  | exhausted loc callee args listed => exact .inr ⟨_, rfl, callee, args, listed, ht⟩
  | condition loc c u v hgot => exact .inr ⟨_, rfl, .inr ⟨rfl, .inr (.inr ⟨loc, c, u, v, ht, rfl⟩)⟩⟩
  | first loc u hgot => exact .inr ⟨_, rfl, .inr ⟨rfl, .inl ⟨u, ht⟩⟩⟩
  | second loc u hgot => exact .inr ⟨_, rfl, .inr ⟨rfl, .inr (.inl ⟨u, ht⟩)⟩⟩
  | @operator loc op l r a b _ lhs rhs hl hr hoperate =>
    right
    -- no meaning, a division by zero of either sort, or the wrong kinds
    rcases operate_error hl hr hoperate with ⟨name, rfl, rfl⟩ | ⟨rfl, rfl⟩ | ⟨rfl, rfl⟩ | rfl
    · exact ⟨_, rfl, .inr (.inl ⟨lhs, _, rhs, ht, rfl⟩)⟩
    · exact ⟨_, rfl, lhs, _, rhs, ht, .inl rfl⟩
    · exact ⟨_, rfl, lhs, _, rhs, ht, .inr rfl⟩
    · exact ⟨_, rfl, .inl ⟨lhs, op, rhs, a, b, ht, rfl, not_accepts_of_operate hl hr hoperate⟩⟩

end Reference

namespace Interpreter

theorem raised_of_run {i : Interpreter} {p : Program} (hp : ¬p.expression.isAbsent) {e : Failure}
    (he : (i.run p).1 = .error e) :
    ∃ env, ∃ t ∈ p.expression.subterms, Reference.Raised i.machine.limit env t e := by
  -- without the scopes it does not see, the run is one in a store where closures own what they captured
  have hsealed : (Point.initial i.machine.output i.machine.limit p.expression).machine.store.Sealed
      (fun _ => True) (· = 0) := (Caller.Session.new i.machine.output 0).sealed rfl
  have hrefines := (Point.initial i.machine.output i.machine.limit p.expression).refines hsealed rfl
    (fun _ _ => trivial) rfl
  have hcontents : (Point.initial i.machine.output i.machine.limit p.expression).machine.store.contents 0 = [[]] := rfl
  have hfails : (Point.initial i.machine.output i.machine.limit p.expression).result.1 = .error e := by
    rw [(run_atop hp).1] at he
    exact map_eq_error.mp he
  have hevaluate : (Reference.evaluate i.machine.limit 0 p.expression [[]] i.machine.output).1 = .error e := by
    rw [← hcontents]
    exact (congrArg Prod.fst hrefines).trans (map_eq_error.mpr hfails)
  exact Reference.raised_of_evaluate hevaluate

/-- If a run fails, in whatever interpreter, either the output refused the line of a `print` of the program, or the
fault has the place of a node of the program that can be at fault in this way: a variable that is not bound, with
its name in the message; a call; a division; an operator on kinds of operands that it is not defined on, named in
the fault; a projection or the condition of an `if`; an error node, an operator without meaning, or, without a
place, an expression that is missing. -/
theorem run_failure_points_at_node (i : Interpreter) (p : Program) (e : Failure) (he : (i.run p).1 = .error e) :
    (∃ loc reason t, e = .output loc reason ∧ .print loc t ∈ p.expression.subterms) ∨
      ∃ f, e = .fault f ∧ f.PointsInto p.expression := by
  by_cases hp : p.expression.isAbsent
  · have habsent : p.expression = .absent := by
      cases h : p.expression <;> simp_all [Term.isAbsent]
    rw [run_absent hp] at he
    cases he
    exact .inr ⟨.noProgram, rfl, .inr (.inr ⟨rfl, habsent ▸ p.expression.self_mem_subterms⟩)⟩
  · obtain ⟨env, t, ht, hraised⟩ := raised_of_run hp he
    exact hraised.pointsInto ht

/-- `let f = fn (x) => if (x) 1 else 2 % 0; f(f)` -/
def closureAsCondition : Program :=
  ⟨"condition",
    .letIn .unknown ⟨"f", .unknown⟩
      (.function .unknown [⟨"x", .unknown⟩]
        (.ite ⟨17, 38, "condition"⟩ (.var ⟨21, 22, "condition"⟩ "x") (.int .unknown 1)
          (.binary ⟨33, 38, "condition"⟩ (.int .unknown 2) .rem (.int .unknown 0))))
      (.call ⟨40, 44, "condition"⟩ (.var .unknown "f") [.var .unknown "f"] true), .unknown⟩

theorem run_failure_points_at_node_closureAsCondition :
    ((new .unlimited 0).run closureAsCondition).1 = .error (.fault (.condition ⟨21, 22, "condition"⟩ .closure)) ∧
    (Fault.condition ⟨21, 22, "condition"⟩ .closure).PointsInto closureAsCondition.expression := by
  have hrun : ((new .unlimited 0).run closureAsCondition).1 =
      .error (.fault (.condition ⟨21, 22, "condition"⟩ .closure)) := by rfl
  refine ⟨hrun, ?_⟩
  rcases run_failure_points_at_node _ _ _ hrun with ⟨_, _, _, h, -⟩ | ⟨f, h, hpoints⟩
  · cases h
  · cases h
    exact hpoints

end Interpreter

end TreeWalk
