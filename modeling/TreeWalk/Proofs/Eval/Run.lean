import TreeWalk.Eval.Interpreter

/-!
# Running evaluations

What each building block of an evaluation does to a machine, as equations, and induction over
terms. Proofs about evaluation rewrite with these and do not open the monad.
-/

namespace TreeWalk

namespace Eval

variable {α β : Type}

theorem run_bind (x : Eval α) (f : α → Eval β) (m : Machine) :
    (x >>= f).run m =
      match x.run m with
      | (.ok a, m') => (f a).run m'
      | (.error e, m') => (.error e, m') := by
  change (match x.run m with | (a, m') => ExceptT.bindCont f a m') = _
  rcases x.run m with ⟨_ | _, _⟩ <;> rfl

theorem run_bind_ok {x : Eval α} {f : α → Eval β} {m m' : Machine} {a : α} (h : x.run m = (.ok a, m')) :
    (x >>= f).run m = (f a).run m' := by rw [run_bind, h]

theorem run_bind_error {x : Eval α} {f : α → Eval β} {m m' : Machine} {e : Failure}
    (h : x.run m = (.error e, m')) : (x >>= f).run m = (.error e, m') := by rw [run_bind, h]

@[simp] theorem run_liftExcept (x : Except Failure α) (m : Machine) :
    (liftExcept x : Eval α).run m = (x, m) := by cases x <;> rfl

theorem run_onStore (f : Store → α × Store) (m : Machine) :
    (onStore f).run m = (.ok (f m.store).1, { m with store := (f m.store).2 }) := rfl

theorem run_lookup? (scope : ScopeId) (name : String) (m : Machine) :
    (lookup? scope name).run m = (.ok ((m.store.env scope).lookup? name), m) := rfl

theorem run_define (scope : ScopeId) (name : String) (v : Value) (m : Machine) :
    (define scope name v).run m = (.ok (), { m with store := m.store.define scope name v }) := rfl

theorem run_print (loc : Location) (v : Value) (m : Machine) :
    (print loc v).run m =
      match m.output.write? (v.format ++ "\n".toUTF8) with
      | some output => (.ok (), { m with output })
      | none => (.error (.output loc m.output.complaint), m) := rfl

theorem run_enter (loc : Location) (body : Eval α) (m : Machine) :
    (enter loc body).run m =
      if m.limit ≤ m.depth then (.error (.fault (.exhausted loc m.limit)), m)
      else ((body.run { m with depth := m.depth + 1 }).1,
        { (body.run { m with depth := m.depth + 1 }).2 with
          depth := (body.run { m with depth := m.depth + 1 }).2.depth - 1 }) := rfl

theorem run_enter_of_lt (loc : Location) (body : Eval α) {m : Machine} (h : m.depth < m.limit) :
    (enter loc body).run m = ((body.run { m with depth := m.depth + 1 }).1,
      { (body.run { m with depth := m.depth + 1 }).2 with
        depth := (body.run { m with depth := m.depth + 1 }).2.depth - 1 }) := by
  rw [run_enter, if_neg (Nat.not_le.mpr h)]

theorem run_kindOf (v : Value) (m : Machine) :
    (kindOf v).run m = (match v.kind? with | some k => .ok k | none => .error .absentValue, m) := by
  unfold kindOf
  cases v.kind? <;> rfl

end Eval

theorem operate_failure {loc : Location} {op : Operator} {l r : Value} {e : Failure} (h : operate loc op l r = .error e) :
    (∃ f, e = .fault f) ∨ e = .absentValue := by
  have hmismatch (he : mismatch loc op l r = e) : (∃ f, e = .fault f) ∨ e = .absentValue := by
    unfold mismatch at he
    split at he
    · exact .inl ⟨_, he.symm⟩
    · exact .inr he.symm
  cases op with
  | unknown name => exact .inl ⟨_, (Except.error.inj h).symm⟩
  | add =>
    simp only [operate] at h
    split at h
    · cases h
    · split at h
      · cases h
      · exact hmismatch (Except.error.inj h)
  | div | rem =>
    simp only [operate] at h
    split at h
    · split at h
      · exact .inl ⟨_, (Except.error.inj h).symm⟩
      · cases h
    · exact hmismatch (Except.error.inj h)
  | _ =>
    simp only [operate] at h
    split at h
    · cases h
    · exact hmismatch (Except.error.inj h)

-- Terms have no decidable equality, so two outcomes cannot be compared; these questions about one can be answered.

instance decidableGivesInt (outcome : Except Failure Value) (n : Int64) : Decidable (outcome = .ok (.int n)) :=
  match outcome with
  | .ok (.int m) => decidable_of_iff (m = n) ⟨fun h => h ▸ rfl, fun h => by cases h; rfl⟩
  | .ok .absent | .ok (.str _) | .ok (.bool _) | .ok (.pair ..) | .ok (.closure _) | .error _ => .isFalse (by rintro ⟨⟩)

instance decidableGivesClosure (outcome : Except Failure Value) (P : Closure → Prop) [DecidablePred P] :
    Decidable (∃ c, outcome = .ok (.closure c) ∧ P c) :=
  match outcome with
  | .ok (.closure c) => decidable_of_iff (P c) ⟨fun h => ⟨c, rfl, h⟩, by rintro ⟨_, ⟨⟩, h⟩; exact h⟩
  | .ok .absent | .ok (.int _) | .ok (.str _) | .ok (.bool _) | .ok (.pair ..) | .error _ =>
    .isFalse (by rintro ⟨_, ⟨⟩, -⟩)

namespace Term

/-- Evaluation of closure bodies where evaluation may go `levels` closure bodies deep. -/
def evalBody : (levels : Nat) → Term → ScopeId → Eval Value
  | 0 => fun _ _ => throw .unfinished
  | levels + 1 => eval levels

theorem eval_eq (levels : Nat) : eval levels = evalWith (evalBody levels) := by
  cases levels with
  | zero => rfl
  | succ levels =>
    -- which stack a body is evaluated on makes no difference
    have h : (fun body scope m => if startsStack levels then onFreshStack fun _ => eval levels body scope m
        else eval levels body scope m) = eval levels := by
      funext body scope m
      rw [onFreshStack_eq, ite_self]
    change evalWith _ = evalWith _
    rw [evalBody]
    exact congrArg evalWith h

/-- Induction over terms; what is to be shown of a call may be assumed of all its arguments. -/
theorem inductionOn {P : Term → Prop} (t : Term) (absent : P .absent)
    (int : ∀ loc n, P (.int loc n)) (str : ∀ loc s, P (.str loc s)) (bool : ∀ loc b, P (.bool loc b))
    (binary : ∀ loc lhs op rhs, P lhs → P rhs → P (.binary loc lhs op rhs))
    (var : ∀ loc text, P (.var loc text))
    (letIn : ∀ loc name value next, P value → P next → P (.letIn loc name value next))
    (function : ∀ loc params body, P body → P (.function loc params body))
    (call : ∀ loc callee args listed, P callee → (∀ arg ∈ args, P arg) → P (.call loc callee args listed))
    (ite : ∀ loc condition thenBranch otherwise, P condition → P thenBranch → P otherwise →
      P (.ite loc condition thenBranch otherwise))
    (tuple : ∀ loc a b, P a → P b → P (.tuple loc a b))
    (first : ∀ loc t, P t → P (.first loc t)) (second : ∀ loc t, P t → P (.second loc t))
    (print : ∀ loc t, P t → P (.print loc t))
    (error : ∀ loc message fullText, P (.error loc message fullText)) : P t :=
  @Term.rec P (fun args => ∀ arg ∈ args, P arg) absent int str bool binary var letIn function call ite
    tuple first second print error (fun _ h => nomatch h)
    (fun _ _ hhead htail _ h => (List.mem_cons.mp h).elim (fun e => e ▸ hhead) (htail _)) t

end Term

/-- The same failure, or related values. -/
def Matches {α β : Type} (R : α → β → Prop) : Except Failure α → Except Failure β → Prop
  | .ok a, .ok b => R a b
  | .error e, .error e' => e = e'
  | _, _ => False

theorem Matches.of_ok {α β : Type} {R : α → β → Prop} {r : Except Failure α} {r' : Except Failure β}
    (h : Matches R r r') {a : α} (hr : r = .ok a) : ∃ b, r' = .ok b ∧ R a b := by
  subst hr
  cases r' with
  | error e => exact h.elim
  | ok b => exact ⟨b, rfl, h⟩

theorem Matches.imp {α β : Type} {R R' : α → β → Prop} {r : Except Failure α} {r' : Except Failure β}
    (h : Matches R r r') (hR : ∀ a b, R a b → R' a b) : Matches R' r r' := by
  cases r <;> cases r'
  · exact h
  · exact h
  · exact h
  · exact hR _ _ h

theorem Matches.eq_map {α β : Type} {R : α → β → Prop} {r : Except Failure α} {r' : Except Failure β} {f : α → β}
    (h : Matches R r r') (hR : ∀ a b, R a b → b = f a) : r' = r.map f := by
  cases r with
  | error e =>
    cases r' with
    | error e' => exact congrArg Except.error (h : e = e').symm
    | ok b => exact h.elim
  | ok a =>
    obtain ⟨b, rfl, hab⟩ := h.of_ok rfl
    exact congrArg Except.ok (hR a b hab)

theorem Matches.of_map {α β γ δ : Type} {R : γ → δ → Prop} {R' : α → β → Prop} {r : Except Failure α}
    {r' : Except Failure β} {f : α → γ} {g : β → δ} (h : Matches R (r.map f) (r'.map g))
    (hR : ∀ a b, r = .ok a → r' = .ok b → R (f a) (g b) → R' a b) : Matches R' r r' := by
  cases r with
  | error e => cases r' with
    | error e' => exact h
    | ok b => exact h.elim
  | ok a => cases r' with
    | error e' => exact h.elim
    | ok b => exact hR a b rfl rfl h

end TreeWalk
