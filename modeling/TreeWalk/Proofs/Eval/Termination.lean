import TreeWalk.Proofs.Eval.Growth

/-!
# Evaluation ends

The rules of evaluation by themselves: what becomes of a term is said through what becomes of other
terms, its own parts and the bodies of the closures it calls. A body may be any term, so nothing in the
rules gets smaller, and followed with fuel they may run out of it. The depth limit is what ends them: from
some amount of fuel on they do what evaluation by recursion on the levels left does.
-/

namespace TreeWalk

namespace Term

def bindStep (self : Term → ScopeId → Eval Value) :
    List Term → List String → (scope inner : ScopeId) → Eval Unit
  | [], _, _, _ => pure ()
  | arg :: args, params, scope, inner => do
    let v ← self arg scope
    match params with
    | [] => throw .absentParameter
    | name :: names => do
      Eval.define inner name v
      bindStep self args names scope inner

/-- The rule for each kind of term, where `self` evaluates terms. -/
def step (self : Term → ScopeId → Eval Value) : Term → ScopeId → Eval Value
  | absent, _ => Eval.fail .missingExpression
  | int _ n, _ => pure (.int n)
  | str _ s, _ => pure (.str s)
  | bool _ b, _ => pure (.bool b)
  | var loc text, scope => do
    match ← Eval.lookup? scope text with
    | some v => pure v
    | none => Eval.fail (.unbound loc text)
  | binary loc lhs op rhs, scope => do
    let l ← self lhs scope
    let r ← self rhs scope
    liftExcept (operate loc op l r)
  | letIn _ name value next, scope => do
    let v ← self value scope
    Eval.define scope name.text v
    self next scope
  | function _ params body, scope => do
    let captured ← Eval.onStore (·.capture scope)
    pure (.closure ⟨params.map Parameter.text, body, captured⟩)
  | call loc callee args _, scope => do
    match ← self callee scope with
    | .closure c => do
      if args.length ≠ c.arity then
        Eval.fail (.arity loc c.arity args.length)
      else do
        let inner ← Eval.onStore (·.extend c.scope)
        bindStep self args c.params scope inner
        Eval.enter loc (self c.body inner)
    | v => do Eval.fail (.notCallable loc (← Eval.kindOf v))
  | ite _ condition thenBranch otherwise, scope => do
    match ← self condition scope with
    | .bool true => self thenBranch scope
    | .bool false => self otherwise scope
    | v => do Eval.fail (.condition condition.loc (← Eval.kindOf v))
  | tuple _ a b, scope => do
    let x ← self a scope
    let y ← self b scope
    pure (.pair x y)
  | first loc t, scope => do
    match ← self t scope with
    | .pair x _ => pure x
    | v => do Eval.fail (.projection loc .first (← Eval.kindOf v))
  | second loc t, scope => do
    match ← self t scope with
    | .pair _ y => pure y
    | v => do Eval.fail (.projection loc .second (← Eval.kindOf v))
  | print loc t, scope => do
    let v ← self t scope
    Eval.print loc v
    pure v
  | error loc message _, _ => Eval.fail (.parseError loc message)

/-- Follows the rules; every term that comes up takes one unit of fuel off those it leads to. -/
def evalWithin : (fuel : Nat) → Term → ScopeId → Eval Value
  | 0 => fun _ _ => throw .unfinished
  | fuel + 1 => step (evalWithin fuel)

theorem evalWithin_succ (fuel : Nat) : evalWithin (fuel + 1) = step (evalWithin fuel) := rfl

end Term

/-- With enough fuel `x` does on `m` what `y` does, and `y` is not cut short. -/
structure Settles {α : Type} (m : Machine) (x : Nat → Eval α) (y : Eval α) : Prop where
  enough : ∃ fuel, ∀ more, fuel ≤ more → (x more).run m = y.run m
  finished : (y.run m).1 ≠ .error .unfinished

namespace Settles

variable {α β : Type} {m : Machine}

theorem const {x : Eval α} (h : (x.run m).1 ≠ .error .unfinished) : Settles m (fun _ => x) x :=
  ⟨⟨0, fun _ _ => rfl⟩, h⟩

theorem fail (f : Fault) : Settles m (fun _ => (Eval.fail f : Eval α)) (Eval.fail f) :=
  .const (by rintro ⟨⟩)

theorem succ {x : Nat → Eval α} {y : Eval α} (h : Settles m (fun fuel => x (fuel + 1)) y) : Settles m x y := by
  obtain ⟨⟨fuel, henough⟩, hfinished⟩ := h
  refine ⟨⟨fuel + 1, fun more hmore => ?_⟩, hfinished⟩
  obtain ⟨n, rfl⟩ : ∃ n, more = n + 1 := ⟨more - 1, by omega⟩
  exact henough n (by omega)

theorem bind {x : Nat → Eval α} {y : Eval α} {f : Nat → α → Eval β} {g : α → Eval β} (hx : Settles m x y)
    (hf : ∀ a m₁, y.run m = (.ok a, m₁) → Settles m₁ (fun fuel => f fuel a) (g a)) :
    Settles m (fun fuel => x fuel >>= f fuel) (y >>= g) := by
  obtain ⟨⟨fuel, henough⟩, hfinished⟩ := hx
  rcases hr : y.run m with ⟨e | a, m₁⟩
  · refine ⟨⟨fuel, fun more hmore => ?_⟩, ?_⟩
    · rw [Eval.run_bind_error hr, Eval.run_bind_error ((henough more hmore).trans hr)]
    · rw [hr] at hfinished
      rw [Eval.run_bind_error hr]
      rintro ⟨⟩
      exact hfinished rfl
  · obtain ⟨⟨fuel', henough'⟩, hfinished'⟩ := hf a m₁ hr
    refine ⟨⟨max fuel fuel', fun more hmore => ?_⟩, ?_⟩
    · have hfirst := (henough more (by omega)).trans hr
      rw [Eval.run_bind_ok hr, Eval.run_bind_ok hfirst]
      exact henough' more (by omega)
    · rw [Eval.run_bind_ok hr]
      exact hfinished'

theorem refuse (v : Value) (f : Kind → Fault) :
    Settles m (fun _ => (do Eval.fail (f (← Eval.kindOf v)) : Eval α)) (do Eval.fail (f (← Eval.kindOf v))) := by
  apply const
  rw [Eval.run_bind, Eval.run_kindOf]
  cases v.kind? with
  | none => rintro ⟨⟩
  | some k => rintro ⟨⟩

theorem print (loc : Location) (v : Value) : Settles m (fun _ => Eval.print loc v) (Eval.print loc v) := by
  apply const
  rw [Eval.run_print]
  cases m.output.write? (v.format ++ "\n".toUTF8) with
  | none => rintro ⟨⟩
  | some output => rintro ⟨⟩

end Settles

theorem operate_finished (loc : Location) (op : Operator) (l r : Value) :
    operate loc op l r ≠ .error .unfinished := by
  intro h
  rcases operate_failure h with ⟨f, hf⟩ | habsent
  · cases hf
  · cases habsent

namespace Machine

/-- The number of closure bodies that may still be entered. -/
def levels (m : Machine) : Nat := m.limit - m.depth

theorem Grows.levels_eq {m m₁ : Machine} (h : m.Grows m₁) : m₁.levels = m.levels := by
  rw [levels, levels, h.2.1, h.2.2]

end Machine

namespace Term

variable {n : Nat} {t : Term} {h : ScopeId} {m : Machine}

/-- Where `n` levels are left, the rules for the term come to an end. -/
def Ends (n : Nat) (t : Term) : Prop :=
  ∀ h m, m.levels = n → Settles m (fun fuel => t.evalWithin fuel h) (t.evalWith (evalBody n) h)

theorem Ends.bind {β : Type} {f : Nat → Value → Eval β} {g : Value → Eval β} (ht : Ends n t) (hm : m.levels = n)
    (hf : ∀ v m₁, m₁.levels = n → Settles m₁ (fun fuel => f fuel v) (g v)) :
    Settles m (fun fuel => t.evalWithin fuel h >>= f fuel) (t.evalWith (evalBody n) h >>= g) := by
  refine (ht h m hm).bind fun v m₁ hv => hf v m₁ ?_
  have hgrows := Machine.grows_stepwise.evalWith (Machine.grows_stepwise.evalBody n) t h m
  rw [hv] at hgrows
  exact hgrows.levels_eq.trans hm

theorem bindStep_settles (args : List Term) (hargs : ∀ arg ∈ args, Ends n arg) (params : List String)
    (hm : m.levels = n) (inner : ScopeId) :
    Settles m (fun fuel => bindStep (evalWithin fuel) args params h inner)
      (bindWith (evalBody n) args params h inner) := by
  induction args generalizing params m with
  | nil => exact .const (by rintro ⟨⟩)
  | cons arg args ih =>
    simp only [bindStep, bindWith]
    refine (hargs arg List.mem_cons_self).bind hm fun v m₁ hm₁ => ?_
    cases params with
    | nil => exact .const (by rintro ⟨⟩)
    | cons name names =>
      refine Settles.bind (.const (by rintro ⟨⟩)) fun _ m₂ hm₂ => ?_
      cases hm₂
      exact ih (fun a ha => hargs a (List.mem_cons_of_mem _ ha)) names hm₁

theorem enter_settles (hbodies : ∀ k, n = k + 1 → ∀ body, Ends k body) (hm : m.levels = n) (loc : Location)
    (body : Term) (inner : ScopeId) :
    Settles m (fun fuel => Eval.enter loc (body.evalWithin fuel inner)) (Eval.enter loc (evalBody n body inner)) := by
  unfold Machine.levels at hm
  by_cases hstop : m.limit ≤ m.depth
  · have hrun : ∀ x : Eval Value, (Eval.enter loc x).run m = (.error (.fault (.exhausted loc m.limit)), m) := by
      intro x
      rw [Eval.run_enter, if_pos hstop]
    refine ⟨⟨0, fun more _ => by rw [hrun, hrun]⟩, ?_⟩
    rw [hrun]
    rintro ⟨⟩
  · obtain ⟨k, rfl⟩ : ∃ k, n = k + 1 := ⟨m.limit - m.depth - 1, by omega⟩
    have hlt : m.depth < m.limit := Nat.not_le.mp hstop
    have hdeeper : Machine.levels { m with depth := m.depth + 1 } = k := by
      unfold Machine.levels
      dsimp only
      omega
    obtain ⟨⟨fuel, henough⟩, hfinished⟩ := hbodies k rfl body inner _ hdeeper
    rw [← eval_eq] at henough hfinished
    refine ⟨⟨fuel, fun more hmore => ?_⟩, ?_⟩
    · rw [Eval.run_enter_of_lt loc _ hlt, Eval.run_enter_of_lt loc _ hlt, henough more hmore]
      rfl
    · rw [Eval.run_enter_of_lt loc _ hlt]
      exact hfinished

theorem call_ends (hbodies : ∀ k, n = k + 1 → ∀ body, Ends k body) (loc : Location) (callee : Term)
    (args : List Term) (listed : Bool) (hcallee : Ends n callee) (hargs : ∀ arg ∈ args, Ends n arg) :
    Ends n (.call loc callee args listed) := by
  intro h m hm
  refine .succ ?_
  simp only [evalWithin_succ, step, evalWith]
  refine hcallee.bind hm fun v m₁ hm₁ => ?_
  cases v with
  | closure c =>
    dsimp only
    by_cases harity : args.length = c.arity
    · simp only [ne_eq, harity, not_true_eq_false, if_false]
      refine Settles.bind (.const (by rintro ⟨⟩)) fun inner m₂ hinner => ?_
      obtain ⟨rfl, rfl⟩ : (m₁.frame c.scope).1 = inner ∧ (m₁.frame c.scope).2 = m₂ := by
        rw [m₁.run_extend] at hinner
        simpa using hinner
      have hm₂ : (m₁.frame c.scope).2.levels = n := hm₁
      refine (bindStep_settles args hargs c.params hm₂ _).bind fun _ m₃ hm₃ => ?_
      have hgrows := Machine.grows_stepwise.bindWith args
        (fun a _ => Machine.grows_stepwise.evalWith (Machine.grows_stepwise.evalBody n) a) c.params h
        (m₁.frame c.scope).1 (m₁.frame c.scope).2
      rw [hm₃] at hgrows
      exact enter_settles hbodies (hgrows.levels_eq.trans hm₂) loc c.body _
    · simp only [ne_eq, harity, not_false_eq_true, if_true]
      exact .fail _
  | _ => exact .refuse _ _

theorem evalWith_ends (hbodies : ∀ k, n = k + 1 → ∀ body, Ends k body) (t : Term) : Ends n t := by
  induction t using Term.inductionOn with
  | absent => exact fun h m _ => .succ (.fail _)
  | int loc k => exact fun h m _ => .succ (.const (by rintro ⟨⟩))
  | str loc s => exact fun h m _ => .succ (.const (by rintro ⟨⟩))
  | bool loc b => exact fun h m _ => .succ (.const (by rintro ⟨⟩))
  | error loc message fullText => exact fun h m _ => .succ (.fail _)
  | var loc text =>
    intro h m _
    refine .succ (Settles.bind (.const (by rintro ⟨⟩)) fun found m₁ _ => ?_)
    cases found with
    | none => exact .fail _
    | some v => exact .const (by rintro ⟨⟩)
  | binary loc lhs op rhs ihl ihr =>
    intro h m hm
    refine .succ ?_
    simp only [evalWithin_succ, step, evalWith]
    refine ihl.bind hm fun l m₁ hm₁ => ihr.bind hm₁ fun r m₂ _ => .const ?_
    rw [Eval.run_liftExcept]
    exact operate_finished loc op l r
  | letIn loc name value next ihv ihn =>
    intro h m hm
    refine .succ ?_
    simp only [evalWithin_succ, step, evalWith]
    refine ihv.bind hm fun v m₁ hm₁ => Settles.bind (.const (by rintro ⟨⟩)) fun _ m₂ hm₂ => ?_
    cases hm₂
    exact ihn h _ hm₁
  | function loc params body _ =>
    intro h m _
    refine .succ (Settles.bind (.const (by rintro ⟨⟩)) fun captured m₁ _ => .const (by rintro ⟨⟩))
  | call loc callee args listed ihc iha => exact call_ends hbodies loc callee args listed ihc iha
  | ite loc c t e ihc iht ihe =>
    intro h m hm
    refine .succ ?_
    simp only [evalWithin_succ, step, evalWith]
    refine ihc.bind hm fun v m₁ hm₁ => ?_
    cases v with
    | bool b => cases b with
      | true => exact iht h m₁ hm₁
      | false => exact ihe h m₁ hm₁
    | _ => exact .refuse _ _
  | tuple loc a b iha ihb =>
    intro h m hm
    refine .succ ?_
    simp only [evalWithin_succ, step, evalWith]
    exact iha.bind hm fun x m₁ hm₁ => ihb.bind hm₁ fun y m₂ _ => .const (by rintro ⟨⟩)
  | first loc t ih =>
    intro h m hm
    refine .succ ?_
    simp only [evalWithin_succ, step, evalWith]
    refine ih.bind hm fun v m₁ _ => ?_
    cases v with
    | pair x y => exact .const (by rintro ⟨⟩)
    | _ => exact .refuse _ _
  | second loc t ih =>
    intro h m hm
    refine .succ ?_
    simp only [evalWithin_succ, step, evalWith]
    refine ih.bind hm fun v m₁ _ => ?_
    cases v with
    | pair x y => exact .const (by rintro ⟨⟩)
    | _ => exact .refuse _ _
  | print loc t ih =>
    intro h m hm
    refine .succ ?_
    simp only [evalWithin_succ, step, evalWith]
    exact ih.bind hm fun v m₁ _ => (Settles.print loc v).bind fun _ m₂ _ => .const (by rintro ⟨⟩)

/-- The measure is the number of levels left, then the term. -/
theorem ends (n : Nat) (t : Term) : Ends n t := by
  induction n generalizing t with
  | zero => exact evalWith_ends (fun k hk => absurd hk (Nat.succ_ne_zero k).symm) t
  | succ n ih =>
    refine evalWith_ends (fun k hk body => ?_) t
    cases hk
    exact ih body

end Term

end TreeWalk
