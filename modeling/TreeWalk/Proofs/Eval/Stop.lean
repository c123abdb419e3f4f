import TreeWalk.Proofs.Eval.Growth
import TreeWalk.Proofs.Eval.Part

/-!
# Failures stop an evaluation

No construct goes on when the evaluation of one of its parts has failed: it fails in the same way, on the
machine that the failure left behind. So wherever in an evaluation a failure comes up, nothing more is
evaluated, bound or written after it; only the levels that were entered are left. What was bound and written
before stays, as it does when nothing fails.
-/

namespace TreeWalk

/-- A computation comes to `r'` after a part of it has come to `r`: nothing of what the part left is lost, and a failure
of the part is the end, the depth apart. -/
structure Carries {α β : Type} (r : Except Failure α × Machine) (r' : Except Failure β × Machine) : Prop where
  precedes : r.2.Precedes r'.2
  stops : ∀ e, r.1 = .error e → ∃ d, r' = (.error e, { r.2 with depth := d })

namespace Carries

variable {α β γ : Type} {a : Except Failure α × Machine} {b : Except Failure β × Machine}
  {c : Except Failure γ × Machine}

theorem depth (a : Except Failure α × Machine) (d : Nat) : Carries a (a.1, { a.2 with depth := d }) := by
  refine ⟨⟨fun _ _ hs => ⟨[], hs⟩, List.suffix_refl _⟩, fun e he => ⟨d, ?_⟩⟩
  rw [he]

theorem refl (a : Except Failure α × Machine) : Carries a a := depth a a.2.depth

theorem trans (hab : Carries a b) (hbc : Carries b c) : Carries a c := by
  refine ⟨hab.precedes.trans hbc.precedes, fun e he => ?_⟩
  obtain ⟨d, rfl⟩ := hab.stops e he
  obtain ⟨d', rfl⟩ := hbc.stops e rfl
  exact ⟨d', rfl⟩

theorem bind {x : Eval α} {f : α → Eval β} (hf : ∀ a, Along Machine.Grows (f a)) (m : Machine) :
    Carries (x.run m) ((x >>= f).run m) := by
  rcases hx : x.run m with ⟨e | a, m'⟩
  · rw [Eval.run_bind_error hx]
    refine ⟨.refl m', ?_⟩
    rintro _ ⟨⟩
    exact ⟨m'.depth, rfl⟩
  · rw [Eval.run_bind_ok hx]
    exact ⟨(hf a m').1, by rintro e ⟨⟩⟩

end Carries

namespace Point

theorem Next.carries {p q : Point} (h : p.Next q) : Carries q.result p.result := by
  have hgrows := Machine.grows_stepwise
  have hterm := fun n => hgrows.evalWith (hgrows.evalBody n)
  have henter := fun n loc body h => hgrows.enter loc (hgrows.evalBody n body h)
  have hbind := fun n args => hgrows.bindWith args fun a (_ : a ∈ args) => hterm n a
  have hstill : ∀ x : Eval Value, (∀ m, (x.run m).2 = m) → Along Machine.Grows x := fun _ => hgrows.still
  have hoperate : ∀ loc op l r, Along Machine.Grows (liftExcept (operate loc op l r) : Eval Value) := by
    intro loc op l r
    refine hstill _ fun m => ?_
    rw [Eval.run_liftExcept]
  cases h with
  | @binaryLeft n loc lhs op rhs h m =>
    rw [result_eq, result_eq, Term.evalWith]
    exact Carries.bind (fun l => hgrows.bind (hterm n rhs h) (hoperate loc op l)) m
  | @binaryRight n loc lhs op rhs h m v m' e =>
    rw [result_eq] at e
    rw [result_eq, result_eq, Term.evalWith, Eval.run_bind_ok e]
    exact Carries.bind (hoperate loc op v) m'
  | @letValue n loc name value next h m =>
    rw [result_eq, result_eq, Term.evalWith]
    refine Carries.bind (fun v => ?_) m
    exact hgrows.bind (fun m => hgrows.define m h name.text v) fun _ => hterm n next h
  | @letNext n loc name value next h m v m' e =>
    rw [result_eq] at e
    rw [result_eq, result_eq, Term.evalWith, Eval.run_bind_ok e, Eval.run_bind_ok (Eval.run_define h name.text v m')]
    exact .refl _
  | @callee n loc callee args listed h m =>
    rw [result_eq, result_eq, Term.evalWith]
    refine Carries.bind (fun v => ?_) m
    cases v with
    | closure c =>
      dsimp only
      split
      · exact hstill _ fun _ => rfl
      · refine hgrows.bind (fun m => hgrows.extend m c.scope) fun inner => ?_
        exact hgrows.bind (hbind n args c.params h inner) fun _ => henter n loc c.body inner
    | _ => exact hgrows.refuse _ _
  | @argument n loc callee listed h m c m₁ m₂ before arg after e harity hbefore =>
    rw [result_eq] at e
    rw [result_eq, result_eq, Term.run_call e harity]
    have harg : Carries ((arg.evalWith (Term.evalBody n) h).run m₂)
        ((Term.bindWith (Term.evalBody n) (before ++ arg :: after) c.params h (m₁.frame c.scope).1).run
          (m₁.frame c.scope).2) := by
      rw [Term.run_bindWith_append (arg :: after) hbefore, Term.bindWith]
      refine Carries.bind (fun v => ?_) m₂
      split
      · exact hgrows.still fun _ => rfl
      · next name names _ =>
        exact hgrows.bind (fun m => hgrows.define m _ name v) fun _ => hbind n after names h _
    exact harg.trans (Carries.bind (fun _ => henter n loc c.body _) _)
  | @body p c m₁ q hcall =>
    cases hcall with
    | @intro n loc callee args listed h m c m₁ m₂ e harity hargs hdepth =>
      rw [result_eq] at e
      rw [result_eq, result_eq, Term.run_call e harity, Eval.run_bind_ok hargs, Eval.run_enter_of_lt _ _ hdepth,
        Term.evalBody, Term.eval_eq]
      exact .depth _ _
  | @condition n loc c t e h m =>
    rw [result_eq, result_eq, Term.evalWith]
    refine Carries.bind (fun v => ?_) m
    cases v with
    | bool b => cases b with
      | true => exact hterm n t h
      | false => exact hterm n e h
    | _ => exact hgrows.refuse _ _
  | thenBranch hc =>
    rw [result_eq] at hc
    rw [result_eq, result_eq, Term.evalWith, Eval.run_bind_ok hc]
    exact .refl _
  | otherwise hc =>
    rw [result_eq] at hc
    rw [result_eq, result_eq, Term.evalWith, Eval.run_bind_ok hc]
    exact .refl _
  | @tupleFirst n loc a b h m =>
    rw [result_eq, result_eq, Term.evalWith]
    exact Carries.bind (fun x => hgrows.bind (hterm n b h) fun y => hstill _ fun _ => rfl) m
  | @tupleSecond n loc a b h m v m' e =>
    rw [result_eq] at e
    rw [result_eq, result_eq, Term.evalWith, Eval.run_bind_ok e]
    exact Carries.bind (fun y => hstill _ fun _ => rfl) m'
  | @first n loc t h m =>
    rw [result_eq, result_eq, Term.evalWith]
    refine Carries.bind (fun v => ?_) m
    cases v with
    | pair x y => exact hstill _ fun _ => rfl
    | _ => exact hgrows.refuse _ _
  | @second n loc t h m =>
    rw [result_eq, result_eq, Term.evalWith]
    refine Carries.bind (fun v => ?_) m
    cases v with
    | pair x y => exact hstill _ fun _ => rfl
    | _ => exact hgrows.refuse _ _
  | @print n loc t h m =>
    rw [result_eq, result_eq, Term.evalWith]
    exact Carries.bind (fun v => hgrows.bind (hgrows.print loc v) fun _ => hstill _ fun _ => rfl) m

theorem Visits.carries {p q : Point} (h : p.Visits q) : Carries q.result p.result := by
  induction h with
  | refl => exact .refl _
  | tail _ hnext ih => exact hnext.carries.trans ih

/-- A failure at any point that is visited is the end of the whole evaluation. -/
theorem Visits.stops {p q : Point} (h : p.Visits q) {e : Failure} {m' : Machine} (he : q.result = (.error e, m')) :
    p.result = (.error e, { m' with depth := p.machine.depth }) := by
  have hcarries := h.carries
  rw [he] at hcarries
  obtain ⟨d, hd⟩ := hcarries.stops e rfl
  have hdepth := (grows_of_result hd).2.1
  rw [hd, ← hdepth]

theorem Visits.precedes {p q : Point} (h : p.Visits q) : q.final.Precedes p.final := h.carries.precedes

end Point

end TreeWalk
