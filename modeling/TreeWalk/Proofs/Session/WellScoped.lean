import TreeWalk.Proofs.Reference.Invariant
import TreeWalk.Proofs.Session.Meaning
import TreeWalk.Proofs.Syntax.Free

/-!
# Well-scoped programs find every name

A term that is well scoped under the names of its environment finds every variable it comes to. The
environment of a closure has the names its body needs from outside: it had them when the closure was made,
and nothing takes a name away.
-/

namespace TreeWalk

namespace Term

theorem WellScoped.mono {t : Term} {names names' : List String} (h : t.WellScoped names)
    (hsub : ∀ x ∈ names, x ∈ names') : t.WellScoped names' := by
  rw [wellScoped_iff] at h ⊢
  exact fun x hx => hsub x (h x hx)

theorem free_of_operand {t part : Term} (h : part ∈ t.operands) : ∀ x ∈ part.free, x ∈ t.free := by
  intro x hx
  cases t with
  | binary | tuple | ite =>
    simp only [operands, List.mem_cons, List.not_mem_nil, or_false] at h
    simp only [free, List.mem_append]
    aesop
  | letIn | first | second | print =>
    obtain rfl := List.mem_singleton.mp h
    simp [free, hx]
  | call loc callee args listed =>
    rw [free, List.mem_append, mem_freeOf]
    cases h with
    | head => exact .inl hx
    | tail _ harg => exact .inr ⟨part, harg, hx⟩
  | _ => cases h

end Term

namespace Reference

def Env.names (env : Env) : List String := env.flatten.map Prod.fst

theorem Env.names_cons (scope : Bindings) (outer : Env) :
    Env.names (scope :: outer) = scope.map Prod.fst ++ Env.names outer := by
  rw [names, List.flatten_cons, List.map_append]
  rfl

theorem Env.lookup?_eq_none_iff {env : Env} {x : String} : env.lookup? x = none ↔ x ∉ env.names := by
  induction env with
  | nil => simp [lookup?, names]
  | cons scope outer ih =>
    have hscope : scope.lookup x = none ↔ x ∉ scope.map Prod.fst := by
      rw [List.lookup_eq_none_iff]
      simp only [bne_iff_ne, List.mem_map, not_exists, not_and]
      exact ⟨fun h b hb he => h b hb he.symm, fun h b hb he => h b hb he.symm⟩
    rw [lookup?_cons, Option.or_eq_none_iff, hscope, ih, names_cons, List.mem_append, not_or]

/-- Terms are evaluated in environments that have the names they need. -/
def Discipline.scoped : Discipline Unit where
  ok _ env t := t.WellScoped env.names
  operand := by
    intro _ env t part h hpart
    rw [Term.wellScoped_iff] at h ⊢
    exact fun x hx => h x (Term.free_of_operand hpart x hx)
  next := by
    intro _ scope outer loc name value next v h
    rw [Term.WellScoped] at h
    rw [Env.names_cons] at h ⊢
    exact h.2
  later := by
    intro _ scope outer loc name value next t v _ h
    refine h.mono fun x hx => ?_
    rw [Env.names_cons] at hx ⊢
    exact List.mem_cons_of_mem name.text hx
  body := by
    intro _ env loc params body frame h hframe
    rw [Term.WellScoped] at h
    refine ⟨(), h.mono fun x hx => ?_⟩
    rw [Env.names_cons, hframe, List.mem_append, List.mem_reverse]
    exact List.mem_append.mp hx

theorem Raised.ne_unbound {limit : Nat} {env : Env} {t : Term} {f : Fault} (h : Raised limit env t (.fault f))
    (hscoped : t.WellScoped env.names) : f.kind ≠ .unboundVariable := by
  cases h with
  | @unbound loc name hnone =>
    rw [Term.WellScoped] at hscoped
    exact absurd hscoped (Env.lookup?_eq_none_iff.mp hnone)
  | operator lhs rhs hl hr hoperate =>
    rcases operate_error hl hr hoperate with ⟨name, -, h⟩ | ⟨-, h⟩ | ⟨-, h⟩ | h
    all_goals
      cases h
      rintro ⟨⟩
  | _ => rintro ⟨⟩

end Reference

namespace Interpreter

/-- The run of a program that is well scoped under no names does not end with an unbound name, whatever the limit, the
output and the session it is a part of. -/
theorem run_finds_names (i : Interpreter) (k : Caller) (hsession : Caller.Session i k) (p : Program)
    (hscoped : p.expression.WellScoped []) :
    ¬∃ f, (i.run p).1 = .error (.fault f) ∧ f.kind = .unboundVariable := by
  rintro ⟨f, hf, hkind⟩
  by_cases hp : p.expression.isAbsent
  · rw [run_absent hp] at hf
    cases hf
    cases hkind
  · have hrefines := congrArg Prod.fst (run_refines hsession hp)
    have hfailure : (Reference.evaluate i.machine.limit 0 p.expression [[]] i.machine.output).1 = .error (.fault f) :=
      hrefines.trans (map_eq_error.mpr hf)
    have hfits : Reference.Env.Fits .scoped [[]] := by simp [Reference.Env.Fits]
    have hok : Reference.Discipline.scoped.ok () [[]] p.expression := hscoped
    obtain ⟨-, horigin, -⟩ := Reference.evaluate_upholds hfits hok i.machine.limit 0 i.machine.output
    obtain ⟨_, env, t, -, ht, hraised⟩ := horigin _ hfailure
    exact hraised.ne_unbound ht hkind

/-- `let y = 1; let make = fn (x) => (fn () => x + y, x); let made = make(y); let y = true; first(made)() - "a"`: the
closure comes out of a call in a tuple, and is called when `y` has been bound anew. -/
def returnedClosure : Term :=
  .letIn .unknown ⟨"y", .unknown⟩ (.int .unknown 1)
    (.letIn .unknown ⟨"make", .unknown⟩
      (.function .unknown [⟨"x", .unknown⟩]
        (.tuple .unknown
          (.function .unknown [] (.binary .unknown (.var .unknown "x") .add (.var .unknown "y")))
          (.var .unknown "x")))
      (.letIn .unknown ⟨"made", .unknown⟩ (.call .unknown (.var .unknown "make") [.var .unknown "y"] true)
        (.letIn .unknown ⟨"y", .unknown⟩ (.bool .unknown true)
          (.binary .unknown (.call .unknown (.first .unknown (.var .unknown "made")) [] true) .sub
            (.str .unknown "a".toUTF8)))))

theorem run_finds_names_returnedClosure :
    returnedClosure.WellScoped [] ∧
    ¬∃ f, ((new (.limited 0 "full") 1).run (.inline returnedClosure)).1 = .error (.fault f) ∧
      f.kind = .unboundVariable := by
  have hscoped : returnedClosure.WellScoped [] := by decide
  exact ⟨hscoped, run_finds_names _ _ (.new (.limited 0 "full") 1) (.inline returnedClosure) hscoped⟩

end Interpreter

end TreeWalk
