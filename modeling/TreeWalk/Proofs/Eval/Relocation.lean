import TreeWalk.Proofs.Eval.Locality
import TreeWalk.Proofs.Scope.Relocation

/-!
# Evaluation on top of other scopes

An evaluation that starts in a store on top of other scopes takes the same course as without them, with the numbers
of all scopes raised. A run starts in a scope that sees no other, so it is what it would be if there were no other
scopes.
-/

namespace TreeWalk

def Machine.atop (m : Machine) (base : Array Scope) : Machine := { m with store := m.store.atop base }

/-- On top of `base`, `y` does what `x` does without it, and answers with what `f` makes of the answer. -/
def Lifts {α : Type} (base : Array Scope) (f : α → α) (x y : Eval α) : Prop :=
  ∀ m, m.store.Ordered →
    y.run (m.atop base) = ((x.run m).1.map f, (x.run m).2.atop base) ∧ (x.run m).2.store.Ordered

namespace Lifts

variable {α β : Type} {base : Array Scope} {f : α → α} {g : β → β}

theorem pure (a : α) : Lifts base f (Pure.pure a) (Pure.pure (f a)) := fun _ hm => ⟨rfl, hm⟩

theorem throw (e : Failure) : Lifts base f (MonadExcept.throw e) (MonadExcept.throw e) := fun _ hm => ⟨rfl, hm⟩

theorem fail (e : Fault) : Lifts base f (Eval.fail e) (Eval.fail e) := fun _ hm => ⟨rfl, hm⟩

theorem bind {x y : Eval α} {k k' : α → Eval β} (hx : Lifts base f x y) (hk : ∀ a, Lifts base g (k a) (k' (f a))) :
    Lifts base g (x >>= k) (y >>= k') := by
  intro m hm
  obtain ⟨hrun, hordered⟩ := hx m hm
  rcases hr : x.run m with ⟨e | a, m₁⟩
  · rw [hr] at hrun hordered
    have hfails : y.run (m.atop base) = (.error e, m₁.atop base) := hrun
    rw [Eval.run_bind_error hfails, Eval.run_bind_error hr]
    exact ⟨rfl, hordered⟩
  · rw [hr] at hrun hordered
    have hgives : y.run (m.atop base) = (.ok (f a), m₁.atop base) := hrun
    rw [Eval.run_bind_ok hgives, Eval.run_bind_ok hr]
    exact hk a m₁ hordered

theorem refuse (d : Nat) (v : Value) (e : Kind → Fault) :
    Lifts base f (do Eval.fail (e (← Eval.kindOf v)) : Eval α) (do Eval.fail (e (← Eval.kindOf (v.shift d)))) := by
  intro m hm
  rw [Eval.run_bind, Eval.run_bind, Eval.run_kindOf, Eval.run_kindOf, Value.kind?_shift]
  cases v.kind? with
  | none => exact ⟨rfl, hm⟩
  | some k => exact ⟨rfl, hm⟩

theorem lookup? (h : Nat) (name : String) :
    Lifts base (Option.map (Value.shift base.size)) (Eval.lookup? h name) (Eval.lookup? (h + base.size) name) := by
  intro m hm
  refine ⟨?_, hm⟩
  have henv : (m.atop base).store.env (h + base.size) = _ := Store.env_atop hm base h
  rw [Eval.run_lookup?, Eval.run_lookup?, henv, Env.lookup?_shift]
  rfl

theorem define (h : Nat) (name : String) (v : Value) :
    Lifts base id (Eval.define h name v) (Eval.define (h + base.size) name (v.shift base.size)) := by
  intro m hm
  have hdefine : (m.atop base).store.define (h + base.size) name (v.shift base.size) = _ :=
    Store.define_atop m.store base h name v
  rw [Eval.run_define, Eval.run_define, hdefine]
  exact ⟨rfl, hm.define h name v⟩

theorem capture (h : Nat) :
    Lifts base (· + base.size) (Eval.onStore (·.capture h)) (Eval.onStore (·.capture (h + base.size))) := by
  intro m hm
  have hcapture : (m.atop base).store.capture (h + base.size) = _ := Store.capture_atop hm base h
  rw [Eval.run_onStore, Eval.run_onStore, hcapture]
  exact ⟨rfl, hm.capture h⟩

theorem extend (h : Nat) :
    Lifts base (· + base.size) (Eval.onStore (·.extend h)) (Eval.onStore (·.extend (h + base.size))) := by
  intro m hm
  have hextend : (m.atop base).store.extend (h + base.size) = _ := Store.extend_atop hm base h
  rw [Eval.run_onStore, Eval.run_onStore, hextend]
  exact ⟨rfl, hm.extend h⟩

theorem operate (loc : Location) (op : Operator) (d : Nat) (l r : Value) :
    Lifts base (Value.shift d) (liftExcept (TreeWalk.operate loc op l r))
      (liftExcept (TreeWalk.operate loc op (l.shift d) (r.shift d))) := by
  intro m hm
  rw [Eval.run_liftExcept, Eval.run_liftExcept, operate_shift]
  exact ⟨rfl, hm⟩

theorem print (loc : Location) (d : Nat) (v : Value) :
    Lifts base id (Eval.print loc v) (Eval.print loc (v.shift d)) := by
  intro m hm
  have houtput : (m.atop base).output = m.output := rfl
  rw [Eval.run_print, Eval.run_print, Value.format_shift, houtput]
  cases m.output.write? (v.format ++ "\n".toUTF8) with
  | none => exact ⟨rfl, hm⟩
  | some output => exact ⟨rfl, hm⟩

theorem enter (loc : Location) {x y : Eval α} (hx : Lifts base f x y) :
    Lifts base f (Eval.enter loc x) (Eval.enter loc y) := by
  intro m hm
  by_cases hdepth : m.depth < m.limit
  · have hdepth' : (m.atop base).depth < (m.atop base).limit := hdepth
    obtain ⟨hrun, hordered⟩ := hx { m with depth := m.depth + 1 } hm
    have hrun' : y.run { m.atop base with depth := (m.atop base).depth + 1 } = _ := hrun
    rw [Eval.run_enter_of_lt loc x hdepth, Eval.run_enter_of_lt loc y hdepth', hrun']
    exact ⟨rfl, hordered⟩
  · have hstop : m.limit ≤ m.depth := Nat.not_lt.mp hdepth
    have hstop' : (m.atop base).limit ≤ (m.atop base).depth := hstop
    rw [Eval.run_enter, Eval.run_enter, if_pos hstop, if_pos hstop']
    exact ⟨rfl, hm⟩

end Lifts

namespace Term

variable {base : Array Scope} {apply : Term → ScopeId → Eval Value}

theorem bindWith_lifts (args : List Term)
    (hargs : ∀ arg ∈ args, ∀ h : Nat,
      Lifts base (Value.shift base.size) (arg.evalWith apply h) (arg.evalWith apply (h + base.size)))
    (params : List String) (h inner : Nat) :
    Lifts base id (bindWith apply args params h inner)
      (bindWith apply args params (h + base.size) (inner + base.size)) := by
  induction args generalizing params with
  | nil => exact .pure ()
  | cons arg args ih =>
    rw [bindWith, bindWith]
    refine (hargs arg List.mem_cons_self h).bind fun v => ?_
    cases params with
    | nil => exact .throw _
    | cons name names =>
      refine (Lifts.define inner name v).bind fun _ => ?_
      exact ih (fun a ha => hargs a (List.mem_cons_of_mem _ ha)) names

theorem evalWith_lifts
    (happly : ∀ body (h : Nat), Lifts base (Value.shift base.size) (apply body h) (apply body (h + base.size)))
    (t : Term) :
    ∀ h : Nat, Lifts base (Value.shift base.size) (t.evalWith apply h) (t.evalWith apply (h + base.size)) := by
  induction t using Term.inductionOn with
  | absent => exact fun h => .fail _
  | int loc n => exact fun h => .pure _
  | str loc s => exact fun h => .pure _
  | bool loc b => exact fun h => .pure _
  | error loc message fullText => exact fun h => .fail _
  | var loc text =>
    intro h
    rw [evalWith, evalWith]
    refine (Lifts.lookup? h text).bind fun found => ?_
    cases found with
    | none => exact .fail _
    | some v => exact .pure v
  | binary loc lhs op rhs ihl ihr =>
    intro h
    rw [evalWith, evalWith]
    exact (ihl h).bind fun l => (ihr h).bind fun r => Lifts.operate loc op base.size l r
  | letIn loc name value next ihv ihn =>
    intro h
    rw [evalWith, evalWith]
    exact (ihv h).bind fun v => (Lifts.define h name.text v).bind fun _ => ihn h
  | function loc params body _ =>
    intro h
    rw [evalWith, evalWith]
    exact (Lifts.capture h).bind fun captured => .pure (Value.closure ⟨_, body, captured⟩)
  | call loc callee args listed ihc iha =>
    intro h
    rw [evalWith, evalWith]
    refine (ihc h).bind fun v => ?_
    cases v with
    | closure c =>
      have harity : (c.shift base.size).arity = c.arity := rfl
      simp only [Value.shift, harity]
      split
      · exact .fail _
      · refine (Lifts.extend c.scope).bind fun inner => ?_
        exact (bindWith_lifts args iha c.params h inner).bind fun _ => .enter loc (happly c.body inner)
    | _ => exact .refuse base.size _ _
  | ite loc c t e ihc iht ihe =>
    intro h
    rw [evalWith, evalWith]
    refine (ihc h).bind fun v => ?_
    cases v with
    | bool b => cases b with
      | true => exact iht h
      | false => exact ihe h
    | _ => exact .refuse base.size _ _
  | tuple loc a b iha ihb =>
    intro h
    rw [evalWith, evalWith]
    exact (iha h).bind fun x => (ihb h).bind fun y => .pure (Value.pair x y)
  | first loc t ih =>
    intro h
    rw [evalWith, evalWith]
    refine (ih h).bind fun v => ?_
    cases v with
    | pair x y => exact .pure x
    | _ => exact .refuse base.size _ _
  | second loc t ih =>
    intro h
    rw [evalWith, evalWith]
    refine (ih h).bind fun v => ?_
    cases v with
    | pair x y => exact .pure y
    | _ => exact .refuse base.size _ _
  | print loc t ih =>
    intro h
    rw [evalWith, evalWith]
    exact (ih h).bind fun v => (Lifts.print loc base.size v).bind fun _ => .pure v

theorem evalBody_lifts (base : Array Scope) (n : Nat) (body : Term) (h : Nat) :
    Lifts base (Value.shift base.size) (evalBody n body h) (evalBody n body (h + base.size)) := by
  induction n generalizing body h with
  | zero => exact .throw _
  | succ n ih =>
    rw [evalBody, eval_eq]
    exact evalWith_lifts ih body h

end Term

namespace Point

/-- The same point on top of other scopes. -/
def atop (p : Point) (base : Array Scope) : Point :=
  { p with scope := p.scope + base.size, machine := p.machine.atop base }

theorem result_atop {p : Point} (hp : p.machine.store.Ordered) (base : Array Scope) :
    (p.atop base).result = (p.result.1.map (Value.shift base.size), p.final.atop base) ∧ p.final.store.Ordered := by
  obtain ⟨n, t, h, m⟩ := p
  rw [final, atop, result_eq, result_eq]
  exact Term.evalWith_lifts (Term.evalBody_lifts base n) t h m hp

/-- The beginning of a run where there are no scopes but the global one. -/
def initial (output : Output) (limit : Nat) (t : Term) : Point :=
  ⟨limit, t, 0, ⟨(Store.empty.child none).2, output, 0, limit⟩⟩

theorem initial_ordered (output : Output) (limit : Nat) (t : Term) :
    (initial output limit t).machine.store.Ordered := by
  have hempty : Store.empty.Ordered := fun _ _ _ h => nomatch Store.lt_size h
  exact hempty.child (by rintro id ⟨⟩)

end Point

namespace Interpreter

theorem fresh_point_eq (i : Interpreter) (t : Term) :
    i.fresh.point t i.fresh.global =
      (Point.initial i.machine.output i.machine.limit t).atop i.machine.store.scopes := by
  have hchild := Store.alloc_atop Store.empty i.machine.store.scopes ⟨[], none⟩
  rw [Store.atop_empty] at hchild
  have hglobal : i.fresh.global = 0 + i.machine.store.scopes.size := congrArg Prod.fst hchild
  have hstore : i.fresh.machine.store = (Store.empty.child none).2.atop i.machine.store.scopes :=
    congrArg Prod.snd hchild
  have hmachine : i.fresh.machine = ⟨i.fresh.machine.store, i.machine.output, 0, i.machine.limit⟩ := rfl
  rw [point, hmachine, hstore, hglobal]
  rfl

/-- A run is the run without other scopes, put on top of those there are. -/
theorem run_atop {i : Interpreter} {p : Program} (h : ¬p.expression.isAbsent) :
    (i.run p).1 = (Point.initial i.machine.output i.machine.limit p.expression).result.1.map
      (Value.shift i.machine.store.size) ∧
    (i.run p).2.machine = (Point.initial i.machine.output i.machine.limit p.expression).final.atop
      i.machine.store.scopes ∧
    (i.run p).2.global = i.machine.store.size := by
  have hordered := Point.initial_ordered i.machine.output i.machine.limit p.expression
  obtain ⟨hresult, -⟩ := Point.result_atop hordered i.machine.store.scopes
  rw [run_present h, fresh_point_eq, Point.final, hresult]
  exact ⟨rfl, rfl, rfl⟩

end Interpreter

end TreeWalk
