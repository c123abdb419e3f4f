import TreeWalk.Proofs.Eval.Refusal
import TreeWalk.Proofs.Scope.Locations

/-!
# Evaluation without locations

An evaluation never looks at a location. It passes them on into closures and failures, so without them it takes the
same course, on a store without them, and comes to the same result without them.
-/

namespace TreeWalk

def Fault.unlocated : Fault → Fault
  | .parseError _ message => .parseError .unknown message
  | .unknownOperator _ name => .unknownOperator .unknown name
  | .unbound _ name => .unbound .unknown name
  | .notCallable _ got => .notCallable .unknown got
  | .arity _ expected got => .arity .unknown expected got
  | .condition _ got => .condition .unknown got
  | .projection _ side got => .projection .unknown side got
  | .operands _ op left right => .operands .unknown op left right
  | .byZero _ division => .byZero .unknown division
  | .exhausted _ limit => .exhausted .unknown limit
  | f => f

theorem Fault.eq_of_unlocated {f f' : Fault} (h : f.unlocated = f'.unlocated) :
    f.kind = f'.kind ∧ f.message = f'.message ∧ f.operands? = f'.operands? := by
  have hdrop (f : Fault) : f.unlocated.kind = f.kind ∧ f.unlocated.message = f.message ∧
      f.unlocated.operands? = f.operands? := by
    cases f with
    | byZero loc division => cases division <;> exact ⟨rfl, rfl, rfl⟩
    | _ => exact ⟨rfl, rfl, rfl⟩
  obtain ⟨hkind, hmessage, hoperands⟩ := hdrop f
  obtain ⟨hkind', hmessage', hoperands'⟩ := hdrop f'
  rw [← hkind, ← hmessage, ← hoperands, h]
  exact ⟨hkind', hmessage', hoperands'⟩

def Failure.unlocated : Failure → Failure
  | .fault f => .fault f.unlocated
  | .output _ reason => .output .unknown reason
  | e => e

def Machine.unlocated (m : Machine) : Machine := { m with store := m.store.unlocated }

/-- A result without locations; `f` drops them from what was computed. -/
def unlocatedResult {α : Type} (f : α → α) : Except Failure α → Except Failure α
  | .ok a => .ok (f a)
  | .error e => .error e.unlocated

theorem operate_unlocated (loc : Location) (op : Operator) (l r : Value) :
    operate .unknown op l.unlocated r.unlocated = unlocatedResult Value.unlocated (operate loc op l r) := by
  cases l with
  | int a =>
    cases r with
    | int b =>
      cases op with
      | div | rem =>
        by_cases hb : b = 0 <;>
          simp [operate, Value.unlocated, hb, unlocatedResult, Failure.unlocated, Fault.unlocated]
      | _ => rfl
    | _ => cases op <;> rfl
  | _ => cases r <;> cases op <;> rfl

def Unrefused {α : Type} (r : Except Failure α × Machine) : Prop :=
  r.2.output.room = none ∧ ∀ loc reason, r.1 ≠ .error (.output loc reason)

/-- Without locations `y` does what `x` does, and comes to what `f` makes of the same answer. Neither is ever refused a
write by an output that takes every write. -/
structure Erases {α : Type} (f : α → α) (x y : Eval α) : Prop where
  run (m : Machine) : y.run m.unlocated = (unlocatedResult f (x.run m).1, (x.run m).2.unlocated)
  accepted (m : Machine) : m.output.room = none → Unrefused (x.run m)

namespace Erases

variable {α β : Type} {f : α → α} {g : β → β}

theorem of_quiet {x y : Eval α} (houtput : ∀ m, (x.run m).2.output = m.output)
    (hresult : ∀ m loc reason, (x.run m).1 ≠ .error (.output loc reason))
    (hrun : ∀ m, y.run m.unlocated = (unlocatedResult f (x.run m).1, (x.run m).2.unlocated)) : Erases f x y := by
  refine ⟨hrun, fun m hroom => ⟨?_, hresult m⟩⟩
  rw [houtput m, hroom]

theorem pure (a : α) : Erases f (Pure.pure a) (Pure.pure (f a)) :=
  of_quiet (fun _ => rfl) (by rintro _ _ _ ⟨⟩) fun _ => rfl

theorem fail (e : Fault) : Erases f (Eval.fail e) (Eval.fail e.unlocated) :=
  of_quiet (fun _ => rfl) (by rintro _ _ _ ⟨⟩) fun _ => rfl

theorem bind {x y : Eval α} {k k' : α → Eval β} (hx : Erases f x y) (hk : ∀ a, Erases g (k a) (k' (f a))) :
    Erases g (x >>= k) (y >>= k') := by
  refine ⟨fun m => ?_, fun m hroom => ?_⟩
  · have hrun := hx.run m
    rcases hr : x.run m with ⟨e | a, m₁⟩
    · rw [hr] at hrun
      have hfails : y.run m.unlocated = (.error e.unlocated, m₁.unlocated) := hrun
      rw [Eval.run_bind_error hfails, Eval.run_bind_error hr]
      rfl
    · rw [hr] at hrun
      have hgives : y.run m.unlocated = (.ok (f a), m₁.unlocated) := hrun
      rw [Eval.run_bind_ok hgives, Eval.run_bind_ok hr]
      exact (hk a).run m₁
  · have haccepted := hx.accepted m hroom
    rcases hr : x.run m with ⟨e | a, m₁⟩
    · rw [hr] at haccepted
      rw [Eval.run_bind_error hr]
      refine ⟨haccepted.1, ?_⟩
      rintro loc reason ⟨⟩
      exact haccepted.2 loc reason rfl
    · rw [hr] at haccepted
      rw [Eval.run_bind_ok hr]
      exact (hk a).accepted m₁ haccepted.1

theorem refuse (v : Value) {e e' : Kind → Fault} (he : ∀ k, (e k).unlocated = e' k) :
    Erases f (do Eval.fail (e (← Eval.kindOf v)) : Eval α) (do Eval.fail (e' (← Eval.kindOf v.unlocated))) := by
  refine of_quiet (fun m => ?_) (fun m loc reason => ?_) fun m => ?_
  · rw [Eval.run_bind, Eval.run_kindOf]
    cases v.kind? <;> rfl
  · rw [Eval.run_bind, Eval.run_kindOf]
    cases v.kind? <;> rintro ⟨⟩
  · rw [Eval.run_bind, Eval.run_bind, Eval.run_kindOf, Eval.run_kindOf, Value.kind?_unlocated]
    cases v.kind? with
    | none => rfl
    | some k => exact congrArg (fun f => (Except.error (Failure.fault f), m.unlocated)) (he k).symm

theorem lookup? (h : ScopeId) (name : String) :
    Erases (Option.map Value.unlocated) (Eval.lookup? h name) (Eval.lookup? h name) := by
  refine of_quiet (fun _ => rfl) (by rintro _ _ _ ⟨⟩) fun m => ?_
  have henv : m.unlocated.store.env h = _ := Store.env_unlocated m.store h
  rw [Eval.run_lookup?, Eval.run_lookup?, henv]
  exact congrArg (fun v => (Except.ok v, m.unlocated)) (Env.lookup?_map Value.unlocated (m.store.env h) name)

theorem define (h : ScopeId) (name : String) (v : Value) :
    Erases id (Eval.define h name v) (Eval.define h name v.unlocated) := by
  refine of_quiet (fun _ => rfl) (by rintro _ _ _ ⟨⟩) fun m => ?_
  have hdefine : m.unlocated.store.define h name v.unlocated = _ := Store.define_unlocated m.store h name v
  rw [Eval.run_define, Eval.run_define, hdefine]
  rfl

theorem capture (h : ScopeId) : Erases id (Eval.onStore (·.capture h)) (Eval.onStore (·.capture h)) := by
  refine of_quiet (fun _ => rfl) (by rintro _ _ _ ⟨⟩) fun m => ?_
  have hcapture : m.unlocated.store.capture h = _ := Store.capture_unlocated m.store h
  rw [Eval.run_onStore, Eval.run_onStore, hcapture]
  rfl

theorem extend (h : ScopeId) : Erases id (Eval.onStore (·.extend h)) (Eval.onStore (·.extend h)) := by
  refine of_quiet (fun _ => rfl) (by rintro _ _ _ ⟨⟩) fun m => ?_
  have hextend : m.unlocated.store.extend h = _ := Store.extend_unlocated m.store h
  rw [Eval.run_onStore, Eval.run_onStore, hextend]
  rfl

theorem operate (loc : Location) (op : Operator) (l r : Value) :
    Erases Value.unlocated (liftExcept (TreeWalk.operate loc op l r))
      (liftExcept (TreeWalk.operate .unknown op l.unlocated r.unlocated)) := by
  refine of_quiet (fun m => ?_) (fun m place reason => ?_) fun m => ?_
  · rw [Eval.run_liftExcept]
  · rw [Eval.run_liftExcept]
    intro h
    rcases operate_failure h with ⟨f, hf⟩ | habsent
    · cases hf
    · cases habsent
  · rw [Eval.run_liftExcept, Eval.run_liftExcept, operate_unlocated loc]

theorem print (loc : Location) (v : Value) : Erases id (Eval.print loc v) (Eval.print .unknown v.unlocated) := by
  refine ⟨fun m => ?_, fun m hroom => ?_⟩
  · have houtput : m.unlocated.output = m.output := rfl
    rw [Eval.run_print, Eval.run_print, Value.format_unlocated, houtput]
    cases m.output.write? (v.format ++ "\n".toUTF8) <;> rfl
  · rw [Eval.run_print, Output.write?_of_room hroom]
    exact ⟨hroom, by rintro _ _ ⟨⟩⟩

theorem enter (loc : Location) {x y : Eval α} (hx : Erases f x y) :
    Erases f (Eval.enter loc x) (Eval.enter .unknown y) := by
  refine ⟨fun m => ?_, fun m hroom => ?_⟩
  · by_cases hdepth : m.depth < m.limit
    · have hdepth' : m.unlocated.depth < m.unlocated.limit := hdepth
      have hrun : y.run { m.unlocated with depth := m.unlocated.depth + 1 } = _ :=
        hx.run { m with depth := m.depth + 1 }
      rw [Eval.run_enter_of_lt loc x hdepth, Eval.run_enter_of_lt _ y hdepth', hrun]
      rfl
    · have hstop : m.limit ≤ m.depth := Nat.not_lt.mp hdepth
      have hstop' : m.unlocated.limit ≤ m.unlocated.depth := hstop
      rw [Eval.run_enter, Eval.run_enter, if_pos hstop, if_pos hstop']
      rfl
  · rw [Eval.run_enter]
    split
    · exact ⟨hroom, by rintro _ _ ⟨⟩⟩
    · exact hx.accepted { m with depth := m.depth + 1 } hroom

end Erases

namespace Term

variable {apply : Term → ScopeId → Eval Value}

theorem bindWith_erases (args : List Term)
    (hargs : ∀ arg ∈ args, ∀ h, Erases Value.unlocated (arg.evalWith apply h) (arg.unlocated.evalWith apply h))
    (params : List String) (h inner : ScopeId) :
    Erases id (bindWith apply args params h inner) (bindWith apply (unlocatedEach args) params h inner) := by
  induction args generalizing params with
  | nil => exact .pure ()
  | cons arg args ih =>
    rw [unlocatedEach, bindWith, bindWith]
    refine (hargs arg List.mem_cons_self h).bind fun v => ?_
    cases params with
    | nil => exact .of_quiet (fun _ => rfl) (by rintro _ _ _ ⟨⟩) fun _ => rfl
    | cons name names =>
      refine (Erases.define inner name v).bind fun _ => ?_
      exact ih (fun a ha => hargs a (List.mem_cons_of_mem _ ha)) names

theorem evalWith_erases (happly : ∀ body h, Erases Value.unlocated (apply body h) (apply body.unlocated h)) (t : Term) :
    ∀ h, Erases Value.unlocated (t.evalWith apply h) (t.unlocated.evalWith apply h) := by
  induction t using Term.inductionOn with
  | absent => exact fun h => .fail _
  | int loc n => exact fun h => .pure _
  | str loc s => exact fun h => .pure _
  | bool loc b => exact fun h => .pure _
  | error loc message fullText => exact fun h => .fail _
  | var loc text =>
    intro h
    rw [unlocated, evalWith, evalWith]
    refine (Erases.lookup? h text).bind fun found => ?_
    cases found with
    | none => exact .fail _
    | some v => exact .pure v
  | binary loc lhs op rhs ihl ihr =>
    intro h
    rw [unlocated, evalWith, evalWith]
    exact (ihl h).bind fun l => (ihr h).bind fun r => Erases.operate loc op l r
  | letIn loc name value next ihv ihn =>
    intro h
    rw [unlocated, evalWith, evalWith]
    exact (ihv h).bind fun v => (Erases.define h name.text v).bind fun _ => ihn h
  | function loc params body _ =>
    intro h
    rw [unlocated, evalWith, evalWith]
    refine (Erases.capture h).bind fun captured => ?_
    have hparams : (params.map Parameter.bare).map Parameter.text = params.map Parameter.text := by
      rw [List.map_map]
      rfl
    rw [hparams]
    exact .pure (Value.closure ⟨params.map Parameter.text, body, captured⟩)
  | call loc callee args listed ihc iha =>
    intro h
    rw [unlocated, evalWith, evalWith]
    refine (ihc h).bind fun v => ?_
    cases v with
    | closure c =>
      have harity : c.unlocated.arity = c.arity := rfl
      have hlength : (unlocatedEach args).length = args.length := by rw [unlocatedEach_eq, List.length_map]
      simp only [Value.unlocated, harity, hlength]
      split
      · exact .fail _
      · refine (Erases.extend c.scope).bind fun inner => ?_
        exact (bindWith_erases args iha c.params h inner).bind fun _ => .enter loc (happly c.body inner)
    | _ => exact .refuse _ fun _ => rfl
  | ite loc c t e ihc iht ihe =>
    intro h
    rw [unlocated, evalWith, evalWith]
    refine (ihc h).bind fun v => ?_
    cases v with
    | bool b => cases b with
      | true => exact iht h
      | false => exact ihe h
    | _ =>
      rw [loc_unlocated]
      exact .refuse _ fun _ => rfl
  | tuple loc a b iha ihb =>
    intro h
    rw [unlocated, evalWith, evalWith]
    exact (iha h).bind fun x => (ihb h).bind fun y => .pure (Value.pair x y)
  | first loc t ih =>
    intro h
    rw [unlocated, evalWith, evalWith]
    refine (ih h).bind fun v => ?_
    cases v with
    | pair x y => exact .pure x
    | _ => exact .refuse _ fun _ => rfl
  | second loc t ih =>
    intro h
    rw [unlocated, evalWith, evalWith]
    refine (ih h).bind fun v => ?_
    cases v with
    | pair x y => exact .pure y
    | _ => exact .refuse _ fun _ => rfl
  | print loc t ih =>
    intro h
    rw [unlocated, evalWith, evalWith]
    exact (ih h).bind fun v => (Erases.print loc v).bind fun _ => .pure v

theorem evalBody_erases (n : Nat) (body : Term) (h : ScopeId) :
    Erases Value.unlocated (evalBody n body h) (evalBody n body.unlocated h) := by
  induction n generalizing body h with
  | zero => exact .of_quiet (fun _ => rfl) (by rintro _ _ _ ⟨⟩) fun _ => rfl
  | succ n ih =>
    rw [evalBody, eval_eq]
    exact evalWith_erases ih body h

theorem eval_erases (n : Nat) (t : Term) (h : ScopeId) :
    Erases Value.unlocated (t.eval n h) (t.unlocated.eval n h) := by
  rw [eval_eq]
  exact evalWith_erases (evalBody_erases n) t h

end Term

end TreeWalk
