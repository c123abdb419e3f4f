import TreeWalk.Proofs.Eval.Effect

/-!
# Growth

A relation between machines that holds along every single change an evaluation can make holds from
its beginning to its end. One such relation is growth: no scope is lost, scopes only get new
bindings in front, and output is only added.
-/

namespace TreeWalk

/-- The relation holds along every change that an evaluation can make to a machine. -/
structure Stepwise (R : Machine → Machine → Prop) : Prop where
  refl (m : Machine) : R m m
  trans {a b c : Machine} : R a b → R b c → R a c
  capture (m : Machine) (id : ScopeId) : R m { m with store := (m.store.capture id).2 }
  extend (m : Machine) (id : ScopeId) : R m { m with store := (m.store.extend id).2 }
  define (m : Machine) (id : ScopeId) (name : String) (v : Value) :
    R m { m with store := m.store.define id name v }
  write (m : Machine) (bytes : ByteArray) (output : Output) :
    m.output.write? bytes = some output → R m { m with output }
  level (m m' : Machine) : R { m with depth := m.depth + 1 } m' → R m { m' with depth := m'.depth - 1 }

/-- The relation holds from the beginning to the end of a computation. -/
def Along {α : Type} (R : Machine → Machine → Prop) (x : Eval α) : Prop := ∀ m, R m (x.run m).2

namespace Stepwise

variable {R : Machine → Machine → Prop} {α β : Type}

theorem still (hR : Stepwise R) {x : Eval α} (h : ∀ m, (x.run m).2 = m) : Along R x := by
  intro m
  rw [h m]
  exact hR.refl m

theorem bind (hR : Stepwise R) {x : Eval α} {f : α → Eval β} (hx : Along R x) (hf : ∀ a, Along R (f a)) :
    Along R (x >>= f) := by
  intro m
  have hfirst := hx m
  rcases hr : x.run m with ⟨_ | a, m'⟩
  · rw [hr] at hfirst
    rw [Eval.run_bind_error hr]
    exact hfirst
  · rw [hr] at hfirst
    rw [Eval.run_bind_ok hr]
    exact hR.trans hfirst (hf a m')

theorem refuse (hR : Stepwise R) (v : Value) (f : Kind → Fault) :
    Along R (do Eval.fail (f (← Eval.kindOf v)) : Eval α) := by
  refine hR.bind (hR.still fun m => ?_) fun _ => hR.still fun _ => rfl
  rw [Eval.run_kindOf]

theorem print (hR : Stepwise R) (loc : Location) (v : Value) : Along R (Eval.print loc v) := by
  intro m
  rw [Eval.run_print]
  split
  · next output hw => exact hR.write m _ output hw
  · exact hR.refl m

theorem enter (hR : Stepwise R) (loc : Location) {body : Eval α} (hbody : Along R body) :
    Along R (Eval.enter loc body) := by
  intro m
  rw [Eval.run_enter]
  split
  · exact hR.refl m
  · exact hR.level m _ (hbody _)

section

variable {apply : Term → ScopeId → Eval Value}

theorem bindWith (hR : Stepwise R) (args : List Term)
    (hargs : ∀ arg ∈ args, ∀ h, Along R (arg.evalWith apply h)) (params : List String) (h inner : ScopeId) :
    Along R (Term.bindWith apply args params h inner) := by
  induction args generalizing params with
  | nil => exact hR.still fun _ => rfl
  | cons arg args ih =>
    rw [Term.bindWith]
    refine hR.bind (hargs arg List.mem_cons_self h) fun v => ?_
    cases params with
    | nil => exact hR.still fun _ => rfl
    | cons name names =>
      refine hR.bind (fun m => hR.define m inner name v) fun _ => ?_
      exact ih (fun a ha => hargs a (List.mem_cons_of_mem _ ha)) names

theorem evalWith (hR : Stepwise R) (happly : ∀ body h, Along R (apply body h)) (t : Term) :
    ∀ h, Along R (t.evalWith apply h) := by
  induction t using Term.inductionOn with
  | absent => exact fun h => hR.still fun _ => rfl
  | int loc n => exact fun h => hR.still fun _ => rfl
  | str loc s => exact fun h => hR.still fun _ => rfl
  | bool loc b => exact fun h => hR.still fun _ => rfl
  | error loc message fullText => exact fun h => hR.still fun _ => rfl
  | var loc text =>
    intro h
    rw [Term.evalWith]
    refine hR.bind (hR.still fun _ => rfl) fun found => ?_
    cases found <;> exact hR.still fun _ => rfl
  | binary loc lhs op rhs ihl ihr =>
    intro h
    rw [Term.evalWith]
    refine hR.bind (ihl h) fun l => hR.bind (ihr h) fun r => hR.still fun m => ?_
    rw [Eval.run_liftExcept]
  | letIn loc name value next ihv ihn =>
    intro h
    rw [Term.evalWith]
    exact hR.bind (ihv h) fun v => hR.bind (fun m => hR.define m h name.text v) fun _ => ihn h
  | function loc params body _ =>
    intro h
    rw [Term.evalWith]
    exact hR.bind (fun m => hR.capture m h) fun _ => hR.still fun _ => rfl
  | call loc callee args listed ihc iha =>
    intro h
    rw [Term.evalWith]
    refine hR.bind (ihc h) fun v => ?_
    cases v with
    | closure c =>
      dsimp only
      split
      · exact hR.still fun _ => rfl
      · refine hR.bind (fun m => hR.extend m c.scope) fun inner => ?_
        exact hR.bind (hR.bindWith args iha c.params h inner) fun _ => hR.enter loc (happly c.body inner)
    | _ => exact hR.refuse _ _
  | ite loc c t e ihc iht ihe =>
    intro h
    rw [Term.evalWith]
    refine hR.bind (ihc h) fun v => ?_
    cases v with
    | bool b => cases b with
      | true => exact iht h
      | false => exact ihe h
    | _ => exact hR.refuse _ _
  | tuple loc a b iha ihb =>
    intro h
    rw [Term.evalWith]
    exact hR.bind (iha h) fun x => hR.bind (ihb h) fun y => hR.still fun _ => rfl
  | first loc t ih =>
    intro h
    rw [Term.evalWith]
    refine hR.bind (ih h) fun v => ?_
    cases v with
    | pair x y => exact hR.still fun _ => rfl
    | _ => exact hR.refuse _ _
  | second loc t ih =>
    intro h
    rw [Term.evalWith]
    refine hR.bind (ih h) fun v => ?_
    cases v with
    | pair x y => exact hR.still fun _ => rfl
    | _ => exact hR.refuse _ _
  | print loc t ih =>
    intro h
    rw [Term.evalWith]
    exact hR.bind (ih h) fun v => hR.bind (hR.print loc v) fun _ => hR.still fun _ => rfl

end

theorem evalBody (hR : Stepwise R) (n : Nat) (body : Term) (h : ScopeId) : Along R (Term.evalBody n body h) := by
  induction n generalizing body h with
  | zero => exact hR.still fun _ => rfl
  | succ n ih =>
    rw [Term.evalBody, Term.eval_eq]
    exact hR.evalWith ih body h

end Stepwise

namespace Machine

/-- Scopes and output of `m` are in `m'`, with more in front of the bindings and after the output. -/
structure Precedes (m m' : Machine) : Prop where
  scopes : ∀ id scope, m.store.scope? id = some scope → ∃ added, m'.store.scope? id = some (scope.adding added)
  writes : m.output.writes <:+ m'.output.writes

namespace Precedes

variable {a b c m : Machine}

theorem refl (m : Machine) : m.Precedes m := ⟨fun _ _ h => ⟨[], h⟩, List.suffix_refl _⟩

theorem trans (hab : a.Precedes b) (hbc : b.Precedes c) : a.Precedes c := by
  refine ⟨fun id scope h => ?_, hab.writes.trans hbc.writes⟩
  obtain ⟨added, h'⟩ := hab.scopes id scope h
  obtain ⟨added', h''⟩ := hbc.scopes id _ h'
  exact ⟨added' ++ added, h''.trans (congrArg some (scope.adding_adding added added'))⟩

theorem of_adds {s : Store} (hs : m.store.Adds s) : m.Precedes { m with store := s } := by
  refine ⟨fun id scope h => ⟨[], ?_⟩, List.suffix_refl _⟩
  exact (hs.scope?_eq id (Store.lt_size h)).trans h

theorem define (m : Machine) (g : ScopeId) (name : String) (v : Value) :
    m.Precedes { m with store := m.store.define g name v } := by
  refine ⟨fun id scope h => ?_, List.suffix_refl _⟩
  by_cases hg : g = id
  · refine ⟨[(name, v)], ?_⟩
    rw [Store.scope?_define, if_pos hg, h]
    rfl
  · refine ⟨[], ?_⟩
    rw [Store.scope?_define, if_neg hg, h]
    rfl

end Precedes

/-- Evaluation grows a machine and ends at the depth it began at, with the same limit. -/
def Grows (m m' : Machine) : Prop := m.Precedes m' ∧ m'.depth = m.depth ∧ m'.limit = m.limit

theorem grows_stepwise : Stepwise Grows where
  refl m := ⟨.refl m, rfl, rfl⟩
  trans hab hbc := ⟨hab.1.trans hbc.1, hbc.2.1.trans hab.2.1, hbc.2.2.trans hab.2.2⟩
  capture m id := ⟨.of_adds (Store.capture_adds _ id), rfl, rfl⟩
  extend m id := ⟨.of_adds (Store.extend_adds _ id), rfl, rfl⟩
  define m id name v := ⟨.define m id name v, rfl, rfl⟩
  write m bytes output h := by
    have hwrite : m.Effect 0 0 [] { m with output } := .write h
    exact ⟨⟨fun _ _ hs => ⟨[], hs⟩, hwrite.writes⟩, rfl, rfl⟩
  level m m' h := by
    obtain ⟨hprecedes, hdepth, hlimit⟩ := h
    refine ⟨⟨hprecedes.scopes, hprecedes.writes⟩, ?_, hlimit⟩
    change m'.depth - 1 = m.depth
    rw [hdepth]
    rfl

end Machine

namespace Point

theorem grows (p : Point) : p.machine.Grows p.final := by
  obtain ⟨n, t, h, m⟩ := p
  rw [final, result_eq]
  exact Machine.grows_stepwise.evalWith (Machine.grows_stepwise.evalBody n) t h m

theorem grows_of_result {p : Point} {r : Outcome} {m : Machine} (h : p.result = (r, m)) : p.machine.Grows m := by
  have hgrows := p.grows
  rw [final, h] at hgrows
  exact hgrows

end Point

end TreeWalk
