import Mathlib.Logic.Basic
import TreeWalk.Proofs.Eval.Run
import TreeWalk.Proofs.Reference.Evaluate

/-!
# What evaluation upholds

A discipline says which terms may be evaluated in which environments. It has to hold of the parts of a term if
it holds of the term, and of what follows once a `let` has bound its name. Then an evaluation that
starts within it stays within it: every closure that comes up is made of a function literal where that
is allowed, no value is absent, and a failure is raised by a term that is evaluated where it may be.
-/

namespace TreeWalk

def Term.operands : Term → List Term
  | binary _ lhs _ rhs => [lhs, rhs]
  | letIn _ _ value _ => [value]
  | call _ callee args _ => callee :: args
  | ite _ condition thenBranch otherwise => [condition, thenBranch, otherwise]
  | tuple _ a b => [a, b]
  | first _ t => [t]
  | second _ t => [t]
  | print _ t => [t]
  | absent | int .. | str .. | bool .. | var .. | function .. | error .. => []

namespace Reference

/-- Which terms may be evaluated in which environments. The index stands for the body that is being evaluated: it is
the same for all terms that are evaluated in one scope. -/
structure Discipline (ι : Type) where
  ok : ι → Env → Term → Prop
  operand : ∀ {k env t part}, ok k env t → part ∈ t.operands → ok k env part
  next : ∀ {k scope outer loc name value next} (v : Value),
    ok k (scope :: outer) (.letIn loc name value next) → ok k (((name.text, v) :: scope) :: outer) next
  /-- What was allowed before a `let` binds its name is allowed after. -/
  later : ∀ {k scope outer loc name value next t} (v : Value),
    ok k (scope :: outer) (.letIn loc name value next) → ok k (scope :: outer) t →
      ok k (((name.text, v) :: scope) :: outer) t
  body : ∀ {k env loc params body frame}, ok k env (.function loc params body) →
    List.map Prod.fst frame = (params.map Parameter.text).reverse → ∃ k', ok k' (frame :: env) body

/-- Nothing is absent in the value, and each closure, in the value or in what a closure of it sees, is made of a
function literal that the discipline allows there. -/
inductive Fits {ι : Type} (D : Discipline ι) : Value → Prop
  | int (n : Int64) : Fits D (.int n)
  | str (s : ByteArray) : Fits D (.str s)
  | bool (b : Bool) : Fits D (.bool b)
  | pair {a b : Value} (ha : Fits D a) (hb : Fits D b) : Fits D (.pair a b)
  | closure {k : ι} {loc : Location} {params : List Parameter} {body : Term} {env : Env}
    (h : D.ok k env (.function loc params body)) (henv : ∀ bindings ∈ env, ∀ b ∈ bindings, Fits D b.2) :
    Fits D (.closure (params.map Parameter.text) body env)

theorem Fits.kind {ι : Type} {D : Discipline ι} {v : Value} (h : Fits D v) : ∃ k, v.kind? = some k := by
  cases h <;> exact ⟨_, rfl⟩

/-- `e` is what a term fails with in an environment when its parts have been evaluated. -/
inductive Raised (limit : Nat) (env : Env) : Term → Failure → Prop
  | missing : Raised limit env .absent (.fault .missingExpression)
  | parseError (loc : Location) (message fullText : String) :
    Raised limit env (.error loc message fullText) (.fault (.parseError loc message))
  | unbound (loc : Location) {name : String} (h : env.lookup? name = none) :
    Raised limit env (.var loc name) (.fault (.unbound loc name))
  | operator {loc : Location} {op : Operator} {l r : Value} {a b : Kind} {e : Failure} (lhs rhs : Term)
    (hl : l.kind? = some a) (hr : r.kind? = some b) (h : operate loc op l r = .error e) :
    Raised limit env (.binary loc lhs op rhs) e
  | notCallable (loc : Location) (callee : Term) (args : List Term) (listed : Bool) {got : Kind}
    (h : got ≠ .closure) : Raised limit env (.call loc callee args listed) (.fault (.notCallable loc got))
  | arity (loc : Location) (callee : Term) {args : List Term} (listed : Bool) {expected : Nat}
    (h : args.length ≠ expected) :
    Raised limit env (.call loc callee args listed) (.fault (.arity loc expected args.length))
  | exhausted (loc : Location) (callee : Term) (args : List Term) (listed : Bool) :
    Raised limit env (.call loc callee args listed) (.fault (.exhausted loc limit))
  | condition (loc : Location) (c t e : Term) {got : Kind} (h : got ≠ .bool) :
    Raised limit env (.ite loc c t e) (.fault (.condition c.loc got))
  | first (loc : Location) (t : Term) {got : Kind} (h : got ≠ .tuple) :
    Raised limit env (.first loc t) (.fault (.projection loc .first got))
  | second (loc : Location) (t : Term) {got : Kind} (h : got ≠ .tuple) :
    Raised limit env (.second loc t) (.fault (.projection loc .second got))
  | output (loc : Location) (t : Term) (reason : String) :
    Raised limit env (.print loc t) (.output loc reason)

section

variable {ι : Type} (D : Discipline ι)

def Env.Fits (env : Env) : Prop := ∀ bindings ∈ env, ∀ b ∈ bindings, Reference.Fits D b.2

def Discipline.Origin (limit : Nat) (e : Failure) : Prop :=
  ∃ k env t, env.Fits D ∧ D.ok k env t ∧ Raised limit env t e

/-- From one innermost scope to the next, `let`s that the discipline allows have bound their names. -/
inductive Extends (k : ι) (outer : Env) : Bindings → Bindings → Prop
  | refl (scope : Bindings) : Extends k outer scope scope
  | define {scope scope' : Bindings} {loc : Location} {name : Parameter} {value next : Term} {v : Value}
    (h : Extends k outer scope scope') (hlet : D.ok k (scope' :: outer) (.letIn loc name value next))
    (hv : Fits D v) : Extends k outer scope ((name.text, v) :: scope')

end

variable {ι : Type} {D : Discipline ι} {k : ι} {outer : Env} {limit : Nat} {α β : Type}

namespace Extends

variable {scope scope₁ scope₂ : Bindings}

theorem trans (h₁ : Extends D k outer scope scope₁) (h₂ : Extends D k outer scope₁ scope₂) :
    Extends D k outer scope scope₂ := by
  induction h₂ with
  | refl => exact h₁
  | define _ hlet hv ih => exact ih.define hlet hv

theorem ok (h : Extends D k outer scope scope₁) {t : Term} (ht : D.ok k (scope :: outer) t) :
    D.ok k (scope₁ :: outer) t := by
  induction h with
  | refl => exact ht
  | define _ hlet _ ih => exact D.later _ hlet ih

theorem fits (h : Extends D k outer scope scope₁) (hs : Env.Fits D (scope :: outer)) :
    Env.Fits D (scope₁ :: outer) := by
  induction h with
  | refl => exact hs
  | define _ _ hv ih =>
    intro bindings hmem b hb
    cases hmem with
    | head =>
      cases hb with
      | head => exact hv
      | tail _ hrest => exact ih _ List.mem_cons_self b hrest
    | tail _ houter => exact hs bindings (List.mem_cons_of_mem _ houter) b hb

end Extends

/-- From `st`, `x` binds names as the discipline allows, gives a value that satisfies `R` or fails for a reason. -/
structure Upholds (D : Discipline ι) (k : ι) (outer : Env) (limit : Nat) (st : State) (R : α → Prop) (x : Eval α) :
    Prop where
  scope : Extends D k outer st.scope (x.run st).2.scope
  value : ∀ a, (x.run st).1 = .ok a → R a
  failure : ∀ e, (x.run st).1 = .error e → D.Origin limit e

namespace Upholds

variable {st : State} {R : α → Prop} {R' : β → Prop}

theorem pure {a : α} (h : R a) : Upholds D k outer limit st R (Pure.pure a) := by
  refine ⟨.refl _, ?_, by rintro e ⟨⟩⟩
  rintro _ ⟨⟩
  exact h

theorem fail {f : Fault} (h : D.Origin limit (.fault f)) : Upholds D k outer limit st R (Eval.fail f) := by
  refine ⟨.refl _, by rintro a ⟨⟩, ?_⟩
  rintro _ ⟨⟩
  exact h

theorem lift {r : Except Failure α} (hvalue : ∀ a, r = .ok a → R a) (hfailure : ∀ e, r = .error e → D.Origin limit e) :
    Upholds D k outer limit st R (liftExcept r) := by
  refine ⟨?_, ?_, ?_⟩ <;> rw [Eval.run_liftExcept]
  · exact .refl _
  · exact hvalue
  · exact hfailure

theorem bind {x : Eval α} {f : α → Eval β} (hx : Upholds D k outer limit st R x)
    (hf : ∀ a st', R a → Extends D k outer st.scope st'.scope → Upholds D k outer limit st' R' (f a)) :
    Upholds D k outer limit st R' (x >>= f) := by
  obtain ⟨hscope, hvalue, hfailure⟩ := hx
  rcases hr : x.run st with ⟨e | a, st'⟩
  · rw [hr] at hscope hfailure
    refine ⟨?_, ?_, ?_⟩ <;> rw [Eval.run_bind_error hr]
    · exact hscope
    · rintro b ⟨⟩
    · rintro _ ⟨⟩
      exact hfailure e rfl
  · rw [hr] at hscope hvalue
    obtain ⟨hscope', hvalue', hfailure'⟩ := hf a st' (hvalue a rfl) hscope
    refine ⟨?_, ?_, ?_⟩ <;> rw [Eval.run_bind_ok hr]
    · exact hscope.trans hscope'
    · exact hvalue'
    · exact hfailure'

theorem after {x : Eval α} {f : α → Eval β} {a : α} {st' : State} (hx : x.run st = (.ok a, st'))
    (hscope : Extends D k outer st.scope st'.scope) (hf : Upholds D k outer limit st' R' (f a)) :
    Upholds D k outer limit st R' (x >>= f) := by
  refine ⟨?_, ?_, ?_⟩ <;> rw [Eval.run_bind_ok hx]
  · exact hscope.trans hf.scope
  · exact hf.value
  · exact hf.failure

theorem refuse {v : Value} (hv : Fits D v) {f : Kind → Fault}
    (h : ∀ got, v.kind? = some got → D.Origin limit (.fault (f got))) :
    Upholds D k outer limit st R (do Eval.fail (f (← Eval.kindOf v))) := by
  obtain ⟨got, hgot⟩ := hv.kind
  have hkind : Upholds D k outer limit st (fun found => v.kind? = some found) (Eval.kindOf v) := by
    refine ⟨?_, ?_, ?_⟩ <;> rw [Eval.run_kindOf, hgot]
    · exact .refl _
    · rintro _ ⟨⟩
      rfl
    · rintro e ⟨⟩
  exact hkind.bind fun found _ hfound _ => .fail (h found hfound)

theorem print {loc : Location} {v : Value} (h : ∀ reason, D.Origin limit (.output loc reason)) :
    Upholds D k outer limit st (fun _ => True) (Eval.print loc v) := by
  refine ⟨?_, fun _ _ => trivial, ?_⟩ <;> rw [Eval.run_print]
  · split <;> exact .refl _
  · intro e he
    split at he
    · cases he
    · cases he
      exact h _

end Upholds

/-- Bodies that may be evaluated in a frame give values that fit, or fail for a reason. -/
def Entry.Upholds (entry : Entry) (D : Discipline ι) (limit : Nat) : Prop :=
  ∀ k loc body frame env output, D.ok k (frame :: env) body → Env.Fits D (frame :: env) →
    (∀ v, (entry loc body frame env output).1 = .ok v → Fits D v) ∧
    ∀ e, (entry loc body frame env output).1 = .error e → e = .fault (.exhausted loc limit) ∨ D.Origin limit e

/-- The state is one in which the term may be evaluated. -/
structure Admits (D : Discipline ι) (k : ι) (outer : Env) (st : State) (t : Term) : Prop where
  fits : Env.Fits D (st.scope :: outer)
  ok : D.ok k (st.scope :: outer) t

namespace Admits

variable {st st' : State} {t part : Term}

theorem operand (h : Admits D k outer st t) (hpart : part ∈ t.operands) : Admits D k outer st part :=
  ⟨h.fits, D.operand h.ok hpart⟩

theorem extend (h : Admits D k outer st t) (hscope : Extends D k outer st.scope st'.scope) :
    Admits D k outer st' t := ⟨hscope.fits h.fits, hscope.ok h.ok⟩

theorem origin (h : Admits D k outer st t) {e : Failure} (he : Raised limit (st.scope :: outer) t e) :
    D.Origin limit e := ⟨k, _, t, h.fits, h.ok, he⟩

theorem fits_of_lookup? (h : Admits D k outer st t) {name : String} {v : Value}
    (hv : Env.lookup? (st.scope :: outer) name = some v) : Fits D v := by
  obtain ⟨bindings, hbindings, hmem⟩ := Env.mem_of_lookup? hv
  exact h.fits bindings hbindings (name, v) hmem

end Admits

theorem fits_of_operate {loc : Location} {op : Operator} {l r v : Value} (h : operate loc op l r = .ok v) :
    Fits D v := by
  unfold operate at h
  split at h <;> (try split at h) <;> cases h <;> constructor

theorem operate_error {loc : Location} {op : Operator} {l r : Value} {a b : Kind} {e : Failure}
    (hl : l.kind? = some a) (hr : r.kind? = some b) (h : operate loc op l r = .error e) :
    (∃ name, op = .unknown name ∧ e = .fault (.unknownOperator loc name)) ∨
    (op = .div ∧ e = .fault (.byZero loc .quotient)) ∨ (op = .rem ∧ e = .fault (.byZero loc .remainder)) ∨
    e = .fault (.operands loc op a b) := by
  unfold operate at h
  split at h <;> (try split at h) <;> cases h
  · exact .inl ⟨_, rfl, rfl⟩
  · exact .inr (.inl ⟨rfl, rfl⟩)
  · exact .inr (.inr (.inl ⟨rfl, rfl⟩))
  · next hl' hr' =>
    cases hl'.symm.trans hl
    cases hr'.symm.trans hr
    exact .inr (.inr (.inr rfl))
  · next hnone => exact absurd hr (hnone a b hl)

/-- Evaluation of the term upholds the discipline wherever it may be evaluated. -/
def Upheld (D : Discipline ι) (limit : Nat) (entry : Entry) (t : Term) : Prop :=
  ∀ k outer st, Admits D k outer st t → Upholds D k outer limit st (Fits D) (evalWith entry outer t)

theorem Upheld.bind {entry : Entry} {st : State} {t whole : Term} {R : α → Prop} {f : Value → Eval α}
    (ht : Upheld D limit entry t) (hwhole : Admits D k outer st whole) (hpart : t ∈ whole.operands)
    (hf : ∀ v st', Fits D v → Admits D k outer st' whole → Upholds D k outer limit st' R (f v)) :
    Upholds D k outer limit st R (evalWith entry outer t >>= f) :=
  (ht k outer st (hwhole.operand hpart)).bind fun v st' hv hscope => hf v st' hv (hwhole.extend hscope)

section

variable {entry : Entry}

theorem evalArgs_upholds (args : List Term) (hargs : ∀ arg ∈ args, Upheld D limit entry arg) {st : State}
    {whole : Term} (hwhole : Admits D k outer st whole) (hparts : ∀ arg ∈ args, arg ∈ whole.operands) :
    Upholds D k outer limit st (fun values => values.length = args.length ∧ ∀ v ∈ values, Fits D v)
      (evalArgs entry outer args) := by
  induction args generalizing st with
  | nil =>
    rw [evalArgs]
    exact .pure ⟨rfl, fun _ h => nomatch h⟩
  | cons arg args ih =>
    rw [evalArgs]
    refine (hargs arg List.mem_cons_self).bind hwhole (hparts arg List.mem_cons_self) fun v st₁ hv hst₁ => ?_
    refine (ih (fun a ha => hargs a (List.mem_cons_of_mem _ ha)) hst₁
      fun a ha => hparts a (List.mem_cons_of_mem _ ha)).bind fun values st₂ hvalues _ => .pure ⟨?_, ?_⟩
    · rw [List.length_cons, List.length_cons, hvalues.1]
    · intro w hw
      cases hw with
      | head => exact hv
      | tail _ hrest => exact hvalues.2 w hrest

theorem call_upheld (hentry : entry.Upholds D limit) (loc : Location) (callee : Term) (args : List Term)
    (listed : Bool) (hcallee : Upheld D limit entry callee) (hargs : ∀ arg ∈ args, Upheld D limit entry arg) :
    Upheld D limit entry (.call loc callee args listed) := by
  intro k outer st hst
  rw [evalWith]
  refine hcallee.bind hst List.mem_cons_self fun v st₁ hv hst₁ => ?_
  cases hv with
  | @closure k' loc' params body env hfunction henv =>
    dsimp only
    split
    · next harity => exact .fail (hst₁.origin (.arity loc callee listed harity))
    · next harity =>
      refine (evalArgs_upholds args hargs hst₁ fun a ha => List.mem_cons_of_mem _ ha).bind
        fun values st₂ hvalues hscope => ?_
      have hlength : (params.map Parameter.text).length = values.length :=
        (not_ne_iff.mp harity).symm.trans hvalues.1.symm
      have hnames : List.map Prod.fst ((params.map Parameter.text).zip values).reverse =
          (params.map Parameter.text).reverse := by
        rw [List.map_reverse, List.map_fst_zip (Nat.le_of_eq hlength)]
      obtain ⟨k₁, hbody⟩ := D.body hfunction hnames
      have hfits : Env.Fits D (((params.map Parameter.text).zip values).reverse :: env) := by
        intro bindings hmem b hb
        cases hmem with
        | head => exact hvalues.2 b.2 (List.of_mem_zip (List.mem_reverse.mp hb)).2
        | tail _ houter => exact henv bindings houter b hb
      obtain ⟨hvalue, hfailure⟩ := hentry k₁ loc body _ env st₂.output hbody hfits
      refine ⟨?_, ?_, ?_⟩ <;> rw [Eval.run_elsewhere]
      · exact .refl _
      · exact hvalue
      · intro e he
        rcases hfailure e he with rfl | horigin
        · exact (hst₁.extend hscope).origin (.exhausted loc callee args listed)
        · exact horigin
  | _ => exact .refuse (by constructor <;> assumption) fun got hgot =>
      hst₁.origin (.notCallable loc callee args listed (by rintro rfl; cases hgot))

theorem evalWith_upheld (hentry : entry.Upholds D limit) (t : Term) : Upheld D limit entry t := by
  induction t using Term.inductionOn with
  | absent => exact fun k outer st hst => .fail (hst.origin .missing)
  | int loc n => exact fun k outer st _ => .pure (.int n)
  | str loc s => exact fun k outer st _ => .pure (.str s)
  | bool loc b => exact fun k outer st _ => .pure (.bool b)
  | error loc message fullText => exact fun k outer st hst => .fail (hst.origin (.parseError loc message fullText))
  | var loc name =>
    intro k outer st hst
    rw [evalWith]
    refine .after rfl (.refl _) ?_
    cases hfound : Env.lookup? (st.scope :: outer) name with
    | none => exact .fail (hst.origin (.unbound loc hfound))
    | some v => exact .pure (hst.fits_of_lookup? hfound)
  | binary loc lhs op rhs ihl ihr =>
    intro k outer st hst
    rw [evalWith]
    refine ihl.bind hst (by simp [Term.operands]) fun l st₁ hl hst₁ => ?_
    refine ihr.bind hst₁ (by simp [Term.operands]) fun r st₂ hr hst₂ => ?_
    obtain ⟨a, ha⟩ := hl.kind
    obtain ⟨b, hb⟩ := hr.kind
    exact .lift (fun v hv => fits_of_operate hv) fun e he => hst₂.origin (.operator lhs rhs ha hb he)
  | letIn loc name value next ihv ihn =>
    intro k outer st hst
    rw [evalWith]
    refine ihv.bind hst (by simp [Term.operands]) fun v st₁ hv hst₁ => ?_
    have hdefine : Extends D k outer st₁.scope ((name.text, v) :: st₁.scope) := (Extends.refl _).define hst₁.ok hv
    exact .after rfl hdefine (ihn k outer _ ⟨hdefine.fits hst₁.fits, D.next v hst₁.ok⟩)
  | function loc params body _ =>
    intro k outer st hst
    rw [evalWith]
    exact .after rfl (.refl _) (.pure (.closure hst.ok hst.fits))
  | call loc callee args listed ihc iha => exact call_upheld hentry loc callee args listed ihc iha
  | ite loc c t e ihc iht ihe =>
    intro k outer st hst
    rw [evalWith]
    refine ihc.bind hst (by simp [Term.operands]) fun v st₁ hv hst₁ => ?_
    cases hv with
    | bool b => cases b with
      | true => exact iht k outer st₁ (hst₁.operand (by simp [Term.operands]))
      | false => exact ihe k outer st₁ (hst₁.operand (by simp [Term.operands]))
    | _ => exact .refuse (by constructor <;> assumption) fun got hgot =>
        hst₁.origin (.condition loc c t e (by rintro rfl; cases hgot))
  | tuple loc a b iha ihb =>
    intro k outer st hst
    rw [evalWith]
    refine iha.bind hst (by simp [Term.operands]) fun x st₁ hx hst₁ => ?_
    exact ihb.bind hst₁ (by simp [Term.operands]) fun y st₂ hy _ => .pure (.pair hx hy)
  | first loc t ih =>
    intro k outer st hst
    rw [evalWith]
    refine ih.bind hst (by simp [Term.operands]) fun v st₁ hv hst₁ => ?_
    cases hv with
    | pair ha hb => exact .pure ha
    | _ => exact .refuse (by constructor <;> assumption) fun got hgot =>
        hst₁.origin (.first loc t (by rintro rfl; cases hgot))
  | second loc t ih =>
    intro k outer st hst
    rw [evalWith]
    refine ih.bind hst (by simp [Term.operands]) fun v st₁ hv hst₁ => ?_
    cases hv with
    | pair ha hb => exact .pure hb
    | _ => exact .refuse (by constructor <;> assumption) fun got hgot =>
        hst₁.origin (.second loc t (by rintro rfl; cases hgot))
  | print loc t ih =>
    intro k outer st hst
    rw [evalWith]
    refine ih.bind hst (by simp [Term.operands]) fun v st₁ hv hst₁ => ?_
    exact (Upholds.print fun reason => hst₁.origin (.output loc t reason)).bind fun _ st₂ _ _ => .pure hv

end

theorem enter_upholds (D : Discipline ι) (limit levels : Nat) : Entry.Upholds (enter limit levels) D limit := by
  induction levels with
  | zero =>
    intro k loc body frame env output _ _
    refine ⟨by rintro v ⟨⟩, ?_⟩
    rintro e ⟨⟩
    exact .inl rfl
  | succ levels ih =>
    intro k loc body frame env output hbody hfits
    have hupholds := evalWith_upheld ih body k env ⟨frame, output⟩ ⟨hfits, hbody⟩
    rw [enter_succ]
    exact ⟨hupholds.value, fun e he => .inr (hupholds.failure e he)⟩

/-- An evaluation that starts within a discipline stays within it. -/
theorem evaluate_upholds {scope : Bindings} {t : Term} (hfits : Env.Fits D (scope :: outer))
    (hok : D.ok k (scope :: outer) t) (limit depth : Nat) (output : Output) :
    (∀ v, (evaluate limit depth t (scope :: outer) output).1 = .ok v → Fits D v) ∧
    (∀ e, (evaluate limit depth t (scope :: outer) output).1 = .error e → D.Origin limit e) ∧
    Env.Fits D (evaluate limit depth t (scope :: outer) output).2.2 := by
  have hupholds := evalWith_upheld (enter_upholds D limit (limit - depth)) t k outer ⟨scope, output⟩ ⟨hfits, hok⟩
  exact ⟨hupholds.value, hupholds.failure, hupholds.scope.fits hfits⟩

end Reference

end TreeWalk
