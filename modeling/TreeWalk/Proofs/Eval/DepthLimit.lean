import Mathlib.Data.Nat.Find
import Mathlib.Data.Set.Defs
import TreeWalk.Proofs.Eval.Growth
import TreeWalk.Proofs.Eval.Locality

/-!
# The depth limit

Two evaluations of a term from the same machine, under a limit and under a higher one, go the same
way until the lower limit stops the first. If it never does, they end alike; if it does, the second
goes on from where the first stopped.
-/

namespace TreeWalk

/-- The evaluation was stopped by the depth limit. -/
def Exhausted {α : Type} (r : Except Failure α) : Prop := ∃ loc d, r = .error (.fault (.exhausted loc d))

theorem exhausted_iff {α : Type} (r : Except Failure α) :
    Exhausted r ↔ ∃ f, r = .error (.fault f) ∧ f.kind = .stackExhausted := by
  constructor
  · rintro ⟨loc, d, rfl⟩
    exact ⟨_, rfl, rfl⟩
  · rintro ⟨f, rfl, hf⟩
    cases f with
    | exhausted loc d => exact ⟨loc, d, rfl⟩
    | _ => cases hf

instance {α : Type} : (r : Except Failure α) → Decidable (Exhausted r)
  | .error (.fault f) => decidable_of_iff (f.kind = .stackExhausted) (by simp [exhausted_iff])
  | .error (.output ..) | .error .absentValue | .error .absentParameter | .error .unfinished | .ok _ =>
    isFalse (by rintro ⟨loc, d, ⟨⟩⟩)

def Machine.withLimit (m : Machine) (d : Nat) : Machine := { m with limit := d }

/-- Run from `m` with the limit `d'` instead of its own, `x'` ends as `x` does, or it outlives `x`. -/
structure Outlives {α : Type} (d' : Nat) (m : Machine) (x x' : Eval α) : Prop where
  same : ¬Exhausted (x.run m).1 → x'.run (m.withLimit d') = ((x.run m).1, (x.run m).2.withLimit d')
  further : Exhausted (x.run m).1 → (x.run m).2.Precedes (x'.run (m.withLimit d')).2

namespace Outlives

variable {α β : Type} {d' : Nat} {m : Machine}

theorem of_eq {x : Eval α} (h : x.run (m.withLimit d') = ((x.run m).1, (x.run m).2.withLimit d')) :
    Outlives d' m x x := by
  refine ⟨fun _ => h, fun _ => ?_⟩
  rw [h]
  exact ⟨fun _ _ hs => ⟨[], hs⟩, List.suffix_refl _⟩

theorem bind {x x' : Eval α} {f f' : α → Eval β} (hx : Outlives d' m x x') (hgrows : Along Machine.Grows x)
    (hf : ∀ a m₁, x.run m = (.ok a, m₁) → m.Grows m₁ → Outlives d' m₁ (f a) (f' a))
    (hf' : ∀ a, Along Machine.Grows (f' a)) : Outlives d' m (x >>= f) (x' >>= f') := by
  have hstep := hgrows m
  rcases hr : x.run m with ⟨e | a, m₁⟩
  · have hrun : (x >>= f).run m = (.error e, m₁) := Eval.run_bind_error hr
    constructor
    · intro hlives
      rw [hrun] at hlives ⊢
      have hsame := hx.same (by rw [hr]; rintro ⟨loc, d, ⟨⟩⟩; exact hlives ⟨loc, d, rfl⟩)
      rw [hr] at hsame
      exact Eval.run_bind_error hsame
    · intro hdead
      rw [hrun] at hdead ⊢
      have hfurther := hx.further (by rw [hr]; obtain ⟨loc, d, ⟨⟩⟩ := hdead; exact ⟨loc, d, rfl⟩)
      rw [hr] at hfurther
      -- the second evaluation goes on, and only grows what it has
      rcases hr' : x'.run (m.withLimit d') with ⟨e' | a', m₁'⟩
      · rw [hr'] at hfurther
        rw [Eval.run_bind_error hr']
        exact hfurther
      · rw [hr'] at hfurther
        rw [Eval.run_bind_ok hr']
        exact hfurther.trans (hf' a' m₁').1
  · have hsame := hx.same (by rw [hr]; rintro ⟨loc, d, ⟨⟩⟩)
    rw [hr] at hsame hstep
    have hrest := hf a m₁ hr hstep
    constructor
    · rw [Eval.run_bind_ok hr, Eval.run_bind_ok hsame]
      exact hrest.same
    · rw [Eval.run_bind_ok hr, Eval.run_bind_ok hsame]
      exact hrest.further

theorem refuse (v : Value) (f : Kind → Fault) :
    Outlives d' m (do Eval.fail (f (← Eval.kindOf v)) : Eval α) (do Eval.fail (f (← Eval.kindOf v))) := by
  apply of_eq
  rw [Eval.run_bind, Eval.run_bind, Eval.run_kindOf, Eval.run_kindOf]
  cases v.kind? <;> rfl

theorem print (loc : Location) (v : Value) : Outlives d' m (Eval.print loc v) (Eval.print loc v) := by
  apply of_eq
  rw [Eval.run_print, Eval.run_print]
  have hout : (m.withLimit d').output = m.output := rfl
  rw [hout]
  cases m.output.write? (v.format ++ "\n".toUTF8) <;> rfl

end Outlives

/-- The levels left under the limit of `m`, and under the limit `d'`. -/
structure Levels (n n' d' : Nat) (m : Machine) : Prop where
  low : n = m.limit - m.depth
  high : n' = d' - m.depth
  limit_le : m.limit ≤ d'

theorem Levels.of_grows {n n' d' : Nat} {m m₁ : Machine} (h : Levels n n' d' m) (hg : m.Grows m₁) :
    Levels n n' d' m₁ := by
  obtain ⟨_, hdepth, hlimit⟩ := hg
  exact ⟨by rw [hdepth, hlimit]; exact h.low, by rw [hdepth]; exact h.high, by rw [hlimit]; exact h.limit_le⟩

namespace Term

open Machine

variable {n n' d' : Nat} {m : Machine}

theorem enter_outlives
    (hbodies : ∀ k k' body g m, n = k + 1 → Levels k k' d' m →
      Outlives d' m (eval k body g) (eval k' body g))
    (hlevels : Levels n n' d' m) (loc : Location) (body : Term) (g : ScopeId) :
    Outlives d' m (Eval.enter loc (evalBody n body g)) (Eval.enter loc (evalBody n' body g)) := by
  obtain ⟨hlow, hhigh, hle⟩ := hlevels
  by_cases hstop : m.limit ≤ m.depth
  · have hrun : (Eval.enter loc (evalBody n body g)).run m = (.error (.fault (.exhausted loc m.limit)), m) := by
      rw [Eval.run_enter, if_pos hstop]
    refine ⟨fun hlives => absurd ⟨loc, m.limit, by rw [hrun]⟩ hlives, fun _ => ?_⟩
    rw [hrun]
    have hgrows := grows_stepwise.enter loc (grows_stepwise.evalBody n' body g) (m.withLimit d')
    exact ⟨hgrows.1.scopes, hgrows.1.writes⟩
  · obtain ⟨k, rfl⟩ : ∃ k, n = k + 1 := ⟨m.limit - m.depth - 1, by omega⟩
    obtain ⟨k', rfl⟩ : ∃ k', n' = k' + 1 := ⟨d' - m.depth - 1, by omega⟩
    have hlt : m.depth < m.limit := Nat.not_le.mp hstop
    have hlt' : (m.withLimit d').depth < (m.withLimit d').limit := Nat.lt_of_lt_of_le hlt hle
    have hdeeper : Levels k k' d' { m with depth := m.depth + 1 } :=
      ⟨by dsimp only; omega, by dsimp only; omega, hle⟩
    have hbody := hbodies k k' body g _ rfl hdeeper
    constructor
    · rw [Eval.run_enter_of_lt loc _ hlt, Eval.run_enter_of_lt loc _ hlt']
      intro hlives
      have hsame := hbody.same hlives
      change (eval k' body g).run { m.withLimit d' with depth := (m.withLimit d').depth + 1 } = _ at hsame
      rw [evalBody, hsame]
      rfl
    · rw [Eval.run_enter_of_lt loc _ hlt, Eval.run_enter_of_lt loc _ hlt']
      intro hdead
      have hfurther := hbody.further hdead
      exact ⟨hfurther.scopes, hfurther.writes⟩

theorem bindWith_outlives (args : List Term)
    (hargs : ∀ arg ∈ args, ∀ h m, Levels n n' d' m →
      Outlives d' m (arg.evalWith (evalBody n) h) (arg.evalWith (evalBody n') h))
    (hlevels : Levels n n' d' m) (params : List String) (h inner : ScopeId) :
    Outlives d' m (bindWith (evalBody n) args params h inner) (bindWith (evalBody n') args params h inner) := by
  induction args generalizing m params with
  | nil => exact .of_eq rfl
  | cons arg args ih =>
    rw [bindWith, bindWith]
    have hrest := fun a ha => hargs a (List.mem_cons_of_mem arg ha)
    have hgrow' : ∀ names, Along Grows (bindWith (evalBody n') args names h inner) := fun names =>
      grows_stepwise.bindWith args
        (fun a _ => grows_stepwise.evalWith (grows_stepwise.evalBody n') a) names h inner
    refine (hargs arg List.mem_cons_self h m hlevels).bind
      (grows_stepwise.evalWith (grows_stepwise.evalBody n) arg h) (fun v m₁ _ hm₁ => ?_) fun v => ?_
    · cases params with
      | nil => exact .of_eq rfl
      | cons name names =>
        refine Outlives.bind (.of_eq rfl) (fun m => grows_stepwise.define m inner name v)
          (fun _ m₂ _ hm₂ => ?_) fun _ => hgrow' names
        exact ih hrest ((hlevels.of_grows hm₁).of_grows hm₂) names
    · cases params with
      | nil => exact grows_stepwise.still fun _ => rfl
      | cons name names =>
        exact grows_stepwise.bind (fun m => grows_stepwise.define m inner name v) fun _ => hgrow' names

theorem evalWith_outlives
    (hbodies : ∀ k k' body g m, n = k + 1 → Levels k k' d' m →
      Outlives d' m (eval k body g) (eval k' body g)) (t : Term) :
    ∀ h m, Levels n n' d' m → Outlives d' m (t.evalWith (evalBody n) h) (t.evalWith (evalBody n') h) := by
  have hlow := grows_stepwise.evalWith (grows_stepwise.evalBody n)
  have hhigh := grows_stepwise.evalWith (grows_stepwise.evalBody n')
  have hfinal : ∀ x : Eval Value, (∀ m, (x.run m).2 = m) → Along Grows x := fun _ => grows_stepwise.still
  induction t using Term.inductionOn with
  | absent => exact fun h m _ => .of_eq rfl
  | int loc n => exact fun h m _ => .of_eq rfl
  | str loc s => exact fun h m _ => .of_eq rfl
  | bool loc b => exact fun h m _ => .of_eq rfl
  | error loc message fullText => exact fun h m _ => .of_eq rfl
  | var loc text =>
    intro h m _
    rw [evalWith, evalWith]
    refine Outlives.bind (.of_eq rfl) (grows_stepwise.still fun _ => rfl) (fun found m₁ _ _ => ?_) fun found => ?_
    · cases found <;> exact .of_eq rfl
    · cases found <;> exact grows_stepwise.still fun _ => rfl
  | binary loc lhs op rhs ihl ihr =>
    intro h m hm
    rw [evalWith, evalWith]
    have hop : ∀ l r, Along Grows (liftExcept (operate loc op l r) : Eval Value) := fun l r =>
      grows_stepwise.still fun m => by rw [Eval.run_liftExcept]
    refine (ihl h m hm).bind (hlow lhs h) (fun l m₁ _ hm₁ => ?_) fun l =>
      grows_stepwise.bind (hhigh rhs h) (hop l)
    refine (ihr h m₁ (hm.of_grows hm₁)).bind (hlow rhs h) (fun r m₂ _ _ => .of_eq ?_) (hop l)
    rw [Eval.run_liftExcept, Eval.run_liftExcept]
  | letIn loc name value next ihv ihn =>
    intro h m hm
    rw [evalWith, evalWith]
    refine (ihv h m hm).bind (hlow value h) (fun v m₁ _ hm₁ => ?_) fun v =>
      grows_stepwise.bind (fun m => grows_stepwise.define m h name.text v) fun _ => hhigh next h
    refine Outlives.bind (.of_eq rfl) (fun m => grows_stepwise.define m h name.text v) (fun _ m₂ _ hm₂ => ?_)
      fun _ => hhigh next h
    exact ihn h m₂ ((hm.of_grows hm₁).of_grows hm₂)
  | function loc params body _ =>
    intro h m _
    rw [evalWith, evalWith]
    exact .of_eq rfl
  | call loc callee args listed ihc iha =>
    intro h m hm
    rw [evalWith, evalWith]
    have hbind := fun params inner => grows_stepwise.bindWith args (fun a _ => hhigh a) params h inner
    have henter := fun body inner => grows_stepwise.enter loc (grows_stepwise.evalBody n' body inner)
    refine (ihc h m hm).bind (hlow callee h) (fun v m₁ _ hm₁ => ?_) fun v => ?_
    · cases v with
      | closure c =>
        dsimp only
        split
        · exact .of_eq rfl
        · refine Outlives.bind (.of_eq rfl) (fun m => grows_stepwise.extend m c.scope) (fun inner m₂ _ hm₂ => ?_)
            fun inner => grows_stepwise.bind (hbind c.params inner) fun _ => henter c.body inner
          have hm' := (hm.of_grows hm₁).of_grows hm₂
          refine (bindWith_outlives args iha hm' c.params h inner).bind
            (grows_stepwise.bindWith args (fun a _ => hlow a) c.params h inner) (fun _ m₃ _ hm₃ => ?_)
            fun _ => henter c.body inner
          exact enter_outlives hbodies (hm'.of_grows hm₃) loc c.body inner
      | _ => exact .refuse _ _
    · cases v with
      | closure c =>
        dsimp only
        split
        · exact grows_stepwise.still fun _ => rfl
        · exact grows_stepwise.bind (fun m => grows_stepwise.extend m c.scope) fun inner =>
            grows_stepwise.bind (hbind c.params inner) fun _ => henter c.body inner
      | _ => exact grows_stepwise.refuse _ _
  | ite loc c t e ihc iht ihe =>
    intro h m hm
    rw [evalWith, evalWith]
    refine (ihc h m hm).bind (hlow c h) (fun v m₁ _ hm₁ => ?_) fun v => ?_
    · cases v with
      | bool b => cases b with
        | true => exact iht h m₁ (hm.of_grows hm₁)
        | false => exact ihe h m₁ (hm.of_grows hm₁)
      | _ => exact .refuse _ _
    · cases v with
      | bool b => cases b with
        | true => exact hhigh t h
        | false => exact hhigh e h
      | _ => exact grows_stepwise.refuse _ _
  | tuple loc a b iha ihb =>
    intro h m hm
    rw [evalWith, evalWith]
    refine (iha h m hm).bind (hlow a h) (fun x m₁ _ hm₁ => ?_) fun x =>
      grows_stepwise.bind (hhigh b h) fun y => hfinal _ fun _ => rfl
    exact (ihb h m₁ (hm.of_grows hm₁)).bind (hlow b h) (fun y m₂ _ _ => .of_eq rfl) fun y =>
      hfinal _ fun _ => rfl
  | first loc t ih =>
    intro h m hm
    rw [evalWith, evalWith]
    refine (ih h m hm).bind (hlow t h) (fun v m₁ _ _ => ?_) fun v => ?_
    · cases v with
      | pair x y => exact .of_eq rfl
      | _ => exact .refuse _ _
    · cases v with
      | pair x y => exact hfinal _ fun _ => rfl
      | _ => exact grows_stepwise.refuse _ _
  | second loc t ih =>
    intro h m hm
    rw [evalWith, evalWith]
    refine (ih h m hm).bind (hlow t h) (fun v m₁ _ _ => ?_) fun v => ?_
    · cases v with
      | pair x y => exact .of_eq rfl
      | _ => exact .refuse _ _
    · cases v with
      | pair x y => exact hfinal _ fun _ => rfl
      | _ => exact grows_stepwise.refuse _ _
  | print loc t ih =>
    intro h m hm
    rw [evalWith, evalWith]
    refine (ih h m hm).bind (hlow t h) (fun v m₁ _ _ => ?_) fun v =>
      grows_stepwise.bind (grows_stepwise.print loc v) fun _ => hfinal _ fun _ => rfl
    exact (Outlives.print loc v).bind (grows_stepwise.print loc v) (fun _ m₂ _ _ => .of_eq rfl) fun _ =>
      hfinal _ fun _ => rfl

theorem eval_outlives (hlevels : Levels n n' d' m) (t : Term) (h : ScopeId) :
    Outlives d' m (t.eval n h) (t.eval n' h) := by
  induction n generalizing n' t h m with
  | zero =>
    rw [eval_eq, eval_eq]
    exact evalWith_outlives (fun k _ _ _ _ hk => absurd hk (Nat.succ_ne_zero k).symm) t h m hlevels
  | succ n ih =>
    rw [eval_eq, eval_eq]
    refine evalWith_outlives (fun k k' body g m₁ hk hm₁ => ?_) t h m hlevels
    cases hk
    exact ih hm₁ body g

end Term

private theorem foldl_append (first : ByteArray) (pieces : List ByteArray) :
    pieces.foldl (· ++ ·) first = first ++ pieces.foldl (· ++ ·) ByteArray.empty := by
  induction pieces generalizing first with
  | nil => exact ByteArray.append_empty.symm
  | cons piece pieces ih =>
    rw [List.foldl_cons, List.foldl_cons, ih (first ++ piece), ih (ByteArray.empty ++ piece),
      ByteArray.empty_append, ByteArray.append_assoc]

theorem Output.text_of_suffix {out out' : Output} (h : out.writes <:+ out'.writes) :
    ∃ more, out'.text = out.text ++ more := by
  obtain ⟨later, hlater⟩ := h
  refine ⟨later.reverse.foldl (· ++ ·) ByteArray.empty, ?_⟩
  rw [text, text, ← hlater, List.reverse_append, List.foldl_append]
  exact foldl_append _ _

namespace Interpreter

def withLimit (i : Interpreter) (d : Nat) : Interpreter := { i with machine := i.machine.withLimit d }

variable {d d' : Nat}

theorem point_outlives (i : Interpreter) (hd : d ≤ d') (t : Term) (h : ScopeId) :
    Outlives d' (i.withLimit d).machine (t.eval (d - i.machine.depth) h) (t.eval (d' - i.machine.depth) h) :=
  Term.eval_outlives ⟨rfl, rfl, hd⟩ t h

theorem run_withLimit (i : Interpreter) (hd : d ≤ d') (p : Program)
    (hlives : ¬Exhausted ((i.withLimit d).run p).1) :
    (i.withLimit d').run p = (((i.withLimit d).run p).1, ((i.withLimit d).run p).2.withLimit d') := by
  by_cases h : p.expression.isAbsent
  · rw [run_absent h, run_absent h]
    rfl
  · rw [run_present h] at hlives
    rw [run_present h, run_present h]
    have hsame := (i.fresh.point_outlives hd p.expression i.fresh.global).same hlives
    have hresult : ((i.withLimit d').fresh.point p.expression (i.withLimit d').fresh.global).result =
        (((i.withLimit d).fresh.point p.expression (i.withLimit d).fresh.global).result.1,
          ((i.withLimit d).fresh.point p.expression (i.withLimit d).fresh.global).final.withLimit d') := hsame
    rw [Point.final, hresult]
    rfl

/-- Under a higher limit, an evaluation that the lower one does not stop ends with the same outcome and the
same interpreter, the limit apart. One that the lower limit stops goes further under the higher: what it had
printed is the beginning of what is printed now, and in every scope the bindings it had left are the older part
of those there are now. So of any limits there are, either all stop a program, or from the least that does not
all outcomes agree. -/
theorem raising_limit_goes_further (i : Interpreter) :
    (∀ t scope d d', d ≤ d' →
      (¬Exhausted ((i.withLimit d).evaluate t scope).1 →
        (i.withLimit d').evaluate t scope =
          (((i.withLimit d).evaluate t scope).1, ((i.withLimit d).evaluate t scope).2.withLimit d')) ∧
      (Exhausted ((i.withLimit d).evaluate t scope).1 →
        (∃ more, ((i.withLimit d').evaluate t scope).2.machine.output.text =
          ((i.withLimit d).evaluate t scope).2.machine.output.text ++ more) ∧
        ∀ id s, ((i.withLimit d).evaluate t scope).2.machine.store.scope? id = some s →
          ∃ added, ((i.withLimit d').evaluate t scope).2.machine.store.scope? id =
            some ⟨added ++ s.bindings, s.parent⟩)) ∧
    ∀ (p : Program) (limits : Set Nat),
      (∀ d ∈ limits, Exhausted ((i.withLimit d).run p).1) ∨
      ∃ least ∈ limits, (∀ d ∈ limits, d < least → Exhausted ((i.withLimit d).run p).1) ∧
        ∀ d ∈ limits, least ≤ d → ¬Exhausted ((i.withLimit d).run p).1 ∧
          (i.withLimit d).run p =
            (((i.withLimit least).run p).1, ((i.withLimit least).run p).2.withLimit d) := by
  constructor
  · intro t scope d d' hd
    have houtlives := i.point_outlives hd t (scope.getD i.global)
    constructor
    · intro hlives
      have hresult : ((i.withLimit d').point t (scope.getD (i.withLimit d').global)).result =
          (((i.withLimit d).point t (scope.getD (i.withLimit d).global)).result.1,
            ((i.withLimit d).point t (scope.getD (i.withLimit d).global)).final.withLimit d') :=
        houtlives.same hlives
      rw [evaluate_eq, evaluate_eq, Point.final, hresult]
      rfl
    · intro hdead
      have hfurther := houtlives.further hdead
      exact ⟨Output.text_of_suffix hfurther.writes, hfurther.scopes⟩
  · intro p limits
    by_cases hlives : ∃ d, d ∈ limits ∧ ¬Exhausted ((i.withLimit d).run p).1
    · classical
      right
      obtain ⟨hmem, hleast⟩ := Nat.find_spec hlives
      refine ⟨Nat.find hlives, hmem, fun d hd hlt => ?_, fun d _ hle => ?_⟩
      · exact not_not.mp fun h => Nat.find_min hlives hlt ⟨hd, h⟩
      · have hrun := i.run_withLimit hle p hleast
        refine ⟨?_, hrun⟩
        rw [hrun]
        exact hleast
    · left
      intro d hd
      exact not_not.mp fun h => hlives ⟨d, hd, h⟩

/-- `let f = fn () => 1; (fn () => f())()` -/
def callInCall : Term :=
  .letIn .unknown ⟨"f", .unknown⟩ (.function .unknown [] (.int .unknown 1))
    (.call .unknown (.function .unknown [] (.call .unknown (.var .unknown "f") [] true)) [] true)

theorem raising_limit_goes_further_callInCall :
    (Exhausted (((new .unlimited 0).withLimit 1).evaluate callInCall none).1 ∧
      ∀ s, (((new .unlimited 0).withLimit 1).evaluate callInCall none).2.machine.store.scope? 0 = some s →
        ∃ added, (((new .unlimited 0).withLimit 2).evaluate callInCall none).2.machine.store.scope? 0 =
          some ⟨added ++ s.bindings, s.parent⟩) ∧
    ¬Exhausted (((new .unlimited 0).withLimit 2).evaluate callInCall none).1 ∧
      ((new .unlimited 0).withLimit 5).evaluate callInCall none =
        ((((new .unlimited 0).withLimit 2).evaluate callInCall none).1,
          (((new .unlimited 0).withLimit 2).evaluate callInCall none).2.withLimit 5) := by
  have hstopped : Exhausted (((new .unlimited 0).withLimit 1).evaluate callInCall none).1 := by decide +kernel
  have hlives : ¬Exhausted (((new .unlimited 0).withLimit 2).evaluate callInCall none).1 := by decide +kernel
  have hlimits := (raising_limit_goes_further (new .unlimited 0)).1 callInCall none
  exact ⟨⟨hstopped, ((hlimits 1 2 (by decide)).2 hstopped).2 0⟩, hlives, (hlimits 2 5 (by decide)).1 hlives⟩

end Interpreter

end TreeWalk
