import TreeWalk.Proofs.Eval.Stop
import TreeWalk.Proofs.Scope.Wholeness
import TreeWalk.Proofs.Session.Ending

/-!
# Nothing absent comes up

Evaluated in a scope that is whole, a term meets nothing absent: every value that comes up is whole, every scope in
which something is evaluated is whole and stays so, no value is asked for its kind that has none, and there is a
parameter for every argument. The global scope of a run is whole because it is empty at first.
-/

namespace TreeWalk

theorem operate_cases (loc : Location) (op : Operator) (l r : Value) :
    (∃ v, operate loc op l r = .ok v ∧ v.Present) ∨
    (∃ f, operate loc op l r = .error (.fault f)) ∨ operate loc op l r = .error (mismatch loc op l r) := by
  cases op with
  | unknown name => exact .inr (.inl ⟨_, rfl⟩)
  | add =>
    simp only [operate]
    split
    · exact .inl ⟨_, rfl, trivial⟩
    · split
      · exact .inl ⟨_, rfl, trivial⟩
      · exact .inr (.inr rfl)
  | div | rem =>
    simp only [operate]
    split
    · split
      · exact .inr (.inl ⟨_, rfl⟩)
      · exact .inl ⟨_, rfl, trivial⟩
    · exact .inr (.inr rfl)
  | _ =>
    simp only [operate]
    split
    · exact .inl ⟨_, rfl, trivial⟩
    · exact .inr (.inr rfl)

namespace Failure

def Missing (e : Failure) : Prop := e = .absentValue ∨ e = .absentParameter

theorem not_missing_fault (f : Fault) : ¬(Failure.fault f).Missing := by
  rintro (h | h) <;> cases h

end Failure

/-- The store has the line drawn around `inside`, nothing was missing, and a value satisfies `R`. -/
structure Secured {α : Type} (inside : Nat → Prop) (R : α → Prop) (r : Except Failure α × Machine) : Prop where
  store : r.2.store.Encloses inside
  value : ∀ a, r.1 = .ok a → R a
  failure : ∀ e, r.1 = .error e → ¬e.Missing

def Secures {α : Type} (inside : Nat → Prop) (R : α → Prop) (x : Eval α) : Prop :=
  ∀ m, m.store.Encloses inside → Secured inside R (x.run m)

namespace Secures

variable {α β : Type} {inside : Nat → Prop} {R : α → Prop} {Q : β → Prop}

theorem pure {a : α} (h : R a) : Secures inside R (Pure.pure a : Eval α) := by
  intro m hm
  refine ⟨hm, ?_, by rintro e ⟨⟩⟩
  rintro _ ⟨⟩
  exact h

theorem fail (f : Fault) : Secures inside R (Eval.fail f : Eval α) := by
  intro m hm
  refine ⟨hm, by rintro a ⟨⟩, ?_⟩
  rintro _ ⟨⟩
  exact Failure.not_missing_fault f

theorem bind {x : Eval α} {f : α → Eval β} (hx : Secures inside R x) (hf : ∀ a, R a → Secures inside Q (f a)) :
    Secures inside Q (x >>= f) := by
  intro m hm
  obtain ⟨hstore, hvalue, hfailure⟩ := hx m hm
  rcases hr : x.run m with ⟨e | a, m'⟩
  · rw [hr] at hstore hfailure
    rw [Eval.run_bind_error hr]
    refine ⟨hstore, by rintro a ⟨⟩, ?_⟩
    rintro _ ⟨⟩
    exact hfailure e rfl
  · rw [hr] at hstore hvalue
    rw [Eval.run_bind_ok hr]
    exact hf a (hvalue a rfl) m' hstore

theorem refuse {v : Value} (hv : v.Present) (f : Kind → Fault) :
    Secures inside R (do Eval.fail (f (← Eval.kindOf v)) : Eval α) := by
  obtain ⟨k, hk⟩ := hv.kind
  have hkind : Eval.kindOf v = Pure.pure k := by
    unfold Eval.kindOf
    rw [hk]
  rw [hkind]
  exact bind (R := fun _ => True) (pure trivial) fun k _ => fail (f k)

theorem onStore {f : Store → α × Store}
    (h : ∀ s : Store, s.Encloses inside → (f s).2.Encloses inside ∧ R (f s).1) : Secures inside R (Eval.onStore f) := by
  intro m hm
  obtain ⟨hstore, hvalue⟩ := h m.store hm
  rw [Eval.run_onStore]
  refine ⟨hstore, ?_, by rintro e ⟨⟩⟩
  rintro _ ⟨⟩
  exact hvalue

theorem define (id : ScopeId) (name : String) {v : Value} (hv : v.Within inside) :
    Secures inside (fun _ => True) (Eval.define id name v) :=
  onStore fun _ hs => ⟨hs.define id name hv, trivial⟩

theorem print (loc : Location) (v : Value) : Secures inside (fun _ => True) (Eval.print loc v) := by
  intro m hm
  rw [Eval.run_print]
  split
  · exact ⟨hm, fun _ _ => trivial, by rintro e ⟨⟩⟩
  · refine ⟨hm, by rintro a ⟨⟩, ?_⟩
    rintro _ ⟨⟩ (h | h) <;> cases h

theorem enter (loc : Location) {x : Eval α} (hx : Secures inside R x) : Secures inside R (Eval.enter loc x) := by
  intro m hm
  by_cases h : m.depth < m.limit
  · rw [Eval.run_enter_of_lt loc x h]
    obtain ⟨hstore, hvalue, hfailure⟩ := hx { m with depth := m.depth + 1 } hm
    exact ⟨hstore, hvalue, hfailure⟩
  · rw [Eval.run_enter, if_pos (Nat.not_lt.mp h)]
    exact fail _ m hm

theorem operate (loc : Location) (op : Operator) {l r : Value} (hl : l.Present) (hr : r.Present) :
    Secures inside (Value.Within inside) (liftExcept (TreeWalk.operate loc op l r) : Eval Value) := by
  intro m hm
  rw [Eval.run_liftExcept]
  obtain ⟨a, ha⟩ := hl.kind
  obtain ⟨b, hb⟩ := hr.kind
  have hmismatch : mismatch loc op l r = .fault (.operands loc op a b) := by simp only [mismatch, ha, hb]
  rcases operate_cases loc op l r with ⟨v, h, hpresent⟩ | ⟨f, h⟩ | h
  · have hclosures := closures_of_operate h
    rw [h]
    refine pure (R := Value.Within inside) ⟨hpresent, ?_⟩ m hm
    simp [hclosures]
  · rw [h]
    exact fail f m hm
  · rw [h, hmismatch]
    exact fail _ m hm

end Secures

namespace Term

variable {inside : Nat → Prop} {apply : Term → ScopeId → Eval Value}

theorem bindWith_secures (args : List Term)
    (hargs : ∀ arg ∈ args, ∀ h, inside h → Secures inside (Value.Within inside) (arg.evalWith apply h))
    {params : List String} (hlength : args.length ≤ params.length) {h : ScopeId} (hh : inside h) (inner : ScopeId) :
    Secures inside (fun _ => True) (bindWith apply args params h inner) := by
  induction args generalizing params with
  | nil => exact .pure trivial
  | cons arg args ih =>
    rw [bindWith]
    refine (hargs arg List.mem_cons_self h hh).bind fun v hv => ?_
    cases params with
    | nil => cases hlength
    | cons name names =>
      refine (Secures.define inner name hv).bind fun _ _ => ?_
      exact ih (fun a ha => hargs a (List.mem_cons_of_mem _ ha)) (Nat.le_of_succ_le_succ hlength)

theorem evalWith_secures (happly : ∀ body h, inside h → Secures inside (Value.Within inside) (apply body h))
    (t : Term) :
    ∀ h, inside h → Secures inside (Value.Within inside) (t.evalWith apply h) := by
  have hscalar : ∀ v : Value, v.Present → v.closures = [] → v.Within inside := by
    intro v hv hclosures
    exact ⟨hv, by simp [hclosures]⟩
  induction t using Term.inductionOn with
  | absent => exact fun h _ => .fail _
  | int loc n => exact fun h _ => .pure (hscalar _ trivial rfl)
  | str loc s => exact fun h _ => .pure (hscalar _ trivial rfl)
  | bool loc b => exact fun h _ => .pure (hscalar _ trivial rfl)
  | error loc message fullText => exact fun h _ => .fail _
  | var loc text =>
    intro h hh m hm
    rw [evalWith, Eval.run_bind_ok (Eval.run_lookup? h text m)]
    cases hfound : (m.store.env h).lookup? text with
    | none => exact Secures.fail _ m hm
    | some v => exact Secures.pure (R := Value.Within inside) (hm.within_of_lookup? hh hfound) m hm
  | binary loc lhs op rhs ihl ihr =>
    intro h hh
    rw [evalWith]
    refine (ihl h hh).bind fun l hl => (ihr h hh).bind fun r hr => ?_
    exact Secures.operate loc op hl.present hr.present
  | letIn loc name value next ihv ihn =>
    intro h hh
    rw [evalWith]
    exact (ihv h hh).bind fun v hv => (Secures.define h name.text hv).bind fun _ _ => ihn h hh
  | function loc params body _ =>
    intro h hh
    rw [evalWith]
    refine (Secures.onStore fun s hs => hs.capture hh).bind fun copy hcopy => .pure ⟨trivial, fun c hc => ?_⟩
    rw [List.mem_singleton.mp hc]
    exact hcopy
  | call loc callee args listed ihc iha =>
    intro h hh
    rw [evalWith]
    refine (ihc h hh).bind fun v hv => ?_
    cases v with
    | closure c =>
      have hscope : inside c.scope := hv.captured c (List.mem_singleton.mpr rfl)
      dsimp only
      split
      · exact .fail _
      · next harity =>
        have hlength : args.length ≤ c.params.length := Nat.le_of_eq (not_ne_iff.mp harity)
        refine (Secures.onStore fun s hs => hs.extend hscope).bind fun inner hinner => ?_
        refine (bindWith_secures args iha hlength hh inner).bind fun _ _ => ?_
        exact .enter loc (happly c.body inner hinner)
    | _ => exact .refuse hv.present _
  | ite loc c t e ihc iht ihe =>
    intro h hh
    rw [evalWith]
    refine (ihc h hh).bind fun v hv => ?_
    cases v with
    | bool b => cases b with
      | true => exact iht h hh
      | false => exact ihe h hh
    | _ => exact .refuse hv.present _
  | tuple loc a b iha ihb =>
    intro h hh
    rw [evalWith]
    exact (iha h hh).bind fun x hx => (ihb h hh).bind fun y hy => .pure (hx.pair hy)
  | first loc t ih =>
    intro h hh
    rw [evalWith]
    refine (ih h hh).bind fun v hv => ?_
    cases v with
    | pair x y => exact .pure hv.first
    | _ => exact .refuse hv.present _
  | second loc t ih =>
    intro h hh
    rw [evalWith]
    refine (ih h hh).bind fun v hv => ?_
    cases v with
    | pair x y => exact .pure hv.second
    | _ => exact .refuse hv.present _
  | print loc t ih =>
    intro h hh
    rw [evalWith]
    exact (ih h hh).bind fun v hv => (Secures.print loc v).bind fun _ _ => .pure hv

theorem evalBody_secures (n : Nat) (body : Term) (h : ScopeId) (hh : inside h) :
    Secures inside (Value.Within inside) (evalBody n body h) := by
  induction n generalizing body h with
  | zero =>
    intro m hm
    refine ⟨hm, by rintro a ⟨⟩, ?_⟩
    rintro _ ⟨⟩ (h | h) <;> cases h
  | succ n ih =>
    rw [evalBody, eval_eq]
    exact evalWith_secures ih body h hh

end Term

namespace Point

variable {inside : Nat → Prop}

structure Enclosed (p : Point) (inside : Nat → Prop) : Prop where
  store : p.machine.store.Encloses inside
  scope : inside p.scope

theorem Enclosed.secured {p : Point} (h : p.Enclosed inside) : Secured inside (Value.Within inside) p.result := by
  rw [result, Term.eval_eq]
  exact Term.evalWith_secures (Term.evalBody_secures p.levels) p.term p.scope h.scope p.machine h.store

theorem Enclosed.of_result {n : Nat} {t : Term} {h : ScopeId} {m m' : Machine} {v : Value}
    (hp : Enclosed ⟨n, t, h, m⟩ inside) (e : result ⟨n, t, h, m⟩ = (.ok v, m')) :
    m'.store.Encloses inside ∧ v.Within inside := by
  have hsecured := hp.secured
  rw [e] at hsecured
  exact ⟨hsecured.store, hsecured.value v rfl⟩

theorem Enclosed.of_bindWith {n : Nat} {args : List Term} {c : Closure} {h : ScopeId} {m m' : Machine}
    (hm : m.store.Encloses inside) (hc : (Value.closure c).Within inside) (hh : inside h)
    (hlength : args.length ≤ c.params.length)
    (e : (Term.bindWith (Term.evalBody n) args c.params h (m.frame c.scope).1).run (m.frame c.scope).2 = (.ok (), m')) :
    m'.store.Encloses inside ∧ inside (m.frame c.scope).1 := by
  have hframe := hm.extend (hc.captured c (List.mem_singleton.mpr rfl))
  have hsecured := Term.bindWith_secures args (fun a _ => Term.evalWith_secures (Term.evalBody_secures n) a) hlength hh
    (m.frame c.scope).1 (m.frame c.scope).2 hframe.1
  rw [e] at hsecured
  exact ⟨hsecured.store, hframe.2⟩

theorem Next.enclosed {p q : Point} (h : p.Next q) (hp : p.Enclosed inside) : q.Enclosed inside := by
  have hscope := hp.scope
  have hstart : ∀ t, Enclosed ⟨p.levels, t, p.scope, p.machine⟩ inside := fun t => ⟨hp.store, hp.scope⟩
  cases h with
  | binaryLeft | letValue | callee | condition | tupleFirst | first | second | print => exact hstart _
  | binaryRight e | thenBranch e | otherwise e | tupleSecond e => exact ⟨((hstart _).of_result e).1, hscope⟩
  | letNext e =>
    obtain ⟨hstore, hv⟩ := (hstart _).of_result e
    exact ⟨hstore.define _ _ hv, hscope⟩
  | argument e harity hbefore =>
    obtain ⟨hstore, hc⟩ := (hstart _).of_result e
    rw [List.length_append] at harity
    have hlength := Nat.le.intro harity
    exact ⟨(Enclosed.of_bindWith hstore hc hscope hlength hbefore).1, hscope⟩
  | body hcall =>
    cases hcall with
    | intro e harity hargs hdepth =>
      obtain ⟨hstore, hc⟩ := (hstart _).of_result e
      obtain ⟨hstore', hframe⟩ := Enclosed.of_bindWith hstore hc hscope (Nat.le_of_eq harity) hargs
      exact ⟨hstore', hframe⟩

theorem Visits.enclosed {p q : Point} (h : p.Visits q) (hp : p.Enclosed inside) : q.Enclosed inside := by
  induction h with
  | refl => exact hp
  | tail _ hnext ih => exact hnext.enclosed ih

end Point

namespace Interpreter

/-- All that an evaluation in a whole scope visits is whole and ends as it should. -/
theorem visits_whole {i : Interpreter} {t : Term} {h : ScopeId} (hwhole : i.machine.store.Whole h) {q : Point}
    (hq : (i.point t h).Visits q) :
    q.machine.store.Whole q.scope ∧ q.final.store.Whole q.scope ∧ q.result.1.Proper ∧
      ∀ v, q.result.1 = .ok v → q.final.store.WholeValue v := by
  -- the line is drawn around what can be reached now and all that is still to be made
  have hstart : (i.point t h).Enclosed fun g => i.machine.store.Meets h g ∨ i.machine.store.size ≤ g :=
    ⟨hwhole.encloses, .inl (.self h)⟩
  have henclosed := hq.enclosed hstart
  obtain ⟨hstore, hvalue, hfailure⟩ := henclosed.secured
  refine ⟨henclosed.store.whole henclosed.scope, hstore.whole henclosed.scope, ?_, fun v hv => ?_⟩
  · cases houtcome : q.result.1 with
    | ok v => exact .inl ⟨v, rfl⟩
    | error e =>
      have hmissing := hfailure e houtcome
      cases e with
      | fault f => exact .inr (.inl ⟨f, rfl⟩)
      | output loc reason => exact .inr (.inr ⟨loc, reason, rfl⟩)
      | absentValue => exact absurd (.inl rfl) hmissing
      | absentParameter => exact absurd (.inr rfl) hmissing
      | unfinished =>
        -- a part that is cut short would cut the whole evaluation short
        obtain ⟨_, hfinished, _⟩ := evaluate_settles i t (some h)
        have hstops := hq.stops (Prod.ext houtcome rfl : q.result = (.error .unfinished, q.final))
        exact absurd (congrArg Prod.fst hstops) hfinished
  · exact hstore.wholeValue (hvalue v hv)

theorem fresh_whole (i : Interpreter) : i.fresh.machine.store.Whole i.fresh.global := by
  apply Store.whole_of_empty
  change (i.machine.store.alloc ⟨[], none⟩).2.scope? i.machine.store.size = _
  rw [Store.scope?_alloc, if_pos rfl]

/-- An evaluation in a whole scope ends with a value, a fault or a refused write. The value is whole, and the scope
still is. The same holds at each point that is visited: nothing is missing there, neither a value that is asked
for its kind nor a parameter for an argument. A run of a program gives nothing but whole values, whatever was done
with the interpreter before. -/
theorem evaluation_meets_nothing_absent :
    (∀ (i : Interpreter) (t : Term) (scope : Option ScopeId), i.machine.store.Whole (scope.getD i.global) →
      (i.evaluate t scope).1.Proper ∧
      (∀ v, (i.evaluate t scope).1 = .ok v → (i.evaluate t scope).2.machine.store.WholeValue v) ∧
      (i.evaluate t scope).2.machine.store.Whole (scope.getD i.global) ∧
      ∀ q, (i.point t (scope.getD i.global)).Visits q →
        q.machine.store.Whole q.scope ∧ q.final.store.Whole q.scope ∧ q.result.1.Proper ∧
          ∀ v, q.result.1 = .ok v → q.final.store.WholeValue v) ∧
    ∀ (i : Interpreter) (p : Program),
      (i.run p).1.Proper ∧
      ∀ v, (i.run p).1 = .ok v →
        (i.run p).2.machine.store.WholeValue v ∧ (i.run p).2.machine.store.Whole (i.run p).2.global := by
  refine ⟨fun i t scope hwhole => ?_, fun i p => ?_⟩
  · obtain ⟨_, hfinal, hproper, hvalue⟩ := visits_whole (t := t) hwhole .refl
    exact ⟨hproper, hvalue, hfinal, fun q hq => visits_whole hwhole hq⟩
  · by_cases h : p.expression.isAbsent
    · rw [run_absent h]
      exact ⟨.inr (.inl ⟨_, rfl⟩), by rintro v ⟨⟩⟩
    · obtain ⟨_, hfinal, hproper, hvalue⟩ := visits_whole (t := p.expression) i.fresh_whole .refl
      rw [run_present h]
      exact ⟨hproper, fun v hv => ⟨hvalue v hv, hfinal⟩⟩

/-- `(fn (y) => (y, first(x)))(second(x))` -/
def swapped : Term :=
  .call .unknown
    (.function .unknown [⟨"y", .unknown⟩]
      (.tuple .unknown (.var .unknown "y") (.first .unknown (.var .unknown "x"))))
    [.second .unknown (.var .unknown "x")] true

def pairHolder : Interpreter := (new .unlimited 0).define 0 "x" (.pair (.bool true) (.str .empty))

theorem evaluation_meets_nothing_absent_swapped :
    pairHolder.machine.store.Whole 0 ∧
    ∃ v, (pairHolder.evaluate swapped (some 0)).1 = .ok v ∧
      (pairHolder.evaluate swapped (some 0)).2.machine.store.WholeValue v := by
  have hempty : (new .unlimited 0).machine.store.Whole 0 := Store.whole_of_empty rfl
  have hx : (Value.pair (.bool true) (.str .empty)).Within
      fun g => (new .unlimited 0).machine.store.Meets 0 g ∨ (new .unlimited 0).machine.store.size ≤ g :=
    ⟨⟨trivial, trivial⟩, by rintro c ⟨⟩⟩
  have hwhole : pairHolder.machine.store.Whole 0 := (hempty.encloses.define 0 "x" hx).whole (.inl (.self 0))
  obtain ⟨_, hvalue, _⟩ := evaluation_meets_nothing_absent.1 pairHolder swapped (some 0) hwhole
  exact ⟨hwhole, _, rfl, hvalue _ rfl⟩

end Interpreter

end TreeWalk
