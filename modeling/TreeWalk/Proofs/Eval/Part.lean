import TreeWalk.Proofs.Eval.Effect

/-!
# Parts of an evaluation

Each point that an evaluation visits is evaluated as a part of it. What such a part makes, the rest of
the evaluation leaves alone: the rest changes scopes that were there before the part began, and makes
new ones.
-/

namespace TreeWalk

namespace Machine

/-- From `m` to `m'`, the scopes numbered `lo` to `hi` stay as they are. -/
structure Keeps (lo hi : Nat) (m m' : Machine) : Prop where
  size_le : m.store.size ≤ m'.store.size
  scope?_eq : ∀ id : Nat, lo ≤ id → id < hi → m'.store.scope? id = m.store.scope? id

namespace Keeps

variable {lo hi h : Nat} {m m₁ m₂ : Machine}

theorem refl (lo hi : Nat) (m : Machine) : m.Keeps lo hi m := ⟨Nat.le_refl _, fun _ _ _ => rfl⟩

theorem trans (h₁ : m.Keeps lo hi m₁) (h₂ : m₁.Keeps lo hi m₂) : m.Keeps lo hi m₂ := by
  refine ⟨Nat.le_trans h₁.size_le h₂.size_le, fun id hlo hhi => ?_⟩
  rw [h₂.scope?_eq id hlo hhi, h₁.scope?_eq id hlo hhi]

theorem of_effect {added : Bindings} (e : m.Effect m.store.size h added m₁) (hout : h < lo ∨ hi ≤ h)
    (hhi : hi ≤ m.store.size) : m.Keeps lo hi m₁ :=
  ⟨e.size_le, fun id hid hid' => e.others id (by omega) (by omega)⟩

theorem adds {s : Store} (hs : m.store.Adds s) (hhi : hi ≤ m.store.size) :
    m.Keeps lo hi { m with store := s } :=
  ⟨hs.size_le, fun id _ hid => hs.scope?_eq id (Nat.lt_of_lt_of_le hid hhi)⟩

theorem define {g : Nat} (hg : g < lo ∨ hi ≤ g) (name : String) (v : Value) :
    m.Keeps lo hi { m with store := m.store.define g name v } := by
  refine ⟨Nat.le_of_eq (Store.size_define m.store g name v).symm, fun id hid hid' => ?_⟩
  have hne : g ≠ id := by omega
  rw [Store.scope?_define, if_neg hne]

end Keeps

end Machine

namespace Eval

variable {α β : Type} {lo hi : Nat} {m : Machine}

theorem keeps_rest {x : Eval α} {f : α → Eval β} {r : Except Failure α} {m' : Machine} (hx : x.run m = (r, m'))
    (hf : ∀ a, r = .ok a → m'.Keeps lo hi ((f a).run m').2) : m'.Keeps lo hi ((x >>= f).run m).2 := by
  cases r with
  | error e =>
    rw [run_bind_error hx]
    exact .refl lo hi m'
  | ok a =>
    rw [run_bind_ok hx]
    exact hf a rfl

theorem keeps_bind {x : Eval α} {f : α → Eval β} (hx : m.Keeps lo hi (x.run m).2)
    (hf : ∀ a m', x.run m = (.ok a, m') → m.store.size ≤ m'.store.size → m'.Keeps lo hi ((f a).run m').2) :
    m.Keeps lo hi ((x >>= f).run m).2 := by
  rcases hr : x.run m with ⟨r, m'⟩
  rw [hr] at hx
  exact hx.trans (keeps_rest hr fun a ha => hf a m' (by rw [hr, ha]) hx.size_le)

theorem keeps_refuse (v : Value) (f : Kind → Fault) :
    m.Keeps lo hi ((do Eval.fail (f (← Eval.kindOf v)) : Eval α).run m).2 := by
  rw [run_bind, run_kindOf]
  cases v.kind? <;> exact .refl lo hi m

theorem keeps_print (loc : Location) (v : Value) : m.Keeps lo hi ((Eval.print loc v).run m).2 := by
  rw [run_print]
  split
  · exact ⟨Nat.le_refl _, fun _ _ _ => rfl⟩
  · exact .refl lo hi m

theorem keeps_still {x : Eval α} (e : (x.run m).2 = m) : m.Keeps lo hi (x.run m).2 := e.symm ▸ .refl lo hi m

end Eval

namespace Term

variable {n h inner lo hi : Nat} {m : Machine}

theorem evalWith_keeps (t : Term) (hh : h < lo) (hlo : lo ≤ m.store.size) (hhi : hi ≤ m.store.size) :
    m.Keeps lo hi ((t.evalWith (evalBody n) h).run m).2 := by
  rw [← Point.result_eq]
  obtain ⟨added, e, _⟩ := Point.effect ⟨n, t, h, m⟩ (Nat.lt_of_lt_of_le hh hlo)
  exact .of_effect e (.inl hh) hhi

theorem bindWith_keeps (args : List Term) (params : List String) (hh : h < lo)
    (hinner : inner < lo ∨ hi ≤ inner) (hlo : lo ≤ m.store.size) (hhi : hi ≤ m.store.size) :
    m.Keeps lo hi ((bindWith (evalBody n) args params h inner).run m).2 := by
  induction args generalizing params m with
  | nil => exact .refl lo hi m
  | cons arg args ih =>
    rw [bindWith]
    refine Eval.keeps_bind (evalWith_keeps arg hh hlo hhi) fun v m₁ hv hsize => ?_
    cases params with
    | nil => exact .refl lo hi m₁
    | cons name names =>
      refine Eval.keeps_bind (.define hinner name v) fun _ m₂ _ hsize' => ?_
      exact ih names (by omega) (by omega)

theorem enter_keeps (loc : Location) (body : Term) (hinner : inner < lo ∨ hi ≤ inner)
    (hin : inner < m.store.size) (hhi : hi ≤ m.store.size) :
    m.Keeps lo hi ((Eval.enter loc (evalBody n body inner)).run m).2 := by
  rw [Eval.run_enter]
  split
  · exact .refl lo hi m
  · obtain ⟨added, e⟩ := bodies_keep n body inner { m with depth := m.depth + 1 } hin
    have hkeeps := Machine.Keeps.of_effect e hinner hhi
    exact ⟨hkeeps.size_le, hkeeps.scope?_eq⟩

/-- A call whose callee is a closure and whose arguments are as many as its parameters. -/
theorem run_call {loc : Location} {callee : Term} {args : List Term} {listed : Bool} {c : Closure}
    {m₁ : Machine} (hc : (callee.evalWith (evalBody n) h).run m = (.ok (.closure c), m₁))
    (harity : args.length = c.arity) :
    ((call loc callee args listed).evalWith (evalBody n) h).run m =
      (do
        bindWith (evalBody n) args c.params h (m₁.frame c.scope).1
        Eval.enter loc (evalBody n c.body (m₁.frame c.scope).1)).run (m₁.frame c.scope).2 := by
  rw [evalWith, Eval.run_bind_ok hc]
  dsimp only
  rw [if_neg (not_ne_iff.mpr harity), Eval.run_bind_ok (m₁.run_extend c.scope)]

theorem run_bindWith_append {apply : Term → ScopeId → Eval Value} {before : List Term} (args : List Term)
    {params : List String} {m' : Machine} (hbefore : (bindWith apply before params h inner).run m = (.ok (), m')) :
    (bindWith apply (before ++ args) params h inner).run m =
      (bindWith apply args (params.drop before.length) h inner).run m' := by
  induction before generalizing params m with
  | nil =>
    cases hbefore
    rfl
  | cons arg before ih =>
    rw [bindWith] at hbefore
    rw [List.cons_append, bindWith]
    rcases hr : (arg.evalWith apply h).run m with ⟨_ | v, m₁⟩
    · rw [Eval.run_bind_error hr] at hbefore
      cases hbefore
    · rw [Eval.run_bind_ok hr] at hbefore ⊢
      cases params with
      | nil => cases hbefore
      | cons name names => exact ih hbefore

theorem bindWith_effect (args : List Term) (params : List String) {base : Nat} (hh : h < m.store.size)
    (hbase : base ≤ m.store.size) (hinner : base ≤ inner) (hne : h ≠ inner) :
    ∃ added, m.Effect base h added ((bindWith (evalBody n) args params h inner).run m).2 := by
  obtain ⟨added, e, _⟩ := bindWith_acts (R := fun _ _ => True) args
    (fun arg _ => local_of_bodies (bodies_keep n) arg) params m hh hbase hinner hne
    fun _ _ _ _ _ _ _ _ _ => trivial
  exact ⟨added, e⟩

end Term

namespace Point

/-- `q` is evaluated as a part of `p`. -/
structure Part (p q : Point) : Prop where
  scope_lt : q.scope < q.machine.store.size
  size_le : p.machine.store.size ≤ q.machine.store.size
  ordered : p.machine.store.Ordered → q.machine.store.Ordered
  depth : q.machine.depth + q.levels = p.machine.depth + p.levels
  limit : q.machine.limit = p.machine.limit
  rest : q.final.Keeps q.machine.store.size q.final.store.size p.final

theorem Part.refl {p : Point} (hp : p.scope < p.machine.store.size) : p.Part p :=
  ⟨hp, Nat.le_refl _, id, rfl, rfl, .refl _ _ _⟩

theorem Part.trans {p q r : Point} (hq : p.Part q) (hr : q.Part r) : p.Part r where
  scope_lt := hr.scope_lt
  size_le := Nat.le_trans hq.size_le hr.size_le
  ordered ho := hr.ordered (hq.ordered ho)
  depth := hr.depth.trans hq.depth
  limit := hr.limit.trans hq.limit
  rest := by
    refine ⟨Nat.le_trans hr.rest.size_le hq.rest.size_le, fun id hlo hhi => ?_⟩
    rw [hq.rest.scope?_eq id (Nat.le_trans hr.size_le hlo) (Nat.lt_of_lt_of_le hhi hr.rest.size_le),
      hr.rest.scope?_eq id hlo hhi]

theorem Part.of_rest {n : Nat} {t t' : Term} {h : Nat} {m m' : Machine} {base : Nat} {added : Bindings}
    (hh : h < m.store.size) (e : m.Effect base h added m')
    (hrest : ∀ r m₁, (t'.evalWith (Term.evalBody n) h).run m' = (r, m₁) →
      m'.store.size ≤ m₁.store.size →
        m₁.Keeps m'.store.size m₁.store.size ((t.evalWith (Term.evalBody n) h).run m).2) :
    Part ⟨n, t, h, m⟩ ⟨n, t', h, m'⟩ := by
  have hh' : h < m'.store.size := Nat.lt_of_lt_of_le hh e.size_le
  refine ⟨hh', e.size_le, e.ordered, congrArg (· + n) e.depth, e.limit, ?_⟩
  obtain ⟨_, e', _⟩ := effect ⟨n, t', h, m'⟩ hh'
  rw [final, final, result_eq, result_eq] at *
  exact hrest _ _ rfl e'.size_le

theorem frame_effect {n : Nat} {callee : Term} {h : Nat} {m m₁ m₂ : Machine} {c : Closure} {args : List Term}
    (hh : h < m.store.size) (e : result ⟨n, callee, h, m⟩ = (.ok (.closure c), m₁))
    (hargs : (Term.bindWith (Term.evalBody n) args c.params h (m₁.frame c.scope).1).run
      (m₁.frame c.scope).2 = (.ok (), m₂)) :
    (∃ added, m.Effect m.store.size h added m₂) ∧ m.store.size ≤ m₁.store.size ∧
      (m₁.frame c.scope).1 < m₂.store.size := by
  obtain ⟨added, e₁⟩ := effect_of_result hh e
  have hsize := e₁.size_le
  have hnew := m₁.size_le_frame c.scope
  have hin := m₁.frame_lt_size c.scope
  have e₂ : m₁.Effect m.store.size h [] (m₁.frame c.scope).2 :=
    .adds (Store.extend_adds _ _) (fun ho => ho.extend _) hsize (by omega)
  obtain ⟨added', e₃⟩ : ∃ added', (m₁.frame c.scope).2.Effect m.store.size h added'
      ((Term.bindWith (Term.evalBody n) args c.params h (m₁.frame c.scope).1).run (m₁.frame c.scope).2).2 :=
    Term.bindWith_effect args c.params (by omega) (by omega) (by omega) (by omega)
  rw [hargs] at e₃
  exact ⟨⟨_, (e₁.trans e₂).trans e₃⟩, hsize, Nat.lt_of_lt_of_le hin e₃.size_le⟩

theorem Next.part {p q : Point} (h : p.Next q) (hp : p.scope < p.machine.store.size) : p.Part q := by
  cases h with
  | @binaryLeft n loc lhs op rhs h m =>
    refine .of_rest hp (.refl 0 h m) fun r m₁ hr hsize => ?_
    rw [Term.evalWith]
    refine Eval.keeps_rest hr fun l _ => Eval.keeps_bind (Term.evalWith_keeps rhs hp hsize (Nat.le_refl _)) ?_
    exact fun r m₂ _ _ => Eval.keeps_still (by rw [Eval.run_liftExcept])
  | @binaryRight n loc lhs op rhs h m v m' e =>
    obtain ⟨added, he⟩ := effect_of_result hp e
    refine .of_rest hp he fun r m₁ hr hsize => ?_
    rw [result_eq] at e
    rw [Term.evalWith, Eval.run_bind_ok e]
    exact Eval.keeps_rest hr fun r _ => Eval.keeps_still (by rw [Eval.run_liftExcept])
  | @letValue n loc name value next h m =>
    refine .of_rest hp (.refl 0 h m) fun r m₁ hr hsize => ?_
    rw [Term.evalWith]
    refine Eval.keeps_rest hr fun v _ => Eval.keeps_bind (.define (.inl hp) name.text v) ?_
    exact fun _ m₂ _ hsize' => Term.evalWith_keeps next hp (by omega) (by omega)
  | @letNext n loc name value next h m v m' e =>
    obtain ⟨added, he⟩ := effect_of_result hp e
    refine .of_rest hp (he.trans (.define _ h m' name.text v)) fun r m₁ hr hsize => ?_
    rw [result_eq] at e
    rw [Term.evalWith, Eval.run_bind_ok e, Eval.run_bind_ok (Eval.run_define h name.text v m'), hr]
    exact .refl _ _ m₁
  | @callee n loc callee args listed h m =>
    refine .of_rest hp (.refl 0 h m) fun r m₁ hr hsize => ?_
    rw [Term.evalWith]
    refine Eval.keeps_rest hr fun v _ => ?_
    cases v with
    | closure c =>
      dsimp only
      split
      · exact .refl _ _ m₁
      · refine Eval.keeps_bind (.adds (Store.extend_adds _ _) (Nat.le_refl _)) fun inner m₂ hinner hsize' => ?_
        obtain ⟨rfl, rfl⟩ : (m₁.frame c.scope).1 = inner ∧ (m₁.frame c.scope).2 = m₂ := by
          rw [m₁.run_extend] at hinner
          simpa using hinner
        have hnew := m₁.size_le_frame c.scope
        have hin := m₁.frame_lt_size c.scope
        refine Eval.keeps_bind (Term.bindWith_keeps args c.params hp (.inr hnew) (by omega) (by omega)) ?_
        exact fun _ m₃ _ hsize'' => Term.enter_keeps loc c.body (.inr hnew) (by omega) (by omega)
    | _ => exact Eval.keeps_refuse _ _
  | @argument n loc callee listed h m c m₁ m₂ before arg after e harity hbefore =>
    obtain ⟨⟨added, he⟩, -, hin⟩ := frame_effect hp e hbefore
    refine .of_rest hp he fun r m₃ hr hsize => ?_
    rw [result_eq] at e
    rw [Term.run_call e harity, Eval.run_bind, Term.run_bindWith_append (arg :: after) hbefore, ← Eval.run_bind,
      Term.bindWith, bind_assoc]
    refine Eval.keeps_rest hr fun v _ => ?_
    cases c.params.drop before.length with
    | nil => exact .refl _ _ m₃
    | cons name names =>
      have hdefine : m₃.Keeps m₂.store.size m₃.store.size
          ((Eval.define (m₁.frame c.scope).1 name v).run m₃).2 := .define (.inl hin) name v
      rw [bind_assoc]
      refine Eval.keeps_bind hdefine fun _ m₄ _ hsize' => ?_
      have hh : h < m₂.store.size := Nat.lt_of_lt_of_le hp he.size_le
      refine Eval.keeps_bind (Term.bindWith_keeps after names hh (.inl hin) (by omega) hsize') ?_
      exact fun _ m₅ _ hsize'' => Term.enter_keeps loc c.body (.inl hin) (by omega) (by omega)
  | @body p c m₁ q hcall =>
    cases hcall with
    | @intro n loc callee args listed h m c m₁ m₂ e harity hargs hdepth =>
      obtain ⟨⟨added, he⟩, -, hin⟩ := frame_effect hp e hargs
      refine ⟨hin, he.size_le, he.ordered, ?_, he.limit, ?_⟩
      · have hd : m₂.depth = m.depth := he.depth
        dsimp only
        omega
      · rw [result_eq] at e
        have hfinal : final ⟨n + 1, .call loc callee args listed, h, m⟩ =
            { final ⟨n, c.body, (m₁.frame c.scope).1, { m₂ with depth := m₂.depth + 1 }⟩ with
              depth := (final ⟨n, c.body, (m₁.frame c.scope).1, { m₂ with depth := m₂.depth + 1 }⟩).depth - 1 } := by
          rw [final, result_eq, Term.run_call e harity, Eval.run_bind_ok hargs, Eval.run_enter,
            if_neg (Nat.not_le.mpr hdepth)]
          rfl
        rw [hfinal]
        exact ⟨Nat.le_refl _, fun _ _ _ => rfl⟩
  | @condition n loc c t e h m =>
    refine .of_rest hp (.refl 0 h m) fun r m₁ hr hsize => ?_
    rw [Term.evalWith]
    refine Eval.keeps_rest hr fun v _ => ?_
    cases v with
    | bool b => cases b with
      | true => exact Term.evalWith_keeps t hp hsize (Nat.le_refl _)
      | false => exact Term.evalWith_keeps e hp hsize (Nat.le_refl _)
    | _ => exact Eval.keeps_refuse _ _
  | @thenBranch n loc c t e h m m' hc =>
    obtain ⟨added, he⟩ := effect_of_result hp hc
    refine .of_rest hp he fun r m₁ hr hsize => ?_
    rw [result_eq] at hc
    rw [Term.evalWith, Eval.run_bind_ok hc, hr]
    exact .refl _ _ m₁
  | @otherwise n loc c t e h m m' hc =>
    obtain ⟨added, he⟩ := effect_of_result hp hc
    refine .of_rest hp he fun r m₁ hr hsize => ?_
    rw [result_eq] at hc
    rw [Term.evalWith, Eval.run_bind_ok hc, hr]
    exact .refl _ _ m₁
  | @tupleFirst n loc a b h m =>
    refine .of_rest hp (.refl 0 h m) fun r m₁ hr hsize => ?_
    rw [Term.evalWith]
    refine Eval.keeps_rest hr fun x _ => Eval.keeps_bind (Term.evalWith_keeps b hp hsize (Nat.le_refl _)) ?_
    exact fun y m₂ _ _ => .refl _ _ m₂
  | @tupleSecond n loc a b h m v m' e =>
    obtain ⟨added, he⟩ := effect_of_result hp e
    refine .of_rest hp he fun r m₁ hr hsize => ?_
    rw [result_eq] at e
    rw [Term.evalWith, Eval.run_bind_ok e]
    exact Eval.keeps_rest hr fun y _ => .refl _ _ m₁
  | @first n loc t h m =>
    refine .of_rest hp (.refl 0 h m) fun r m₁ hr hsize => ?_
    rw [Term.evalWith]
    refine Eval.keeps_rest hr fun v _ => ?_
    cases v with
    | pair x y => exact .refl _ _ m₁
    | _ => exact Eval.keeps_refuse _ _
  | @second n loc t h m =>
    refine .of_rest hp (.refl 0 h m) fun r m₁ hr hsize => ?_
    rw [Term.evalWith]
    refine Eval.keeps_rest hr fun v _ => ?_
    cases v with
    | pair x y => exact .refl _ _ m₁
    | _ => exact Eval.keeps_refuse _ _
  | @print n loc t h m =>
    refine .of_rest hp (.refl 0 h m) fun r m₁ hr hsize => ?_
    rw [Term.evalWith]
    refine Eval.keeps_rest hr fun v _ => Eval.keeps_bind (Eval.keeps_print loc v) ?_
    exact fun _ m₂ _ _ => .refl _ _ m₂

theorem Visits.part {p q : Point} (h : p.Visits q) (hp : p.scope < p.machine.store.size) : p.Part q := by
  induction h with
  | refl => exact .refl hp
  | tail _ hnext ih => exact ih.trans (hnext.part ih.scope_lt)

end Point

end TreeWalk
