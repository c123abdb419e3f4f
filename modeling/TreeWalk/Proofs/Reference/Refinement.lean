import TreeWalk.Proofs.Eval.Effect
import TreeWalk.Proofs.Reference.Readback

/-!
# Evaluation on a store refines the reference semantics

An evaluation on a sealed store goes step by step with the reference evaluation on what the store
reads back to. The two are in step when the scope of the evaluation reads back to the innermost scope
of the reference and the outputs are the same.
-/

namespace TreeWalk

/-- What the reference evaluation works on where the evaluation in scope `h` works on `m`. -/
def Machine.view (m : Machine) (h : ScopeId) : Reference.State := ⟨(m.store.contents h).headD [], m.output⟩

theorem Machine.view_congr {m m' : Machine} {h : ScopeId} (hs : m'.store.contents h = m.store.contents h)
    (ho : m'.output = m.output) : m'.view h = m.view h := by
  rw [view, view, hs, ho]

/-- Run from `m`, `x` keeps the store sealed and stays in step with `y`; the results are related by `R`, which
may read the machine they come with. -/
structure Simulates {α β : Type} (root live : Nat → Prop) (h : Nat) (m : Machine) (R : Machine → α → β → Prop)
    (x : Eval α) (y : Reference.Eval β) : Prop where
  sealed : (x.run m).2.store.Sealed root live
  result : Matches (R (x.run m).2) (x.run m).1 (y.run (m.view h)).1
  state : (y.run (m.view h)).2 = (x.run m).2.view h

namespace Simulates

variable {α β γ δ : Type} {root live : Nat → Prop} {h : Nat} {m : Machine} {R : Machine → α → β → Prop}
  {R' : Machine → γ → δ → Prop}

theorem pure {a : α} {b : β} (hs : m.store.Sealed root live) (hab : R m a b) :
    Simulates root live h m R (Pure.pure a) (Pure.pure b) := ⟨hs, hab, rfl⟩

theorem fail (hs : m.store.Sealed root live) (f : Fault) :
    Simulates root live h m R (Eval.fail f) (Reference.Eval.fail f) := ⟨hs, rfl, rfl⟩

theorem of_runs {x : Eval α} {y : Reference.Eval β} {r : Except Failure α} {r' : Except Failure β} {m₁ : Machine}
    (hx : x.run m = (r, m₁)) (hy : y.run (m.view h) = (r', m₁.view h)) (hs : m₁.store.Sealed root live)
    (hr : Matches (R m₁) r r') : Simulates root live h m R x y := by
  refine ⟨?_, ?_, ?_⟩
  · rw [hx]
    exact hs
  · rw [hx, hy]
    exact hr
  · rw [hx, hy]

theorem runs {x : Eval α} {y : Reference.Eval β} (hxy : Simulates root live h m R x y) :
    ∃ r r' m₁, x.run m = (r, m₁) ∧ y.run (m.view h) = (r', m₁.view h) ∧ m₁.store.Sealed root live ∧
      Matches (R m₁) r r' :=
  ⟨_, _, _, rfl, Prod.ext rfl hxy.state, hxy.sealed, hxy.result⟩

theorem bind {x : Eval α} {y : Reference.Eval β} {f : α → Eval γ} {g : β → Reference.Eval δ}
    (hxy : Simulates root live h m R x y)
    (hf : ∀ a b m₁, x.run m = (.ok a, m₁) → m₁.store.Sealed root live → R m₁ a b →
      Simulates root live h m₁ R' (f a) (g b)) : Simulates root live h m R' (x >>= f) (y >>= g) := by
  obtain ⟨r, r', m₁, hx, hy, hs, hr⟩ := hxy.runs
  cases r with
  | error e =>
    cases r' with
    | error e' => exact .of_runs (Eval.run_bind_error hx) (Reference.Eval.run_bind_error hy) hs hr
    | ok b => exact hr.elim
  | ok a =>
    obtain ⟨b, rfl, hab⟩ := hr.of_ok rfl
    obtain ⟨r₂, r₂', m₂, hx₂, hy₂, hs₂, hr₂⟩ := (hf a b m₁ hx hs hab).runs
    exact .of_runs ((Eval.run_bind_ok hx).trans hx₂) ((Reference.Eval.run_bind_ok hy).trans hy₂) hs₂ hr₂

theorem after {x : Eval α} {f : α → Eval γ} {y : Reference.Eval δ} {a : α} {m₁ : Machine}
    (hx : x.run m = (.ok a, m₁)) (hview : m₁.view h = m.view h)
    (hf : Simulates root live h m₁ R' (f a) y) : Simulates root live h m R' (x >>= f) y := by
  obtain ⟨r, r', m₂, hx₂, hy, hs, hr⟩ := hf.runs
  rw [hview] at hy
  exact .of_runs ((Eval.run_bind_ok hx).trans hx₂) hy hs hr

theorem map {R₁ : Machine → α → δ → Prop} {x : Eval α} {y : Reference.Eval β} {g : β → δ}
    (hx : Simulates root live h m R x y) (hR : ∀ m₁ a b, R m₁ a b → R₁ m₁ a (g b)) :
    Simulates root live h m R₁ x (do Pure.pure (g (← y))) := by
  rw [← bind_pure x]
  exact hx.bind fun a b m₁ _ hs hab => .pure hs (hR m₁ a b hab)

theorem mono {R₁ : Machine → α → β → Prop} {live' : Nat → Prop} {x : Eval α} {y : Reference.Eval β}
    (hx : Simulates root live h m R x y) (hlive : ∀ g, live' g → live g) (hR : ∀ m a b, R m a b → R₁ m a b) :
    Simulates root live' h m R₁ x y := by
  obtain ⟨hsealed, hresult, hstate⟩ := hx
  exact ⟨hsealed.mono hlive, hresult.imp fun a b hab => hR _ a b hab, hstate⟩

end Simulates

/-- `w` is what `v` reads back to, and nothing that happens to live scopes changes it. -/
def Reads (live : Nat → Prop) (m : Machine) (v : Value) (w : Reference.Value) : Prop :=
  m.store.Owns live v ∧ w = m.store.read v

theorem Simulates.refuse {α β : Type} {root live : Nat → Prop} {h : Nat} {m : Machine} {R : Machine → α → β → Prop}
    (hs : m.store.Sealed root live) {v : Value} {w : Reference.Value} (hw : m.store.read v = w) (f : Kind → Fault) :
    Simulates root live h m R (do Eval.fail (f (← Eval.kindOf v)))
      (do Reference.Eval.fail (f (← Reference.Eval.kindOf w))) := by
  subst hw
  have hkind : Simulates root live h m (fun _ k k' => k = k') (Eval.kindOf v)
      (Reference.Eval.kindOf (m.store.read v)) := by
    refine .of_runs (Eval.run_kindOf v m) (Reference.Eval.run_kindOf _ _) hs ?_
    rw [Store.kind?_read]
    cases v.kind? <;> rfl
  refine hkind.bind fun k k' m₁ _ hs₁ hk => ?_
  cases hk
  exact .fail hs₁ _

/-- The reference evaluation inside `outer` may start in step with the evaluation in scope `h`, with `n` levels
left below the limit. -/
structure Ready (root live : Nat → Prop) (h n limit : Nat) (outer : Reference.Env) (m : Machine) : Prop where
  sealed : m.store.Sealed root live
  live : live h
  seen : ∀ g, m.store.Sees h g → root g
  limit_eq : m.limit = limit
  levels : n = limit - m.depth
  outer_eq : (m.store.contents h).tail = outer

namespace Ready

variable {root live : Nat → Prop} {h n limit : Nat} {outer : Reference.Env} {m m₁ : Machine} {added : Bindings}

theorem lt_size (hm : Ready root live h n limit outer m) : h < m.store.size := hm.sealed.live_lt h hm.live

theorem ownsAll (hm : Ready root live h n limit outer m) : m.store.OwnsAll live (m.store.env h) :=
  hm.sealed.ownsAll hm.seen

theorem contents_eq (hm : Ready root live h n limit outer m) : m.store.contents h = (m.view h).scope :: outer := by
  rw [← hm.outer_eq]
  exact Store.contents_eq_cons hm.sealed.ordered hm.lt_size

theorem touches (hm : Ready root live h n limit outer m) (e : m.Effect m.store.size h added m₁) :
    Store.Touches live m.store m₁.store := e.touches hm.sealed.ordered hm.live

theorem of_effect (hm : Ready root live h n limit outer m) (e : m.Effect m.store.size h added m₁)
    (hs : m₁.store.Sealed root live) : Ready root live h n limit outer m₁ := by
  refine ⟨hs, hm.live, fun g hg => hm.seen g (e.sees hm.sealed.ordered hm.lt_size hg), e.limit.trans hm.limit_eq,
    e.depth ▸ hm.levels, ?_⟩
  obtain ⟨scope, hscope⟩ := Store.scope?_isSome hm.lt_size
  have htarget := e.target
  rw [hscope] at htarget
  have hbelow : ∀ g : Nat, g < h → m₁.store.scope? g = m.store.scope? g := fun g hg =>
    e.others g (Nat.lt_trans hg hm.lt_size) (Nat.ne_of_lt hg)
  rw [Store.tail_contents_touches hm.sealed.ordered (hm.touches e) hm.ownsAll hscope htarget rfl hbelow, hm.outer_eq]

theorem contents_planted (hm : Ready root live h n limit outer m) {id? : Option ScopeId} {s : Store} {env : Env}
    (hplanted : m.store.Planted id? s env) : s.contents h = m.store.contents h :=
  Store.contents_touches hm.sealed.ordered (hplanted.touches live) hm.ownsAll fun g hg =>
    hplanted.adds.scope?_eq g (Nat.lt_of_le_of_lt (hg.le hm.sealed.ordered) hm.lt_size)

end Ready

namespace Term

/-- The evaluation of a term with `n` levels left stays in step with the reference. -/
def Faithful (n : Nat) (t : Term) : Prop :=
  ∀ root live h limit outer m, Ready root live h n limit outer m →
    Simulates root live h m (Reads live) (t.evalWith (evalBody n) h)
      (Reference.evalWith (Reference.enter limit n) outer t)

variable {root live : Nat → Prop} {h n limit : Nat} {outer : Reference.Env} {m : Machine} {t : Term}

theorem Faithful.bind {γ δ : Type} {R : Machine → γ → δ → Prop} {f : Value → Eval γ}
    {g : Reference.Value → Reference.Eval δ} (ht : Faithful n t) (hm : Ready root live h n limit outer m)
    (hf : ∀ v m₁ added, m.Effect m.store.size h added m₁ → Ready root live h n limit outer m₁ →
      m₁.store.Owns live v → Simulates root live h m₁ R (f v) (g (m₁.store.read v))) :
    Simulates root live h m R (t.evalWith (evalBody n) h >>= f)
      (Reference.evalWith (Reference.enter limit n) outer t >>= g) := by
  refine (ht root live h limit outer m hm).bind fun v w m₁ hrun hs hreads => ?_
  obtain ⟨hv, rfl⟩ := hreads
  obtain ⟨added, e⟩ := Point.effect_of_result hm.lt_size ((Point.result_eq n t h m).trans hrun)
  exact hf v m₁ added e (hm.of_effect e hs) hv

end Term

/-- Beside the scope `h` of a caller there is the frame `inner` of a call, a live scope that reads back to `frame`
inside `env`. -/
structure Framed (root live : Nat → Prop) (h inner n limit : Nat) (outer : Reference.Env) (frame : Reference.Bindings)
    (env : Reference.Env) (m : Machine) : Prop where
  ready : Ready root live h n limit outer m
  live : live inner
  seen : ∀ g, m.store.Sees inner g → root g
  beside : m.store.Beside h inner
  contents_eq : m.store.contents inner = frame :: env

namespace Framed

variable {root live : Nat → Prop} {h inner n limit : Nat} {outer env : Reference.Env} {frame : Reference.Bindings}
  {m m₁ : Machine} {added : Bindings}

theorem contents_caller (hm : Framed root live h inner n limit outer frame env m)
    (e : m.Effect m.store.size inner added m₁) : m₁.store.contents h = m.store.contents h := by
  have ho := hm.ready.sealed.ordered
  exact Store.contents_touches ho (e.touches ho hm.live) hm.ready.ownsAll fun g hg =>
    hm.beside.scope?_of_inner ho e hg

theorem of_effect (hm : Framed root live h inner n limit outer frame env m)
    (e : m.Effect m.store.size h added m₁) (hready : Ready root live h n limit outer m₁) :
    Framed root live h inner n limit outer frame env m₁ := by
  have ho := hm.ready.sealed.ordered
  have hsame : ∀ g, m.store.Sees inner g → m₁.store.scope? g = m.store.scope? g := fun g hg =>
    hm.beside.scope?_of_outer ho e hg
  refine ⟨hready, hm.live, fun g hg => hm.seen g (hg.congr hsame), hm.beside.of_effect ho e, ?_⟩
  rw [Store.contents_touches ho (hm.ready.touches e) (hm.ready.sealed.ownsAll hm.seen) hsame, hm.contents_eq]

theorem define (hm : Framed root live h inner n limit outer frame env m) (name : String) {v : Value}
    (hv : m.store.Owns live v) :
    Framed root live h inner n limit outer ((name, m.store.read v) :: frame) env
      { m with store := m.store.define inner name v } := by
  have e : m.Effect m.store.size inner [(name, v)] { m with store := m.store.define inner name v } :=
    .define _ inner m name v
  refine ⟨⟨hm.ready.sealed.define hm.live name hv, hm.ready.live, fun g hg => hm.ready.seen g hg.of_define,
    hm.ready.limit_eq, hm.ready.levels, ?_⟩, hm.live, fun g hg => hm.seen g hg.of_define, hm.beside.define name v, ?_⟩
  · rw [hm.contents_caller e, hm.ready.outer_eq]
  · have hdefine := Store.contents_define hm.ready.sealed.ordered hm.beside.lt_size hm.live
      (hm.ready.sealed.ownsAll hm.seen) name hv
    rw [hm.contents_eq] at hdefine
    exact hdefine

end Framed

namespace Simulates

variable {root live : Nat → Prop} {h n limit : Nat} {outer : Reference.Env} {m : Machine}

theorem lift {α β : Type} {R : Machine → α → β → Prop} (hs : m.store.Sealed root live) {r : Except Failure α}
    {r' : Except Failure β} (hr : Matches (R m) r r') : Simulates root live h m R (liftExcept r) (liftExcept r') :=
  .of_runs (Eval.run_liftExcept r m) (Reference.Eval.run_liftExcept r' _) hs hr

theorem lookup (hm : Ready root live h n limit outer m) (name : String) :
    Simulates root live h m
      (fun m₁ found env => Reference.Env.lookup? env name = found.map m₁.store.read ∧
        ∀ v, found = some v → m₁.store.Owns live v)
      (Eval.lookup? h name) (Reference.Eval.env outer) := by
  refine ⟨hm.sealed, ⟨?_, fun v hv => ?_⟩, rfl⟩
  · rw [← hm.contents_eq]
    exact Store.lookup?_contents _ _ name
  · exact hm.ownsAll.owns_of_lookup? hv

theorem define (hm : Ready root live h n limit outer m) (name : String) {v : Value} (hv : m.store.Owns live v) :
    Simulates root live h m (fun m₁ _ _ => Ready root live h n limit outer m₁) (Eval.define h name v)
      (Reference.Eval.define name (m.store.read v)) := by
  have hsealed := hm.sealed.define hm.live name hv
  refine ⟨hsealed, hm.of_effect (.define _ h m name v) hsealed, ?_⟩
  have hview : Machine.view { m with store := m.store.define h name v } h =
      ⟨(name, m.store.read v) :: (m.view h).scope, m.output⟩ := by
    rw [Machine.view, Store.contents_define hm.sealed.ordered hm.lt_size hm.live hm.ownsAll name hv]
    rfl
  exact hview.symm

theorem print (hs : m.store.Sealed root live) (loc : Location) (v : Value) :
    Simulates root live h m (fun m₁ _ _ => m₁.store = m.store) (Eval.print loc v)
      (Reference.Eval.print loc (m.store.read v)) := by
  have hout : (m.view h).output = m.output := rfl
  cases hw : m.output.write? (v.format ++ "\n".toUTF8) with
  | none =>
    have hrun : (Eval.print loc v).run m = (.error (.output loc m.output.complaint), m) := by
      rw [Eval.run_print, hw]
    have hrun' : (Reference.Eval.print loc (m.store.read v)).run (m.view h) =
        (.error (.output loc m.output.complaint), m.view h) := by
      rw [Reference.Eval.run_print, Store.format_read, hout, hw]
    exact .of_runs hrun hrun' hs rfl
  | some output =>
    have hrun : (Eval.print loc v).run m = (.ok (), { m with output }) := by rw [Eval.run_print, hw]
    have hrun' : (Reference.Eval.print loc (m.store.read v)).run (m.view h) =
        (.ok (), { m.view h with output }) := by
      rw [Reference.Eval.run_print, Store.format_read, hout, hw]
    exact .of_runs hrun hrun' hs rfl

end Simulates

namespace Term

variable {root live : Nat → Prop} {h inner n limit : Nat} {outer env : Reference.Env} {frame : Reference.Bindings}
  {m : Machine}

theorem bindWith_simulates (args : List Term) (hargs : ∀ arg ∈ args, Faithful n arg) (params : List String)
    (hlength : args.length ≤ params.length) (hm : Framed root live h inner n limit outer frame env m) :
    Simulates root live h m
      (fun m₁ _ values => Framed root live h inner n limit outer ((params.zip values).reverse ++ frame) env m₁)
      (bindWith (evalBody n) args params h inner) (Reference.evalArgs (Reference.enter limit n) outer args) := by
  induction args generalizing params frame m with
  | nil =>
    rw [bindWith, Reference.evalArgs]
    exact .pure hm.ready.sealed (by simpa using hm)
  | cons arg args ih =>
    cases params with
    | nil => exact absurd hlength (Nat.not_succ_le_zero _)
    | cons name names =>
      rw [bindWith, Reference.evalArgs]
      refine (hargs arg List.mem_cons_self).bind hm.ready fun v m₁ added e hready hv => ?_
      have hm₁ := hm.of_effect e hready
      have hm₂ := hm₁.define name hv
      refine .after (Eval.run_define inner name v m₁) ?_ ?_
      · exact Machine.view_congr (hm₁.contents_caller (.define _ inner m₁ name v)) rfl
      · have hrest := ih (fun a ha => hargs a (List.mem_cons_of_mem _ ha)) names
          (Nat.le_of_succ_le_succ hlength) hm₂
        refine hrest.map fun m₃ _ values hm₃ => ?_
        simpa using hm₃

theorem enter_simulates (hbodies : ∀ k, n = k + 1 → ∀ body, Faithful k body) (loc : Location) (body : Term)
    (hm : Framed root live h inner n limit outer frame env m) :
    Simulates root live h m (Reads live) (Eval.enter loc (evalBody n body inner))
      (Reference.Eval.elsewhere (Reference.enter limit n loc body frame env)) := by
  have hlevels := hm.ready.levels
  have hlimit := hm.ready.limit_eq
  by_cases hstop : m.limit ≤ m.depth
  · obtain rfl : n = 0 := by omega
    have hrun : (Eval.enter loc (evalBody 0 body inner)).run m = (.error (.fault (.exhausted loc m.limit)), m) := by
      rw [Eval.run_enter, if_pos hstop]
    rw [hlimit] at hrun
    exact .of_runs hrun rfl hm.ready.sealed rfl
  · obtain ⟨k, rfl⟩ : ∃ k, n = k + 1 := ⟨limit - m.depth - 1, by omega⟩
    have hready : Ready root live inner k limit env { m with depth := m.depth + 1 } := by
      refine ⟨hm.ready.sealed, hm.live, hm.seen, hlimit, ?_, ?_⟩
      · dsimp only
        omega
      · rw [hm.contents_eq, List.tail_cons]
    have hview : Machine.view { m with depth := m.depth + 1 } inner = ⟨frame, m.output⟩ := by
      rw [Machine.view, hm.contents_eq, List.headD_cons]
    obtain ⟨r, r', m₁, hx, hy, hs, hr⟩ := (hbodies k rfl body root live inner limit env _ hready).runs
    rw [hview] at hy
    have hbody : (evalBody (k + 1) body inner).run { m with depth := m.depth + 1 } = (r, m₁) := by
      rw [evalBody, eval_eq, hx]
    obtain ⟨added, e⟩ := bodies_keep (k + 1) body inner { m with depth := m.depth + 1 } hm.beside.lt_size
    rw [hbody] at e
    have hrun : (Eval.enter loc (evalBody (k + 1) body inner)).run m =
        (r, { m₁ with depth := m₁.depth - 1 }) := by
      rw [Eval.run_enter_of_lt loc _ (Nat.not_le.mp hstop), hbody]
    have hcaller := hm.contents_caller e.level
    have hafter : Machine.view { m₁ with depth := m₁.depth - 1 } h = { m.view h with output := m₁.output } :=
      congrArg (fun contents => Reference.State.mk (List.headD contents []) m₁.output) hcaller
    have hout : (m.view h).output = m.output := rfl
    refine .of_runs hrun ?_ hs hr
    rw [Reference.Eval.run_elsewhere, Reference.enter_succ, hout, hy, hafter]
    rfl

theorem frame_framed (hm : Ready root live h n limit outer m) {c : Closure} (hc : m.store.Owned live c) :
    Framed root (fun g => live g ∨ g = (m.frame c.scope).1) h (m.frame c.scope).1 n limit outer []
      (m.store.contents c.scope) (m.frame c.scope).2 := by
  have hplanted : m.store.Planted (some (m.frame c.scope).1) (m.frame c.scope).2.store
      ([] :: m.store.env c.scope) := Store.extend_planted hm.sealed.ordered hc.lt_size
  have howns := (hc.ownsAll hm.sealed.ordered).cons_nil
  have hsees : ∀ g, (m.frame c.scope).2.store.Sees h g → m.store.Sees h g := fun g hg =>
    hplanted.adds.sees hm.sealed.ordered hm.lt_size hg
  refine ⟨⟨?_, .inl hm.live, fun g hg => hm.seen g (hsees g hg), hm.limit_eq, hm.levels, ?_⟩, .inr rfl, fun g hg => ?_,
    m.frame_beside hm.sealed.ordered hm.lt_size hc.lt_size, ?_⟩
  · refine (hplanted.sealed hm.sealed howns).mono fun g hg => hg.imp id ?_
    rintro rfl
    exact ⟨m.size_le_frame c.scope, m.frame_lt_size c.scope⟩
  · rw [hm.contents_planted hplanted, hm.outer_eq]
  · exact hm.sealed.to_come g (hplanted.fresh _ g rfl hg)
  · exact hplanted.contents_eq hm.sealed.ordered howns

theorem call_faithful (hbodies : ∀ k, n = k + 1 → ∀ body, Faithful k body) (loc : Location) (callee : Term)
    (args : List Term) (listed : Bool) (hcallee : Faithful n callee) (hargs : ∀ arg ∈ args, Faithful n arg) :
    Faithful n (.call loc callee args listed) := by
  intro root live h limit outer m hm
  rw [evalWith, Reference.evalWith]
  refine hcallee.bind hm fun v m₁ added e hm₁ hv => ?_
  cases v with
  | closure c =>
    have hc : m₁.store.Owned live c := hv c List.mem_cons_self
    have hframed := frame_framed hm₁ hc
    rw [Store.read_closure hm₁.sealed.ordered hc]
    dsimp only
    rw [Closure.arity]
    by_cases harity : args.length = c.params.length
    · rw [if_neg (not_ne_iff.mpr harity), if_neg (not_ne_iff.mpr harity)]
      have hcall := (bindWith_simulates args hargs c.params (Nat.le_of_eq harity) hframed).bind
        fun _ values m₃ _ _ hm₃ => enter_simulates hbodies loc c.body (List.append_nil _ ▸ hm₃)
      refine .after (m₁.run_extend c.scope) ?_ (hcall.mono (fun g hg => .inl hg) ?_)
      · exact Machine.view_congr (hm₁.contents_planted (Store.extend_planted hm₁.sealed.ordered hc.lt_size)) rfl
      · rintro m₃ v w ⟨hv, hw⟩
        exact ⟨fun d hd => (hv d hd).mono fun g hg => .inl hg, hw⟩
    · rw [if_pos harity, if_pos harity]
      exact .fail hm₁.sealed _
  | _ => exact .refuse hm₁.sealed rfl _

theorem evalWith_faithful (hbodies : ∀ k, n = k + 1 → ∀ body, Faithful k body) (t : Term) : Faithful n t := by
  induction t using Term.inductionOn with
  | absent => exact fun root live h limit outer m hm => .fail hm.sealed _
  | int loc k => exact fun root live h limit outer m hm => .pure hm.sealed ⟨by rintro c ⟨⟩, rfl⟩
  | str loc s => exact fun root live h limit outer m hm => .pure hm.sealed ⟨by rintro c ⟨⟩, rfl⟩
  | bool loc b => exact fun root live h limit outer m hm => .pure hm.sealed ⟨by rintro c ⟨⟩, rfl⟩
  | error loc message fullText => exact fun root live h limit outer m hm => .fail hm.sealed _
  | var loc text =>
    intro root live h limit outer m hm
    rw [evalWith, Reference.evalWith]
    refine (Simulates.lookup hm text).bind fun found env m₁ _ hs hfound => ?_
    obtain ⟨hlookup, hv⟩ := hfound
    rw [hlookup]
    cases found with
    | none => exact .fail hs _
    | some v => exact .pure hs ⟨hv v rfl, rfl⟩
  | binary loc lhs op rhs ihl ihr =>
    intro root live h limit outer m hm
    rw [evalWith, Reference.evalWith]
    refine ihl.bind hm fun l m₁ _ _ hm₁ hl => ihr.bind hm₁ fun r m₂ _ e hm₂ hr => ?_
    rw [← Store.read_touches hm₁.sealed.ordered (hm₁.touches e) hl, Store.operate_read]
    refine .lift hm₂.sealed ?_
    cases hresult : operate loc op l r with
    | error e => rfl
    | ok v =>
      refine ⟨fun c hc => ?_, rfl⟩
      rw [closures_of_operate hresult] at hc
      cases hc
  | letIn loc name value next ihv ihn =>
    intro root live h limit outer m hm
    rw [evalWith, Reference.evalWith]
    refine ihv.bind hm fun v m₁ _ _ hm₁ hv => ?_
    refine (Simulates.define hm₁ name.text hv).bind fun _ _ m₂ _ _ hm₂ => ?_
    exact ihn root live h limit outer m₂ hm₂
  | function loc params body _ =>
    intro root live h limit outer m hm
    rw [evalWith, Reference.evalWith]
    have hplanted := Store.capture_planted hm.sealed.ordered hm.lt_size
    have hsealed := (hplanted.sealed hm.sealed hm.ownsAll).mono fun g hg => .inl hg
    have howned : (m.store.capture h).2.Owned live ⟨params.map Parameter.text, body, (m.store.capture h).1⟩ :=
      hplanted.owned hm.sealed hm.ownsAll rfl
    have hsame := hm.contents_planted hplanted
    have hview : Machine.view { m with store := (m.store.capture h).2 } h = m.view h :=
      Machine.view_congr hsame rfl
    refine .after (Eval.run_onStore _ m) hview ⟨hsealed, ⟨?_, ?_⟩, rfl⟩
    · rintro c hc
      obtain rfl := List.mem_singleton.mp hc
      exact howned
    · have hread := Store.read_closure hsealed.ordered howned
      have hcaptured : (m.store.capture h).2.contents (m.store.capture h).1 = (m.view h).scope :: outer :=
        (hplanted.contents_eq hm.sealed.ordered hm.ownsAll).trans hm.contents_eq
      rw [hcaptured, ← hview] at hread
      exact hread.symm
  | call loc callee args listed ihc iha => exact call_faithful hbodies loc callee args listed ihc iha
  | ite loc c t e ihc iht ihe =>
    intro root live h limit outer m hm
    rw [evalWith, Reference.evalWith]
    refine ihc.bind hm fun v m₁ _ _ hm₁ _ => ?_
    cases v with
    | bool b => cases b with
      | true => exact iht root live h limit outer m₁ hm₁
      | false => exact ihe root live h limit outer m₁ hm₁
    | closure k =>
      obtain ⟨env, hread⟩ := m₁.store.exists_read_closure k
      rw [hread]
      exact .refuse hm₁.sealed hread _
    | _ => exact .refuse hm₁.sealed rfl _
  | tuple loc a b iha ihb =>
    intro root live h limit outer m hm
    rw [evalWith, Reference.evalWith]
    refine iha.bind hm fun x m₁ _ _ hm₁ hx => ihb.bind hm₁ fun y m₂ _ e hm₂ hy => ?_
    rw [← Store.read_touches hm₁.sealed.ordered (hm₁.touches e) hx]
    have hx₂ := hx.touches hm₁.sealed.ordered (hm₁.touches e)
    exact .pure hm₂.sealed ⟨fun c hc => (List.mem_append.mp hc).elim (hx₂ c) (hy c), rfl⟩
  | first loc t ih =>
    intro root live h limit outer m hm
    rw [evalWith, Reference.evalWith]
    refine ih.bind hm fun v m₁ _ _ hm₁ hv => ?_
    cases v with
    | pair x y => exact .pure hm₁.sealed ⟨fun c hc => hv c (List.mem_append_left _ hc), rfl⟩
    | closure c =>
      obtain ⟨env, hread⟩ := m₁.store.exists_read_closure c
      rw [hread]
      exact .refuse hm₁.sealed hread _
    | _ => exact .refuse hm₁.sealed rfl _
  | second loc t ih =>
    intro root live h limit outer m hm
    rw [evalWith, Reference.evalWith]
    refine ih.bind hm fun v m₁ _ _ hm₁ hv => ?_
    cases v with
    | pair x y => exact .pure hm₁.sealed ⟨fun c hc => hv c (List.mem_append_right _ hc), rfl⟩
    | closure c =>
      obtain ⟨env, hread⟩ := m₁.store.exists_read_closure c
      rw [hread]
      exact .refuse hm₁.sealed hread _
    | _ => exact .refuse hm₁.sealed rfl _
  | print loc t ih =>
    intro root live h limit outer m hm
    rw [evalWith, Reference.evalWith]
    refine ih.bind hm fun v m₁ _ _ hm₁ hv => ?_
    refine (Simulates.print hm₁.sealed loc v).bind fun _ _ m₂ _ hs hstore => ?_
    rw [← hstore] at hv ⊢
    exact .pure hs ⟨hv, rfl⟩

theorem faithful (n : Nat) (t : Term) : Faithful n t := by
  induction n generalizing t with
  | zero => exact evalWith_faithful (fun k hk => absurd hk (Nat.succ_ne_zero k).symm) t
  | succ n ih =>
    refine evalWith_faithful (fun k hk body => ?_) t
    cases hk
    exact ih body

end Term

namespace Point

variable (p : Point) {root live : Nat → Prop}

theorem simulates (hs : p.machine.store.Sealed root live) (hl : live p.scope)
    (hroot : ∀ g, p.machine.store.Sees p.scope g → root g)
    (hlevels : p.levels = p.machine.limit - p.machine.depth) :
    Simulates root live p.scope p.machine (Reads live) (p.term.evalWith (Term.evalBody p.levels) p.scope)
      (Reference.evalWith (Reference.enter p.machine.limit p.levels)
        (p.machine.store.contents p.scope).tail p.term) :=
  Term.faithful p.levels p.term root live p.scope p.machine.limit _ p.machine ⟨hs, hl, hroot, rfl, hlevels, rfl⟩

theorem sealed (hs : p.machine.store.Sealed root live) (hl : live p.scope)
    (hroot : ∀ g, p.machine.store.Sees p.scope g → root g)
    (hlevels : p.levels = p.machine.limit - p.machine.depth) :
    p.final.store.Sealed root live ∧ ∀ v, p.result.1 = .ok v → p.final.store.Owns live v := by
  obtain ⟨hsealed, hresult, -⟩ := p.simulates hs hl hroot hlevels
  obtain ⟨n, t, h, m⟩ := p
  rw [← result_eq] at hsealed hresult
  refine ⟨hsealed, fun v hv => ?_⟩
  obtain ⟨w, -, hreads⟩ := hresult.of_ok hv
  exact hreads.1

/-- An evaluation gives what the reference semantics gives on what the scope reads back to. -/
theorem refines (hs : p.machine.store.Sealed root live) (hl : live p.scope)
    (hroot : ∀ g, p.machine.store.Sees p.scope g → root g)
    (hlevels : p.levels = p.machine.limit - p.machine.depth) :
    Reference.evaluate p.machine.limit p.machine.depth p.term (p.machine.store.contents p.scope)
        p.machine.output =
      (p.result.1.map p.final.store.read, p.final.output, p.final.store.contents p.scope) := by
  obtain ⟨hsealed, hresult, hstate⟩ := p.simulates hs hl hroot hlevels
  obtain ⟨added, e, -⟩ := p.effect (hs.live_lt _ hl)
  obtain ⟨n, t, h, m⟩ := p
  obtain rfl : n = m.limit - m.depth := hlevels
  have hready : Ready root live h _ m.limit (m.store.contents h).tail m := ⟨hs, hl, hroot, rfl, rfl, rfl⟩
  rw [← result_eq] at hsealed hresult hstate
  have hcontents := (hready.of_effect e hsealed).contents_eq
  have hreads := hresult.eq_map fun v w hvw => hvw.2
  change (Prod.fst (Reference.Eval.run _ (m.view h)), (Prod.snd (Reference.Eval.run _ (m.view h))).output,
    (Prod.snd (Reference.Eval.run _ (m.view h))).scope :: _) = _
  rw [hcontents, hreads, hstate]
  rfl

end Point

end TreeWalk
