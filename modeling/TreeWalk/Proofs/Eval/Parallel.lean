import TreeWalk.Proofs.Eval.Effect
import TreeWalk.Proofs.Scope.Correspondence

/-!
# Evaluations in parallel

One term is evaluated on two machines, in two scopes that agree on its free names. The evaluations go in step: they
write the same and come to the same failure or to values whose closures correspond. The correspondence grows with every
closure that is made. No closure in it captured a scope where names are still bound, so it stays one.
-/

namespace TreeWalk

structure Together (live live' : Nat → Prop) (R : Closure → Closure → Prop) (m m' : Machine) : Prop where
  left : m.store.Keeps live fun c => ∃ c', R c c'
  right : m'.store.Keeps live' fun c' => ∃ c, R c c'
  corresponds : m.store.Corresponds m'.store Closure.outside R
  output : m.output = m'.output
  depth : m.depth = m'.depth
  limit : m.limit = m'.limit

/-- For each of `names`, both scopes see like values, or neither sees one. -/
def SeeAlike (R : Closure → Closure → Prop) (names : List String) (env env' : Env) : Prop :=
  ∀ x ∈ names, Option.Rel (Value.Like R) (env.lookup? x) (env'.lookup? x)

/-- The evaluations in `h` and in `h'` of a term with free names among `names` may start. -/
structure InStep (live live' : Nat → Prop) (R : Closure → Closure → Prop) (names : List String) (h h' : Nat)
    (m m' : Machine) : Prop extends Together live live' R m m' where
  live_left : live h
  live_right : live' h'
  alike : SeeAlike R names (m.store.env h) (m'.store.env h')

variable {live live' : Nat → Prop} {R R₁ : Closure → Closure → Prop} {names : List String} {h h' : Nat}
  {m m' m₁ m₁' : Machine} {added added' : Bindings}

namespace SeeAlike

variable {env env' : Env}

theorem mono (hsee : SeeAlike R names env env') (hR : R ≤ R₁) : SeeAlike R₁ names env env' :=
  fun x hx => rel_mono (hsee x hx) fun _ _ _ _ hvw => hvw.mono hR

theorem subset (hsee : SeeAlike R names env env') {fewer : List String} (hsub : fewer ⊆ names) :
    SeeAlike R fewer env env' := fun x hx => hsee x (hsub hx)

theorem define {s s' : Store} (hs : s.Ordered) (hs' : s'.Ordered) (hh : h < s.size) (hh' : h' < s'.size)
    (hsee : SeeAlike R names (s.env h) (s'.env h')) (name : String) {v v' : Value} (hv : v.Like R v') :
    SeeAlike R (name :: names) ((s.define h name v).env h) ((s'.define h' name v').env h') := by
  intro x hx
  by_cases hname : x = name
  · have hfound := (Store.lookup?_define_of_sees hs hh (.self h) name v).1 (Store.not_hides_self hs)
    have hfound' := (Store.lookup?_define_of_sees hs' hh' (.self h') name v').1 (Store.not_hides_self hs')
    rw [hname, hfound, hfound']
    exact .some hv
  · rw [Store.lookup?_define_of_ne hs h hname, Store.lookup?_define_of_ne hs' h' hname]
    exact hsee x ((List.mem_cons.mp hx).resolve_left hname)

end SeeAlike

theorem Together.touches (hm : Together live live' R m m') {s s' : Store} (ht : Store.Touches live m.store s)
    (ht' : Store.Touches live' m'.store s') : Together live live' R { m with store := s } { m' with store := s' } :=
  ⟨hm.left.touches ht, hm.right.touches ht', hm.corresponds.touches hm.left hm.right ht ht', hm.output, hm.depth,
    hm.limit⟩

namespace InStep

theorem lt_size (hm : InStep live live' R names h h' m m') : h < m.store.size := hm.left.live_lt h hm.live_left

theorem lt_size' (hm : InStep live live' R names h h' m m') : h' < m'.store.size := hm.right.live_lt h' hm.live_right

theorem subset (hm : InStep live live' R names h h' m m') {fewer : List String} (hsub : fewer ⊆ names) :
    InStep live live' R fewer h h' m m' := { hm with alike := hm.alike.subset hsub }

theorem define (hm : InStep live live' R names h h' m m') (name : String) {v v' : Value} (hv : v.Like R v') :
    InStep live live' R (name :: names) h h' { m with store := m.store.define h name v }
      { m' with store := m'.store.define h' name v' } := by
  refine ⟨hm.touches ?_ ?_, hm.live_left, hm.live_right, ?_⟩
  · exact hm.left.ordered.define_touches hm.live_left name v
  · exact hm.right.ordered.define_touches hm.live_right name v'
  · exact hm.alike.define hm.left.ordered hm.right.ordered hm.lt_size hm.lt_size' name hv

end InStep

/-- Run from `m` and `m'`, `x` and `y` end in step, with the same failure or with related results. What relates results
may depend on the correspondence they come with and on the machines. -/
def Parallel {α β : Type} (live live' : Nat → Prop) (R : Closure → Closure → Prop) (names : List String) (h h' : Nat)
    (m m' : Machine) (P : (Closure → Closure → Prop) → Machine → Machine → α → β → Prop) (x : Eval α) (y : Eval β) :
    Prop :=
  ∃ R₁, R ≤ R₁ ∧ InStep live live' R₁ names h h' (x.run m).2 (y.run m').2 ∧
    Matches (P R₁ (x.run m).2 (y.run m').2) (x.run m).1 (y.run m').1

def Likes (R : Closure → Closure → Prop) (_ _ : Machine) (v v' : Value) : Prop := v.Like R v'

namespace Parallel

variable {α β γ δ : Type} {P : (Closure → Closure → Prop) → Machine → Machine → α → β → Prop}
  {Q : (Closure → Closure → Prop) → Machine → Machine → γ → δ → Prop}

theorem pure {a : α} {b : β} (hm : InStep live live' R names h h' m m') (hab : P R m m' a b) :
    Parallel live live' R names h h' m m' P (Pure.pure a) (Pure.pure b) := ⟨R, le_rfl, hm, hab⟩

theorem fail (hm : InStep live live' R names h h' m m') (f : Fault) :
    Parallel live live' R names h h' m m' P (Eval.fail f) (Eval.fail f) := ⟨R, le_rfl, hm, rfl⟩

theorem of_runs {x : Eval α} {y : Eval β} {r : Except Failure α} {r' : Except Failure β} (hx : x.run m = (r, m₁))
    (hy : y.run m' = (r', m₁')) (hR : R ≤ R₁) (hm : InStep live live' R₁ names h h' m₁ m₁')
    (hr : Matches (P R₁ m₁ m₁') r r') : Parallel live live' R names h h' m m' P x y := by
  refine ⟨R₁, hR, ?_, ?_⟩
  · rw [hx, hy]
    exact hm
  · rw [hx, hy]
    exact hr

theorem bind {x : Eval α} {y : Eval β} {f : α → Eval γ} {g : β → Eval δ}
    (hxy : Parallel live live' R names h h' m m' P x y)
    (hf : ∀ R₁ a b m₁ m₁', R ≤ R₁ → x.run m = (.ok a, m₁) → y.run m' = (.ok b, m₁') →
      InStep live live' R₁ names h h' m₁ m₁' → P R₁ m₁ m₁' a b →
      Parallel live live' R₁ names h h' m₁ m₁' Q (f a) (g b)) :
    Parallel live live' R names h h' m m' Q (x >>= f) (y >>= g) := by
  obtain ⟨R₁, hR, hm, hresult⟩ := hxy
  rcases hx : x.run m with ⟨e | a, m₁⟩ <;> rcases hy : y.run m' with ⟨e' | b, m₁'⟩ <;> rw [hx, hy] at hm hresult
  · exact .of_runs (Eval.run_bind_error hx) (Eval.run_bind_error hy) hR hm hresult
  · exact hresult.elim
  · exact hresult.elim
  · obtain ⟨R₂, hR₂, hm₂, hresult₂⟩ := hf R₁ a b m₁ m₁' hR hx hy hm hresult
    exact .of_runs (Eval.run_bind_ok hx) (Eval.run_bind_ok hy) (hR.trans hR₂) hm₂ hresult₂

theorem after {x : Eval α} {y : Eval β} {f : α → Eval γ} {g : β → Eval δ} {a : α} {b : β}
    (hx : x.run m = (.ok a, m₁)) (hy : y.run m' = (.ok b, m₁')) (hR : R ≤ R₁)
    (hf : Parallel live live' R₁ names h h' m₁ m₁' Q (f a) (g b)) :
    Parallel live live' R names h h' m m' Q (x >>= f) (y >>= g) := by
  obtain ⟨R₂, hR₂, hm, hresult⟩ := hf
  exact .of_runs (Eval.run_bind_ok hx) (Eval.run_bind_ok hy) (hR.trans hR₂) hm hresult

theorem subset {x : Eval α} {y : Eval β} {fewer : List String} (hxy : Parallel live live' R names h h' m m' P x y)
    (hsub : fewer ⊆ names) : Parallel live live' R fewer h h' m m' P x y := by
  obtain ⟨R₁, hR, hm, hresult⟩ := hxy
  exact ⟨R₁, hR, hm.subset hsub, hresult⟩

theorem mono {x : Eval α} {y : Eval β} {live₁ live₁' : Nat → Prop}
    (hxy : Parallel live₁ live₁' R names h h' m m' P x y) (hlive : ∀ g, live g → live₁ g)
    (hlive' : ∀ g, live' g → live₁' g) (hh : live h) (hh' : live' h') :
    Parallel live live' R names h h' m m' P x y := by
  obtain ⟨R₁, hR, hm, hresult⟩ := hxy
  refine ⟨R₁, hR, ?_, hresult⟩
  exact { hm with left := hm.left.mono hlive, right := hm.right.mono hlive', live_left := hh, live_right := hh' }

theorem refuse (hm : InStep live live' R names h h' m m') {v v' : Value} (hv : v.Like R v') (f : Kind → Fault) :
    Parallel live live' R names h h' m m' P (do Eval.fail (f (← Eval.kindOf v)))
      (do Eval.fail (f (← Eval.kindOf v'))) := by
  have hkind : Parallel live live' R names h h' m m' (fun _ _ _ => Eq) (Eval.kindOf v) (Eval.kindOf v') := by
    refine .of_runs (Eval.run_kindOf v m) (Eval.run_kindOf v' m') le_rfl hm ?_
    rw [hv.kind?_eq]
    cases v'.kind? <;> rfl
  refine hkind.bind fun R₁ k k' m₁ m₁' _ _ _ hm₁ hk => ?_
  subst hk
  exact .fail hm₁ _

theorem print (hm : InStep live live' R names h h' m m') (loc : Location) {v v' : Value} (hv : v.Like R v') :
    Parallel live live' R names h h' m m' (fun _ _ _ _ _ => True) (Eval.print loc v) (Eval.print loc v') := by
  cases hw : m'.output.write? (v'.format ++ "\n".toUTF8) with
  | none =>
    have hrun : (Eval.print loc v).run m = (.error (.output loc m'.output.complaint), m) := by
      rw [Eval.run_print, hv.format_eq, hm.output, hw]
    have hrun' : (Eval.print loc v').run m' = (.error (.output loc m'.output.complaint), m') := by
      rw [Eval.run_print, hw]
    exact .of_runs hrun hrun' le_rfl hm rfl
  | some output =>
    have hrun : (Eval.print loc v).run m = (.ok (), { m with output }) := by
      rw [Eval.run_print, hv.format_eq, hm.output, hw]
    have hrun' : (Eval.print loc v').run m' = (.ok (), { m' with output }) := by rw [Eval.run_print, hw]
    exact .of_runs hrun hrun' le_rfl { hm with output := rfl } trivial

theorem capture (hm : InStep live live' R names h h' m m') (params : List String) (body : Term)
    (hnames : ∀ x ∈ body.free, x ∉ params → x ∈ names) :
    Parallel live live' R names h h' m m' Likes
      (do Pure.pure (.closure ⟨params, body, ← Eval.onStore (·.capture h)⟩))
      (do Pure.pure (.closure ⟨params, body, ← Eval.onStore (·.capture h')⟩)) := by
  have hplanted := Store.capture_planted hm.left.ordered hm.lt_size
  have hplanted' := Store.capture_planted hm.right.ordered hm.lt_size'
  have hmade := hm.toTogether.touches (hplanted.touches live) (hplanted'.touches live')
  have henv : (m.store.capture h).2.env (m.store.capture h).1 = m.store.env h := hplanted.around_eq
  have henv' : (m'.store.capture h').2.env (m'.store.capture h').1 = m'.store.env h' := hplanted'.around_eq
  have hgrow : R ≤ fun c c' =>
      R c c' ∨ c = ⟨params, body, (m.store.capture h).1⟩ ∧ c' = ⟨params, body, (m'.store.capture h').1⟩ :=
    fun _ _ => .inl
  refine .after (Eval.run_onStore _ m) (Eval.run_onStore _ m') hgrow (.pure ⟨⟨?_, ?_, ?_, hmade.output, hmade.depth,
    hmade.limit⟩, hm.live_left, hm.live_right, ?_⟩ (.closure (.inr ⟨rfl, rfl⟩)))
  · refine ⟨hmade.left.ordered, hmade.left.live_lt, ?_⟩
    rintro c ⟨c', hc | ⟨rfl, rfl⟩⟩
    · exact hmade.left.settled c ⟨c', hc⟩
    · exact hplanted.settled hm.left.live_lt rfl
  · refine ⟨hmade.right.ordered, hmade.right.live_lt, ?_⟩
    rintro c' ⟨c, hc | ⟨rfl, rfl⟩⟩
    · exact hmade.right.settled c' ⟨c, hc⟩
    · exact hplanted'.settled hm.right.live_lt rfl
  · refine hmade.corresponds.add rfl rfl fun x hx => ?_
    dsimp only
    rw [henv, henv']
    have hx := Closure.mem_outside.mp hx
    exact hm.alike x (hnames x hx.1 hx.2)
  · dsimp only
    rw [hplanted.adds.env_eq hm.left.ordered hplanted.ordered hm.lt_size,
      hplanted'.adds.env_eq hm.right.ordered hplanted'.ordered hm.lt_size']
    exact hm.alike.mono hgrow

end Parallel

/-- Beside the scopes `h` and `h'` of the callers there are frames of calls, which agree on `known`. -/
structure InFrames (live live' : Nat → Prop) (R : Closure → Closure → Prop) (names known : List String)
    (h h' inner inner' : Nat) (m m' : Machine) : Prop extends InStep live live' R names h h' m m' where
  inner_left : live inner
  inner_right : live' inner'
  beside_left : m.store.Beside h inner
  beside_right : m'.store.Beside h' inner'
  frames : SeeAlike R known (m.store.env inner) (m'.store.env inner')

namespace InFrames

variable {known : List String} {inner inner' : Nat}

theorem subset (hm : InFrames live live' R names known h h' inner inner' m m') {fewer : List String}
    (hsub : fewer ⊆ known) : InFrames live live' R names fewer h h' inner inner' m m' :=
  { hm with frames := hm.frames.subset hsub }

/-- What is done in the scopes of the callers does not show in the frames. -/
theorem of_effects (hm : InFrames live live' R names known h h' inner inner' m m') (hR : R ≤ R₁)
    (e : m.Effect m.store.size h added m₁) (e' : m'.Effect m'.store.size h' added' m₁')
    (hstep : InStep live live' R₁ names h h' m₁ m₁') :
    InFrames live live' R₁ names known h h' inner inner' m₁ m₁' := by
  refine ⟨hstep, hm.inner_left, hm.inner_right, hm.beside_left.of_effect hm.left.ordered e,
    hm.beside_right.of_effect hm.right.ordered e', ?_⟩
  rw [Store.env_congr hm.left.ordered hstep.left.ordered inner fun _ hg =>
      hm.beside_left.scope?_of_outer hm.left.ordered e hg,
    Store.env_congr hm.right.ordered hstep.right.ordered inner' fun _ hg =>
      hm.beside_right.scope?_of_outer hm.right.ordered e' hg]
  exact hm.frames.mono hR

theorem callers (hm : InFrames live live' R names known h h' inner inner' m m') (hR : R ≤ R₁)
    (e : m.Effect m.store.size inner added m₁) (e' : m'.Effect m'.store.size inner' added' m₁')
    (htogether : Together live live' R₁ m₁ m₁') : InStep live live' R₁ names h h' m₁ m₁' := by
  refine ⟨htogether, hm.live_left, hm.live_right, ?_⟩
  rw [Store.env_congr hm.left.ordered htogether.left.ordered h fun _ hg =>
      hm.beside_left.scope?_of_inner hm.left.ordered e hg,
    Store.env_congr hm.right.ordered htogether.right.ordered h' fun _ hg =>
      hm.beside_right.scope?_of_inner hm.right.ordered e' hg]
  exact hm.alike.mono hR

theorem inside (hm : InFrames live live' R names known h h' inner inner' m m') :
    InStep live live' R known inner inner' m m' :=
  ⟨hm.toTogether, hm.inner_left, hm.inner_right, hm.frames⟩

theorem define (hm : InFrames live live' R names known h h' inner inner' m m') (name : String) {v v' : Value}
    (hv : v.Like R v') :
    InFrames live live' R names (name :: known) h h' inner inner' { m with store := m.store.define inner name v }
      { m' with store := m'.store.define inner' name v' } := by
  have hinside := hm.inside.define name hv
  have hcallers := hm.callers le_rfl (.define _ inner m name v) (.define _ inner' m' name v') hinside.toTogether
  exact ⟨hcallers, hm.inner_left, hm.inner_right, hm.beside_left.define name v, hm.beside_right.define name v',
    hinside.alike⟩

end InFrames

theorem InStep.frames (hm : InStep live live' R names h h' m m') {c c' : Closure} (hc : R c c') :
    InFrames (fun g => live g ∨ g = (m.frame c.scope).1) (fun g => live' g ∨ g = (m'.frame c'.scope).1) R names
      c.outside h h' (m.frame c.scope).1 (m'.frame c'.scope).1 (m.frame c.scope).2 (m'.frame c'.scope).2 := by
  have hlt := (hm.left.settled c ⟨c', hc⟩).lt_size
  have hlt' := (hm.right.settled c' ⟨c, hc⟩).lt_size
  have hplanted : m.store.Planted (some (m.frame c.scope).1) (m.frame c.scope).2.store ([] :: m.store.env c.scope) :=
    Store.extend_planted hm.left.ordered hlt
  have hplanted' : m'.store.Planted (some (m'.frame c'.scope).1) (m'.frame c'.scope).2.store
      ([] :: m'.store.env c'.scope) := Store.extend_planted hm.right.ordered hlt'
  have henv : (m.frame c.scope).2.store.env (m.frame c.scope).1 = [] :: m.store.env c.scope := hplanted.around_eq
  have henv' : (m'.frame c'.scope).2.store.env (m'.frame c'.scope).1 = [] :: m'.store.env c'.scope :=
    hplanted'.around_eq
  have hcorresponds := hm.corresponds.touches hm.left hm.right (hplanted.touches live) (hplanted'.touches live')
  refine ⟨⟨⟨?_, ?_, hcorresponds, hm.output, hm.depth, hm.limit⟩, .inl hm.live_left, .inl hm.live_right, ?_⟩, .inr rfl,
    .inr rfl, m.frame_beside hm.left.ordered hm.lt_size hlt, m'.frame_beside hm.right.ordered hm.lt_size' hlt', ?_⟩
  · exact hm.left.adds hplanted.adds hplanted.ordered (m.size_le_frame _) (m.frame_lt_size _)
  · exact hm.right.adds hplanted'.adds hplanted'.ordered (m'.size_le_frame _) (m'.frame_lt_size _)
  · rw [hplanted.adds.env_eq hm.left.ordered hplanted.ordered hm.lt_size,
      hplanted'.adds.env_eq hm.right.ordered hplanted'.ordered hm.lt_size']
    exact hm.alike
  · rw [henv, henv']
    exact hm.corresponds.seen c c' hc

namespace Term

variable {n : Nat} {t : Term} {known : List String} {inner inner' : Nat}

/-- With `n` levels left, the evaluations of the term go in parallel in scopes that agree on its free names, and
possibly on more. -/
def Depends (n : Nat) (t : Term) : Prop :=
  ∀ live live' R names h h' m m', t.free ⊆ names → InStep live live' R names h h' m m' →
    Parallel live live' R names h h' m m' Likes (t.evalWith (evalBody n) h) (t.evalWith (evalBody n) h')

theorem Depends.bind {γ δ : Type} {Q : (Closure → Closure → Prop) → Machine → Machine → γ → δ → Prop}
    {f : Value → Eval γ} {g : Value → Eval δ} (ht : Depends n t) (hnames : t.free ⊆ names)
    (hm : InStep live live' R names h h' m m')
    (hf : ∀ R₁ v v' m₁ m₁' added added', R ≤ R₁ → m.Effect m.store.size h added m₁ →
      m'.Effect m'.store.size h' added' m₁' → InStep live live' R₁ names h h' m₁ m₁' → v.Like R₁ v' →
      Parallel live live' R₁ names h h' m₁ m₁' Q (f v) (g v')) :
    Parallel live live' R names h h' m m' Q (t.evalWith (evalBody n) h >>= f) (t.evalWith (evalBody n) h' >>= g) := by
  refine (ht live live' R names h h' m m' hnames hm).bind fun R₁ v v' m₁ m₁' hR hx hy hm₁ hv => ?_
  obtain ⟨added, e⟩ := Point.effect_of_result hm.lt_size ((Point.result_eq n t h m).trans hx)
  obtain ⟨added', e'⟩ := Point.effect_of_result hm.lt_size' ((Point.result_eq n t h' m').trans hy)
  exact hf R₁ v v' m₁ m₁' added added' hR e e' hm₁ hv

theorem bindWith_parallel (args : List Term) (hargs : ∀ arg ∈ args, Depends n arg) (hnames : freeOf args ⊆ names)
    (params : List String) (hlength : args.length = params.length)
    (hm : InFrames live live' R names known h h' inner inner' m m') :
    Parallel live live' R names h h' m m'
      (fun R₁ m₁ m₁' _ _ => InFrames live live' R₁ names (params ++ known) h h' inner inner' m₁ m₁')
      (bindWith (evalBody n) args params h inner) (bindWith (evalBody n) args params h' inner') := by
  induction args generalizing params known R m m' with
  | nil =>
    obtain rfl := List.length_eq_zero_iff.mp hlength.symm
    rw [bindWith, bindWith]
    exact .pure hm.toInStep hm
  | cons arg args ih =>
    cases params with
    | nil => exact absurd hlength (Nat.succ_ne_zero _)
    | cons name rest =>
      rw [freeOf, List.append_subset] at hnames
      rw [bindWith, bindWith]
      refine (hargs arg List.mem_cons_self).bind hnames.1 hm.toInStep
        fun R₁ v v' m₁ m₁' added added' hR e e' hm₁ hv => ?_
      have hframes := (hm.of_effects hR e e' hm₁).define name hv
      refine .after (Eval.run_define inner name v m₁) (Eval.run_define inner' name v' m₁') le_rfl ?_
      obtain ⟨R₂, hR₂, hm₂, hresult⟩ := ih (fun a ha => hargs a (List.mem_cons_of_mem _ ha)) hnames.2 rest
        (Nat.succ.inj hlength) hframes
      refine ⟨R₂, hR₂, hm₂, hresult.imp fun _ _ hframes₂ => hframes₂.subset ?_⟩
      intro x hx
      simp only [List.cons_append, List.mem_cons, List.mem_append] at hx ⊢
      tauto

theorem enter_parallel (hbodies : ∀ k, n = k + 1 → ∀ body, Depends k body) (loc : Location) (body : Term)
    (hbody : body.free ⊆ known) (hm : InFrames live live' R names known h h' inner inner' m m') :
    Parallel live live' R names h h' m m' Likes (Eval.enter loc (evalBody n body inner))
      (Eval.enter loc (evalBody n body inner')) := by
  by_cases hstop : m.limit ≤ m.depth
  · have hstop' : m'.limit ≤ m'.depth := hm.limit ▸ hm.depth ▸ hstop
    have hrun : (Eval.enter loc (evalBody n body inner)).run m = (.error (.fault (.exhausted loc m.limit)), m) := by
      rw [Eval.run_enter, if_pos hstop]
    have hrun' : (Eval.enter loc (evalBody n body inner')).run m' =
        (.error (.fault (.exhausted loc m.limit)), m') := by
      rw [Eval.run_enter, if_pos hstop', hm.limit]
    exact .of_runs hrun hrun' le_rfl hm.toInStep rfl
  · have hstop' : ¬m'.limit ≤ m'.depth := hm.limit ▸ hm.depth ▸ hstop
    have hdeeper : InStep live live' R known inner inner' { m with depth := m.depth + 1 }
        { m' with depth := m'.depth + 1 } := { hm.inside with depth := congrArg (· + 1) hm.depth }
    have hresult : Parallel live live' R known inner inner' { m with depth := m.depth + 1 }
        { m' with depth := m'.depth + 1 } Likes (evalBody n body inner) (evalBody n body inner') := by
      cases n with
      | zero => exact ⟨R, le_rfl, hdeeper, rfl⟩
      | succ k =>
        rw [evalBody, eval_eq]
        exact hbodies k rfl body live live' R known inner inner' _ _ hbody hdeeper
    obtain ⟨R₁, hR, hm₁, hmatches⟩ := hresult
    obtain ⟨added, e⟩ := bodies_keep n body inner { m with depth := m.depth + 1 } hm.beside_left.lt_size
    obtain ⟨added', e'⟩ := bodies_keep n body inner' { m' with depth := m'.depth + 1 } hm.beside_right.lt_size
    have hcallers := hm.callers hR e.level e'.level { hm₁.toTogether with depth := congrArg (· - 1) hm₁.depth }
    exact .of_runs (Eval.run_enter_of_lt loc _ (Nat.not_le.mp hstop)) (Eval.run_enter_of_lt loc _ (Nat.not_le.mp hstop'))
      hR hcallers hmatches

theorem call_depends (hbodies : ∀ k, n = k + 1 → ∀ body, Depends k body) (loc : Location) (callee : Term)
    (args : List Term) (listed : Bool) (hcallee : Depends n callee) (hargs : ∀ arg ∈ args, Depends n arg) :
    Depends n (.call loc callee args listed) := by
  intro live live' R names h h' m m' hnames hm
  rw [free, List.append_subset] at hnames
  rw [evalWith, evalWith]
  refine hcallee.bind hnames.1 hm fun R₁ v v' m₁ m₁' added added' hR e e' hm₁ hv => ?_
  cases hv with
  | @closure c c' hc =>
    have hparams := hm₁.corresponds.params c c' hc
    have hbody := hm₁.corresponds.body c c' hc
    dsimp only
    rw [Closure.arity, Closure.arity, ← hparams, ← hbody]
    by_cases harity : args.length = c.params.length
    · rw [if_neg (not_ne_iff.mpr harity), if_neg (not_ne_iff.mpr harity)]
      have hcall := (bindWith_parallel args hargs hnames.2 c.params harity (hm₁.frames hc)).bind
        (Q := Likes) fun R₂ _ _ m₂ m₂' _ _ _ _ hframes => enter_parallel hbodies loc c.body ?_ hframes
      · refine .after (m₁.run_extend c.scope) (m₁'.run_extend c'.scope) le_rfl (hcall.mono ?_ ?_ ?_ ?_)
        · exact fun _ => .inl
        · exact fun _ => .inl
        · exact hm₁.live_left
        · exact hm₁.live_right
      · -- the frames agree on the parameters, and the closures on the rest
        intro x hx
        by_cases hparam : x ∈ c.params
        · exact List.mem_append_left _ hparam
        · exact List.mem_append_right _ (Closure.mem_outside.mpr ⟨hx, hparam⟩)
    · rw [if_pos harity, if_pos harity]
      exact .fail hm₁ _
  | _ => exact .refuse hm₁ (by constructor <;> assumption) _

theorem evalWith_depends (hbodies : ∀ k, n = k + 1 → ∀ body, Depends k body) (t : Term) : Depends n t := by
  induction t using Term.inductionOn with
  | absent => exact fun live live' R names h h' m m' _ hm => .fail hm _
  | int loc k => exact fun live live' R names h h' m m' _ hm => .pure hm (.int k)
  | str loc s => exact fun live live' R names h h' m m' _ hm => .pure hm (.str s)
  | bool loc b => exact fun live live' R names h h' m m' _ hm => .pure hm (.bool b)
  | error loc message fullText => exact fun live live' R names h h' m m' _ hm => .fail hm _
  | var loc text =>
    intro live live' R names h h' m m' hnames hm
    have hname := hm.alike text (hnames (List.mem_singleton.mpr rfl))
    rw [evalWith, evalWith]
    refine .after (Eval.run_lookup? h text m) (Eval.run_lookup? h' text m') le_rfl ?_
    generalize (m.store.env h).lookup? text = found at hname ⊢
    generalize (m'.store.env h').lookup? text = found' at hname ⊢
    cases hname with
    | some hv => exact .pure hm hv
    | none => exact .fail hm _
  | binary loc lhs op rhs ihl ihr =>
    intro live live' R names h h' m m' hnames hm
    rw [free, List.append_subset] at hnames
    rw [evalWith, evalWith]
    refine ihl.bind hnames.1 hm fun R₁ l l' m₁ m₁' _ _ _ _ _ hm₁ hl => ?_
    refine ihr.bind hnames.2 hm₁ fun R₂ r r' m₂ m₂' _ _ hR _ _ hm₂ hr => ?_
    rw [(hl.mono hR).operate_eq hr]
    refine .of_runs (Eval.run_liftExcept _ m₂) (Eval.run_liftExcept _ m₂') le_rfl hm₂ ?_
    cases hresult : operate loc op l' r' with
    | error e => rfl
    | ok v =>
      refine Value.Like.of_closures fun c hc => ?_
      rw [closures_of_operate hresult] at hc
      cases hc
  | letIn loc name value next ihv ihn =>
    intro live live' R names h h' m m' hnames hm
    have hvalue : value.free ⊆ names := fun x hx => hnames (mem_free_letIn.mpr (.inl hx))
    have hnext : next.free ⊆ name.text :: names := by
      intro x hx
      by_cases hname : x = name.text
      · exact List.mem_cons.mpr (.inl hname)
      · exact List.mem_cons_of_mem _ (hnames (mem_free_letIn.mpr (.inr ⟨hx, hname⟩)))
    rw [evalWith, evalWith]
    refine ihv.bind hvalue hm fun R₁ v v' m₁ m₁' _ _ _ _ _ hm₁ hv => ?_
    refine .after (Eval.run_define h name.text v m₁) (Eval.run_define h' name.text v' m₁') le_rfl ?_
    exact (ihn _ _ _ _ h h' _ _ hnext (hm₁.define name.text hv)).subset (List.subset_cons_self _ _)
  | function loc params body _ =>
    intro live live' R names h h' m m' hnames hm
    rw [evalWith, evalWith]
    exact .capture hm _ body fun x hx hparam => hnames (mem_free_function.mpr ⟨hx, hparam⟩)
  | call loc callee args listed ihc iha => exact call_depends hbodies loc callee args listed ihc iha
  | ite loc c t e ihc iht ihe =>
    intro live live' R names h h' m m' hnames hm
    rw [free, List.append_subset, List.append_subset] at hnames
    rw [evalWith, evalWith]
    refine ihc.bind hnames.1 hm fun R₁ v v' m₁ m₁' _ _ _ _ _ hm₁ hv => ?_
    cases hv with
    | bool b => cases b with
      | true => exact iht live live' R₁ names h h' m₁ m₁' hnames.2.1 hm₁
      | false => exact ihe live live' R₁ names h h' m₁ m₁' hnames.2.2 hm₁
    | _ => exact .refuse hm₁ (by constructor <;> assumption) _
  | tuple loc a b iha ihb =>
    intro live live' R names h h' m m' hnames hm
    rw [free, List.append_subset] at hnames
    rw [evalWith, evalWith]
    refine iha.bind hnames.1 hm fun R₁ x x' m₁ m₁' _ _ _ _ _ hm₁ hx => ?_
    exact ihb.bind hnames.2 hm₁ fun R₂ y y' m₂ m₂' _ _ hR _ _ hm₂ hy => .pure hm₂ (.pair (hx.mono hR) hy)
  | first loc t ih =>
    intro live live' R names h h' m m' hnames hm
    rw [evalWith, evalWith]
    refine ih.bind hnames hm fun R₁ v v' m₁ m₁' _ _ _ _ _ hm₁ hv => ?_
    cases hv with
    | pair ha hb => exact .pure hm₁ ha
    | _ => exact .refuse hm₁ (by constructor <;> assumption) _
  | second loc t ih =>
    intro live live' R names h h' m m' hnames hm
    rw [evalWith, evalWith]
    refine ih.bind hnames hm fun R₁ v v' m₁ m₁' _ _ _ _ _ hm₁ hv => ?_
    cases hv with
    | pair ha hb => exact .pure hm₁ hb
    | _ => exact .refuse hm₁ (by constructor <;> assumption) _
  | print loc t ih =>
    intro live live' R names h h' m m' hnames hm
    rw [evalWith, evalWith]
    refine ih.bind hnames hm fun R₁ v v' m₁ m₁' _ _ _ _ _ hm₁ hv => ?_
    exact (Parallel.print hm₁ loc hv).bind fun R₂ _ _ m₂ m₂' hR _ _ hm₂ _ => .pure hm₂ (hv.mono hR)

theorem depends (n : Nat) (t : Term) : Depends n t := by
  induction n generalizing t with
  | zero => exact evalWith_depends (fun k hk => absurd hk (Nat.succ_ne_zero k).symm) t
  | succ n ih =>
    refine evalWith_depends (fun k hk body => ?_) t
    cases hk
    exact ih body

end Term

end TreeWalk
