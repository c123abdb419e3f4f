import TreeWalk.Proofs.Eval.Parallel
import TreeWalk.Proofs.Session.Custody

/-!
# What a term does not mention

Where scopes agree on the free names of a term, its evaluations have the same output and related outcomes, so bindings
of other names make no difference. This asks of a scope that no closure that is found from it captured it: of such a
closure, a `let` in the scope changes what it sees. The scopes that a caller holds are all uncaptured; a scope that was
captured can only be had from the closure.
-/

namespace TreeWalk

namespace Store

variable {s s' : Store} {h h' g : ScopeId}

theorem Uncaptured.inStep {m m' : Machine} {names : List String} (hs : m.store.Ordered) (hs' : m'.store.Ordered)
    (hh : m.store.Uncaptured h) (hh' : m'.store.Uncaptured h') (houtput : m.output = m'.output)
    (hdepth : m.depth = m'.depth) (hlimit : m.limit = m'.limit)
    (hagree : ∀ x ∈ names, m.store.Agree m'.store h h' x) :
    InStep (· = h) (· = h')
      (fun c c' => m.store.RelatedOn Closure.outside m'.store (.closure c) (.closure c') ∧
        m.store.LeadsTo h c ∧ m'.store.LeadsTo h' c')
      names h h' m m' := by
  refine ⟨⟨⟨hs, ?_, ?_⟩, ⟨hs', ?_, ?_⟩, corresponds_found hs hs', houtput, hdepth, hlimit⟩, rfl, rfl,
    fun x hx => (hagree x hx).found hs hs'⟩
  · rintro _ rfl
    exact hh.lt_size
  · rintro c ⟨c', -, hc, -⟩
    exact hh.settled c hc
  · rintro _ rfl
    exact hh'.lt_size
  · rintro c' ⟨c, -, -, hc'⟩
    exact hh'.settled c' hc'

theorem Uncaptured.inStep_define {m : Machine} {names : List String} (hs : m.store.Ordered)
    (hh : m.store.Uncaptured h) (hg : ∀ c, m.store.LeadsTo h c → ¬m.store.Sees c.scope g) {name : String}
    (hname : name ∉ names) (v : Value) :
    InStep (· = h) (· = h) (fun c c' => c = c' ∧ m.store.LeadsTo h c) names h h m
      { m with store := m.store.define g name v } := by
  have hsize : (m.store.define g name v).size = m.store.size := size_define m.store g name v
  refine ⟨⟨⟨hs, ?_, ?_⟩, ⟨hs.define g name v, ?_, ?_⟩, ⟨?_, ?_, ?_⟩, rfl, rfl, rfl⟩, rfl, rfl, fun x hx => ?_⟩
  · rintro _ rfl
    exact hh.lt_size
  · rintro c ⟨_, rfl, hc⟩
    exact hh.settled c hc
  · rintro _ rfl
    exact hsize ▸ hh.lt_size
  · rintro _ ⟨c, rfl, hc⟩
    refine ⟨hsize ▸ (hh.settled c hc).lt_size, fun k hk => (hh.settled c hc).not_live k hk.of_define⟩
  · rintro c _ ⟨rfl, -⟩
    rfl
  · rintro c _ ⟨rfl, -⟩
    rfl
  · rintro c _ ⟨rfl, hc⟩ x -
    dsimp only
    rw [env_define_of_not_sees hs (hg c hc)]
    exact rel_self fun u hu d hd => ⟨rfl, hc.trans (leadsTo_of_lookup? hs hu hd)⟩
  · dsimp only
    have hne : x ≠ name := fun heq => hname (heq ▸ hx)
    rw [lookup?_define_of_ne hs g hne]
    exact rel_self fun u hu d hd => ⟨rfl, leadsTo_of_lookup? hs hu hd⟩

end Store

namespace Interpreter

variable {i j : Interpreter} {h g : Nat} {t : Term} {names : List String}

theorem evaluate_parallel {live live' : Nat → Prop} {R : Closure → Closure → Prop}
    (hm : InStep live live' R names h g i.machine j.machine) (hnames : t.free ⊆ names) :
    Matches ((i.evaluate t (some h)).2.machine.store.Related (j.evaluate t (some g)).2.machine.store)
      (i.evaluate t (some h)).1 (j.evaluate t (some g)).1 ∧
    (i.evaluate t (some h)).2.machine.output = (j.evaluate t (some g)).2.machine.output ∧
    ∀ x ∈ names, (i.evaluate t (some h)).2.machine.store.Agree (j.evaluate t (some g)).2.machine.store h g x := by
  have hlevels : i.machine.limit - i.machine.depth = j.machine.limit - j.machine.depth := by rw [hm.limit, hm.depth]
  have hrun : (t.evalWith (Term.evalBody (i.machine.limit - i.machine.depth)) h).run i.machine =
      ((i.evaluate t (some h)).1, (i.evaluate t (some h)).2.machine) := (Point.result_eq _ t h i.machine).symm
  have hrun' : (t.evalWith (Term.evalBody (i.machine.limit - i.machine.depth)) g).run j.machine =
      ((j.evaluate t (some g)).1, (j.evaluate t (some g)).2.machine) := by
    rw [hlevels]
    exact (Point.result_eq _ t g j.machine).symm
  obtain ⟨R₁, -, hafter, hresult⟩ := Term.depends _ t live live' R names h g i.machine j.machine hnames hm
  rw [hrun, hrun'] at hafter hresult
  have hrelated : ∀ v v', v.Like R₁ v' → Store.Related _ _ v v' := fun v v' hv => ⟨R₁, hafter.corresponds, hv⟩
  exact ⟨hresult.imp hrelated, hafter.output, fun x hx => rel_mono (hafter.alike x hx) fun v v' _ _ => hrelated v v'⟩

/-- Evaluations of a term in two scopes that agree on its free names have the same output, and the same failure or
related values, if they start with the same depth, limit and output; and whatever names the scopes agreed on, they
agree on them still. It is enough that the scopes are uncaptured. Nor does it make a difference whether a name that the
term does not mention is bound, in a scope that is seen by no closure found from the scope of the evaluation. In a
session the scopes that the caller holds are all of this kind, one for the other. -/
theorem evaluation_depends_on_free_names :
    (∀ i k, Caller.Session i k → i.machine.store.Ordered ∧ ∀ h, k.held h → i.machine.store.Uncaptured h ∧
      ∀ g c, k.held g → i.machine.store.LeadsTo h c → ¬i.machine.store.Sees c.scope g) ∧
    (∀ (i j : Interpreter) (h g : ScopeId) (t : Term) (names : List String),
      i.machine.store.Ordered → j.machine.store.Ordered → i.machine.store.Uncaptured h → j.machine.store.Uncaptured g →
      i.machine.depth = j.machine.depth → i.machine.limit = j.machine.limit → i.machine.output = j.machine.output →
      t.free ⊆ names → (∀ x ∈ names, i.machine.store.Agree j.machine.store h g x) →
      Matches ((i.evaluate t (some h)).2.machine.store.Related (j.evaluate t (some g)).2.machine.store)
        (i.evaluate t (some h)).1 (j.evaluate t (some g)).1 ∧
      (i.evaluate t (some h)).2.machine.output = (j.evaluate t (some g)).2.machine.output ∧
      ∀ x ∈ names, (i.evaluate t (some h)).2.machine.store.Agree (j.evaluate t (some g)).2.machine.store h g x) ∧
    ∀ (i : Interpreter) (t : Term) (h g : ScopeId) (name : String) (v : Value),
      i.machine.store.Ordered → i.machine.store.Uncaptured h →
      (∀ c, i.machine.store.LeadsTo h c → ¬i.machine.store.Sees c.scope g) → name ∉ t.free →
      Matches
        ((i.evaluate t (some h)).2.machine.store.Related ((i.define g name v).evaluate t (some h)).2.machine.store)
        (i.evaluate t (some h)).1 ((i.define g name v).evaluate t (some h)).1 ∧
      (i.evaluate t (some h)).2.machine.output = ((i.define g name v).evaluate t (some h)).2.machine.output := by
  refine ⟨fun i k hsession => ?_, ?_, ?_⟩
  · have hk := hsession.apart
    have hsettled : ∀ h c, i.machine.store.LeadsTo h c → i.machine.store.Settled k.held c := fun h c hc =>
      (hc.owned fun g d _ hd => hk.sealed.owned g d trivial hd).settled
    refine ⟨hk.sealed.ordered, fun h hh => ⟨⟨hk.lt_size hh, fun c hc => ?_⟩, fun g c hg hc hsees => ?_⟩⟩
    · exact (hsettled h c hc).mono fun _ hg => hg ▸ hh
    · exact (hsettled h c hc).not_live g hsees hg
  · intro i j h g t names hi hj hh hg hdepth hlimit houtput hnames hagree
    exact evaluate_parallel (hh.inStep hi hj hg houtput hdepth hlimit hagree) hnames
  · intro i t h g name v hi hh hg hname
    obtain ⟨hresult, houtput, -⟩ := evaluate_parallel (j := i.define g name v) (hh.inStep_define hi hg hname v)
      (List.Subset.refl _)
    exact ⟨hresult, houtput⟩

def addN : Term := .binary .unknown (.var .unknown "a") .add (.var .unknown "n")

/-- An interpreter that has bound `n` to 1 and then `f` to `fn (a) => a + n`. -/
def plain : Interpreter :=
  ((new .unlimited 0).perform (.evaluate
    (.letIn .unknown ⟨"n", .unknown⟩ (.int .unknown 1)
      (.letIn .unknown ⟨"f", .unknown⟩ (.function .unknown [⟨"a", .unknown⟩] addN) (.var .unknown "f"))) none)).2

/-- One that has also bound `a` before and `n` to something else after. -/
def cluttered : Interpreter :=
  ((new .unlimited 0).perform (.evaluate
    (.letIn .unknown ⟨"a", .unknown⟩ (.bool .unknown true)
      (.letIn .unknown ⟨"n", .unknown⟩ (.int .unknown 1)
        (.letIn .unknown ⟨"f", .unknown⟩ (.function .unknown [⟨"a", .unknown⟩] addN)
          (.letIn .unknown ⟨"n", .unknown⟩ (.str .unknown "s".toUTF8) (.var .unknown "f"))))) none)).2

def printed : Term := .print .unknown (.call .unknown (.var .unknown "f") [.int .unknown 2] true)

theorem evaluation_depends_on_free_names_printed :
    plain.machine.store.Uncaptured 0 ∧ cluttered.machine.store.Uncaptured 0 ∧
    (∀ x ∈ printed.free, plain.machine.store.Agree cluttered.machine.store 0 0 x) ∧
    (plain.evaluate printed (some 0)).2.machine.output = (cluttered.evaluate printed (some 0)).2.machine.output ∧
    (plain.evaluate printed (some 0)).2.machine.output =
      ((plain.define 0 "n" (.int 5)).evaluate printed (some 0)).2.machine.output ∧
    (plain.evaluate printed (some 0)).2.machine.output.writes = ["3\n".toUTF8] := by
  have hplain : Caller.Session plain _ := .perform _ (.new .unlimited 0) (by rintro id ⟨⟩)
  have hcluttered : Caller.Session cluttered _ := .perform _ (.new .unlimited 0) (by rintro id ⟨⟩)
  obtain ⟨hordered, hheld⟩ := evaluation_depends_on_free_names.1 plain _ hplain
  obtain ⟨hordered', hheld'⟩ := evaluation_depends_on_free_names.1 cluttered _ hcluttered
  obtain ⟨huncaptured, hunseen⟩ := hheld 0 (.inl rfl)
  obtain ⟨huncaptured', -⟩ := hheld' 0 (.inl rfl)
  have hagree : ∀ x ∈ printed.free, plain.machine.store.Agree cluttered.machine.store 0 0 x := by
    intro x hx
    obtain rfl : x = "f" := by simpa [printed, Term.free, Term.freeOf] using hx
    have hf : (plain.machine.store.env 0).lookup? "f" = some (.closure ⟨["a"], addN, 1⟩) := by rfl
    have hf' : (cluttered.machine.store.env 0).lookup? "f" = some (.closure ⟨["a"], addN, 1⟩) := by rfl
    have hn : (plain.machine.store.env 1).lookup? "n" = some (.int 1) := by rfl
    have hn' : (cluttered.machine.store.env 1).lookup? "n" = some (.int 1) := by rfl
    rw [Store.Agree, hf, hf']
    refine .some (Store.related_closure rfl rfl fun x hx => ?_)
    obtain rfl : x = "n" := by simpa [Closure.outside, addN, Term.free] using hx
    rw [hn, hn']
    exact .some (.int 1)
  have hsame := evaluation_depends_on_free_names.2.1 plain cluttered 0 0 printed printed.free hordered hordered'
    huncaptured huncaptured' rfl rfl rfl (List.Subset.refl _) hagree
  have hunmentioned := evaluation_depends_on_free_names.2.2 plain printed 0 0 "n" (.int 5) hordered huncaptured
    (fun c hc => hunseen 0 c (.inl rfl) hc) (by decide)
  exact ⟨huncaptured, huncaptured', hagree, hsame.2.1, hunmentioned.2, rfl⟩

def tangled : Interpreter :=
  { new .unlimited 0 with machine := { (new .unlimited 0).machine with store := (knot.capture 0).2 } }

/-- `let x = 2; print(f())` -/
def rebind : Term :=
  .letIn .unknown ⟨"x", .unknown⟩ (.int .unknown 2)
    (.print .unknown (.call .unknown (.var .unknown "f") [] true))

def identity : Term := .function .unknown [⟨"a", .unknown⟩] (.var .unknown "a")

/-- To agree on the free names is not enough: the closure `f` is the same for `let x = 2; print(f())` in the scope that
it captured and in a capture of that scope, and the first prints 2, the second 1. And if closures are to agree on all
free names of their bodies, those of parameters too, then `fn (a) => a` has unrelated values in a scope without `a` and
in one with `a`, though it has no free names itself. -/
theorem free_names_do_not_suffice :
    (tangled.machine.store.Ordered ∧
      (∀ x ∈ rebind.free, tangled.machine.store.Agree tangled.machine.store 0 1 x) ∧
      (tangled.evaluate rebind (some 0)).2.machine.output.writes = ["2\n".toUTF8] ∧
      (tangled.evaluate rebind (some 1)).2.machine.output.writes = ["1\n".toUTF8]) ∧
    identity.free = [] ∧
    ¬Matches
      (Store.RelatedOn (fun c => c.body.free) ((new .unlimited 0).evaluate identity (some 0)).2.machine.store
        (((new .unlimited 0).define 0 "a" (.int 1)).evaluate identity (some 0)).2.machine.store)
      ((new .unlimited 0).evaluate identity (some 0)).1
      (((new .unlimited 0).define 0 "a" (.int 1)).evaluate identity (some 0)).1 := by
  refine ⟨⟨knot_ordered.capture 0, ?_, rfl, rfl⟩, by decide, ?_⟩
  · intro x hx
    obtain rfl : x = "f" := by simpa [rebind, Term.free, Term.freeOf] using hx
    have hf : (tangled.machine.store.env 0).lookup? "f" = some (.closure ⟨[], .var .unknown "x", 0⟩) := by rfl
    have hf' : (tangled.machine.store.env 1).lookup? "f" = some (.closure ⟨[], .var .unknown "x", 0⟩) := by rfl
    have hx : (tangled.machine.store.env 0).lookup? "x" = some (.int 1) := by rfl
    rw [Store.Agree, hf, hf']
    refine .some (Store.related_closure rfl rfl fun x hmem => ?_)
    obtain rfl : x = "x" := by simpa [Closure.outside, Term.free] using hmem
    rw [hx]
    exact .some (.int 1)
  · rintro ⟨R, hR, ⟨⟩⟩
    have hseen := hR.seen _ _ ‹_› "a" (by decide)
    cases hseen

end Interpreter

end TreeWalk
