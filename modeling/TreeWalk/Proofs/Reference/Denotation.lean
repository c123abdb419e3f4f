import TreeWalk.Proofs.Reference.Refinement

/-!
# What values and scopes of a store stand for

A value of a store stands for a value without one if, for each closure in it, the environment that the latter stores
lists what the captured scope sees, in the same way. A scope shows such an environment. It shows none if some closure
can be found from its own scope again: no list of bindings holds itself. That is all that can stand in the way, and
in a scope that shows an environment, evaluation goes as the reference semantics goes on that environment.
-/

namespace TreeWalk

namespace Store

variable {s : Store} {live : Nat → Prop} {h : ScopeId} {env : Reference.Env}

inductive StandsFor (s : Store) : Value → Reference.Value → Prop
  | absent : StandsFor s .absent .absent
  | int (n : Int64) : StandsFor s (.int n) (.int n)
  | str (text : ByteArray) : StandsFor s (.str text) (.str text)
  | bool (b : Bool) : StandsFor s (.bool b) (.bool b)
  | pair {a b : Value} {a' b' : Reference.Value} (ha : StandsFor s a a') (hb : StandsFor s b b') :
    StandsFor s (.pair a b) (.pair a' b')
  | closure {c : Closure} (f : Value → Reference.Value) (lt_size : c.scope < s.size)
    (h : ∀ bindings ∈ s.env c.scope, ∀ b ∈ bindings, StandsFor s b.2 (f b.2)) :
    StandsFor s (.closure c)
      (.closure c.params c.body ((s.env c.scope).map fun bindings => bindings.map fun b => (b.1, f b.2)))

/-- Scope by scope, `env` lists the names that `h` sees with what their values stand for. -/
def Shows (s : Store) (h : ScopeId) (env : Reference.Env) : Prop :=
  h < s.size ∧ ∃ f : Value → Reference.Value, (∀ bindings ∈ s.env h, ∀ b ∈ bindings, s.StandsFor b.2 (f b.2)) ∧
    env = (s.env h).map fun bindings => bindings.map fun b => (b.1, f b.2)

theorem map_eq_readBindings {f : Value → Reference.Value} {seen : Env}
    (hf : ∀ bindings ∈ seen, ∀ b ∈ bindings, f b.2 = s.read b.2) :
    (seen.map fun bindings => bindings.map fun b => (b.1, f b.2)) = seen.map s.readBindings := by
  refine List.map_congr_left fun bindings hbindings => List.map_congr_left fun b hb => ?_
  rw [hf bindings hbindings b hb]

theorem StandsFor.owns (hs : s.Ordered) {v : Value} {w : Reference.Value} (hv : s.StandsFor v w) :
    s.Owns (fun _ => False) v ∧ w = s.read v := by
  induction hv with
  | pair _ _ iha ihb =>
    refine ⟨fun c hc => ?_, by rw [iha.2, ihb.2, read_pair]⟩
    exact (List.mem_append.mp hc).elim (iha.1 c) (ihb.1 c)
  | @closure c f hlt _ ih =>
    have howned : s.Owned (fun _ => False) c := by
      refine .intro ⟨hlt, fun _ _ => id⟩ fun g d hg hd => ?_
      obtain ⟨scope, hscope, b, hb, hmem⟩ := hd
      exact (ih _ ((mem_env_iff hs).mpr ⟨g, scope, hg, hscope, rfl⟩) b hb).1 d hmem
    refine ⟨fun d hd => List.mem_singleton.mp hd ▸ howned, ?_⟩
    rw [read_closure hs howned, contents, map_eq_readBindings fun bindings hbindings b hb => (ih bindings hbindings b hb).2]
  | _ => exact ⟨fun c hc => absurd hc List.not_mem_nil, rfl⟩

namespace Shows

theorem owned (hs : s.Ordered) (hh : s.Shows h env) {c : Closure} (hc : s.LeadsTo h c) :
    s.Owned (fun _ => False) c := by
  obtain ⟨-, f, hf, -⟩ := hh
  refine hc.owned fun g d hg hd => ?_
  obtain ⟨scope, hscope, b, hb, hmem⟩ := hd
  exact (hf _ ((mem_env_iff hs).mpr ⟨g, scope, hg, hscope, rfl⟩) b hb).owns hs |>.1 d hmem

/-- No closure that is found from `h` has `h` in the chain it captured: `h` would be found from itself again. -/
theorem not_sees (hs : s.Ordered) (hh : s.Shows h env) {c : Closure} (hc : s.LeadsTo h c) : ¬s.Sees c.scope h :=
  have hself : s.Owned (fun _ => False) ⟨[], .absent, h⟩ :=
    .intro ⟨hh.1, fun _ _ => id⟩ fun _ _ hg hd => hh.owned hs (.bound hg hd)
  hself.not_circular hc

theorem sealed (hs : s.Ordered) (hh : s.Shows h env) :
    s.Sealed (fun g => s.Sees h g ∨ s.size ≤ g) (· = h) := by
  have howned : ∀ c, s.Owned (fun _ => False) c → s.LeadsTo h c → s.Owned (· = h) c := by
    intro c hc hleads
    induction hc with
    | @intro c hc _ ih =>
      refine .intro ⟨hc.lt_size, ?_⟩ fun g d hg hd => ih g d hg hd (hleads.captured hg hd)
      rintro g hg rfl
      exact hh.not_sees hs hleads hg
  refine ⟨hs, fun g hg => hg ▸ hh.1, fun g hg => .inr hg, ?_⟩
  rintro g c (hg | hg) hc
  · exact howned c (hh.owned hs (.bound hg hc)) (.bound hg hc)
  · obtain ⟨scope, hscope, -⟩ := hc
    exact absurd (lt_size hscope) (Nat.not_lt.mpr hg)

end Shows

end Store

end TreeWalk
