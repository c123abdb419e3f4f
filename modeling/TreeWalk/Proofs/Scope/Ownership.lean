import Mathlib.Data.Finset.Card
import TreeWalk.Eval.Operate
import TreeWalk.Proofs.Scope.Chain

/-!
# Ownership of captured scopes

Some scopes are live: names may still be bound in them. A closure is settled if no scope of the chain it captured is
live, and it owns its chain if it is settled and so is all that the chain binds, down to closures that bind none. So a
change of live scopes reaches no closure that owns its chain. A store is sealed if the closures that its roots bind own
their chains; the roots are some of the scopes there are, and all to come.
-/

namespace TreeWalk

def Value.closures : Value → List Closure
  | .pair a b => a.closures ++ b.closures
  | .closure c => [c]
  | _ => []

theorem closures_of_operate {loc : Location} {op : Operator} {l r v : Value} (h : operate loc op l r = .ok v) :
    v.closures = [] := by
  cases op with
  | unknown name => cases h
  | add =>
    simp only [operate] at h
    split at h
    · cases h
      rfl
    · split at h <;> cases h
      rfl
  | div | rem =>
    simp only [operate] at h
    split at h
    · split at h <;> cases h
      rfl
    · cases h
  | _ =>
    simp only [operate] at h
    split at h <;> cases h
    rfl

namespace Store

variable {s s' : Store} {root live live' : Nat → Prop} {c d : Closure} {v : Value}

def Binds (s : Store) (g : Nat) (c : Closure) : Prop :=
  ∃ scope, s.scope? g = some scope ∧ ∃ binding ∈ scope.bindings, c ∈ binding.2.closures

structure Settled (s : Store) (live : Nat → Prop) (c : Closure) : Prop where
  lt_size : c.scope < s.size
  not_live : ∀ g : Nat, s.Sees c.scope g → ¬live g

inductive Owned (s : Store) (live : Nat → Prop) : Closure → Prop
  | intro {c : Closure} (settled : s.Settled live c)
    (inner : ∀ (g : Nat) (d : Closure), s.Sees c.scope g → s.Binds g d → Owned s live d) : Owned s live c

/-- Every closure in the value owns its chain. -/
def Owns (s : Store) (live : Nat → Prop) (v : Value) : Prop := ∀ c ∈ v.closures, s.Owned live c

/-- Every closure bound in `env` owns its chain. -/
def OwnsAll (s : Store) (live : Nat → Prop) (env : Env) : Prop := ∀ bindings ∈ env, ∀ b ∈ bindings, s.Owns live b.2

structure Sealed (s : Store) (root live : Nat → Prop) : Prop where
  ordered : s.Ordered
  live_lt : ∀ g, live g → g < s.size
  to_come : ∀ g, s.size ≤ g → root g
  owned : ∀ (g : Nat) (c : Closure), root g → s.Binds g c → s.Owned live c

theorem Settled.mono (h : s.Settled live c) (hlive : ∀ g, live' g → live g) : s.Settled live' c :=
  ⟨h.lt_size, fun g hg hg' => h.not_live g hg (hlive g hg')⟩

theorem Owned.settled (h : s.Owned live c) : s.Settled live c := by
  cases h with
  | intro h _ => exact h

theorem Owned.lt_size (h : s.Owned live c) : c.scope < s.size := h.settled.lt_size

theorem Owned.inner (h : s.Owned live c) {g : Nat} (hg : s.Sees c.scope g) (hd : s.Binds g d) : s.Owned live d := by
  cases h with
  | intro _ hinner => exact hinner g d hg hd

theorem Owned.mono (h : s.Owned live c) (hlive : ∀ g, live' g → live g) : s.Owned live' c := by
  induction h with
  | intro hc _ ih => exact .intro (hc.mono hlive) ih

theorem Sealed.mono (h : s.Sealed root live) (hlive : ∀ g, live' g → live g) : s.Sealed root live' :=
  ⟨h.ordered, fun g hg => h.live_lt g (hlive g hg), h.to_come, fun g c hg hc => (h.owned g c hg hc).mono hlive⟩

theorem Binds.congr {g : Nat} (h : s'.Binds g c) (hg : s'.scope? g = s.scope? g) : s.Binds g c := by
  obtain ⟨scope, hscope, hbound⟩ := h
  exact ⟨scope, hg ▸ hscope, hbound⟩

theorem Binds.of_child {parent : Option ScopeId} {g : Nat} (h : (s.child parent).2.Binds g c) : s.Binds g c := by
  obtain ⟨scope, hscope, binding, hbinding, hc⟩ := h
  rw [child, scope?_alloc] at hscope
  split at hscope
  · cases hscope
    cases hbinding
  · exact ⟨scope, hscope, binding, hbinding, hc⟩

theorem Binds.of_define {id g : ScopeId} {name : String} (h : (s.define id name v).Binds g c) :
    c ∈ v.closures ∨ s.Binds g c := by
  obtain ⟨scope, hscope, binding, hbinding, hc⟩ := h
  rw [scope?_define] at hscope
  split at hscope
  · obtain ⟨old, hold, rfl⟩ := Option.map_eq_some_iff.mp hscope
    cases hbinding with
    | head => exact .inl hc
    | tail _ hrest => exact .inr ⟨old, hold, binding, hrest, hc⟩
  · exact .inr ⟨scope, hscope, binding, hbinding, hc⟩

theorem binds_of_mem_env (hs : s.Ordered) {id : Nat} {bindings : Bindings} (h : bindings ∈ s.env id)
    {binding : String × Value} (hb : binding ∈ bindings) (hc : c ∈ binding.2.closures) :
    ∃ g, s.Sees id g ∧ s.Binds g c := by
  obtain ⟨g, scope, hg, hscope, rfl⟩ := (mem_env_iff hs).mp h
  exact ⟨g, hg, scope, hscope, binding, hb, hc⟩

theorem binds_of_lookup? (hs : s.Ordered) {id : Nat} {name : String} (h : (s.env id).lookup? name = some v)
    (hc : c ∈ v.closures) : ∃ g, s.Sees id g ∧ s.Binds g c := by
  obtain ⟨bindings, hbindings, hlookup⟩ := List.exists_of_findSome?_eq_some h
  obtain ⟨before, after, rfl, _⟩ := List.lookup_eq_some_iff.mp hlookup
  exact binds_of_mem_env hs hbindings (List.mem_append_right before List.mem_cons_self) hc

theorem OwnsAll.of_binds (hs : s.Ordered) {id : Nat} (h : ∀ g c, s.Sees id g → s.Binds g c → s.Owned live c) :
    s.OwnsAll live (s.env id) := by
  intro bindings hbindings b hb c hc
  obtain ⟨g, hg, hbinds⟩ := binds_of_mem_env hs hbindings hb hc
  exact h g c hg hbinds

theorem Owned.ownsAll (h : s.Owned live c) (hs : s.Ordered) : s.OwnsAll live (s.env c.scope) :=
  .of_binds hs fun _ _ hg hd => h.inner hg hd

theorem Sealed.ownsAll (hs : s.Sealed root live) {id : Nat} (hid : ∀ g, s.Sees id g → root g) :
    s.OwnsAll live (s.env id) :=
  .of_binds hs.ordered fun g c hg hc => hs.owned g c (hid g hg) hc

theorem OwnsAll.owns_of_lookup? {env : Env} (h : s.OwnsAll live env) {name : String}
    (hv : env.lookup? name = some v) : s.Owns live v := by
  obtain ⟨bindings, hbindings, hlookup⟩ := List.exists_of_findSome?_eq_some hv
  obtain ⟨before, after, rfl, _⟩ := List.lookup_eq_some_iff.mp hlookup
  exact h _ hbindings (name, v) (List.mem_append_right before List.mem_cons_self)

theorem OwnsAll.cons_nil {env : Env} (h : s.OwnsAll live env) : s.OwnsAll live ([] :: env) := by
  intro bindings hmem b hb
  cases hmem with
  | head => cases hb
  | tail _ hrest => exact h bindings hrest b hb

/-- From `s` to `s'`, of the scopes there were at most live ones changed. -/
structure Touches (live : Nat → Prop) (s s' : Store) : Prop where
  size_le : s.size ≤ s'.size
  ordered : s'.Ordered
  others : ∀ id : Nat, id < s.size → ¬live id → s'.scope? id = s.scope? id

namespace Settled

theorem scope?_eq (h : s.Settled live c) (hs : s.Ordered) (ht : Touches live s s') {g : Nat}
    (hg : s.Sees c.scope g) : s'.scope? g = s.scope? g :=
  ht.others g (Nat.lt_of_le_of_lt (hg.le hs) h.lt_size) (h.not_live g hg)

theorem sees (h : s.Settled live c) (hs : s.Ordered) (ht : Touches live s s') {g : Nat} (hg : s'.Sees c.scope g) :
    s.Sees c.scope g := hg.congr fun _ hk => h.scope?_eq hs ht hk

theorem env_eq (h : s.Settled live c) (hs : s.Ordered) (ht : Touches live s s') :
    s'.env c.scope = s.env c.scope :=
  env_congr hs ht.ordered c.scope fun _ hg => h.scope?_eq hs ht hg

theorem touches (h : s.Settled live c) (hs : s.Ordered) (ht : Touches live s s') : s'.Settled live c :=
  ⟨Nat.lt_of_lt_of_le h.lt_size ht.size_le, fun g hg => h.not_live g (h.sees hs ht hg)⟩

end Settled

theorem Owned.touches (h : s.Owned live c) (hs : s.Ordered) (ht : Touches live s s') : s'.Owned live c := by
  induction h with
  | @intro c hc _ ih =>
    refine .intro (hc.touches hs ht) fun g d hg hd => ?_
    have hsees := hc.sees hs ht hg
    exact ih g d hsees (hd.congr (hc.scope?_eq hs ht hsees))

theorem Owns.touches (h : s.Owns live v) (hs : s.Ordered) (ht : Touches live s s') : s'.Owns live v :=
  fun c hc => (h c hc).touches hs ht

theorem Ordered.define_touches (hs : s.Ordered) {g : Nat} (hg : live g) (name : String) (v : Value) :
    Touches live s (s.define g name v) := by
  refine ⟨Nat.le_of_eq (size_define s g name v).symm, hs.define g name v, fun id _ hid => ?_⟩
  have hne : g ≠ id := fun h => hid (h ▸ hg)
  rw [scope?_define, if_neg hne]

theorem Sealed.define (hs : s.Sealed root live) {g : Nat} (hg : live g) (name : String) (hv : s.Owns live v) :
    (s.define g name v).Sealed root live := by
  have ht := hs.ordered.define_touches hg name v
  refine ⟨ht.ordered, fun id hid => Nat.lt_of_lt_of_le (hs.live_lt id hid) ht.size_le,
    fun id hid => hs.to_come id (Nat.le_trans ht.size_le hid), fun id c hid hc => ?_⟩
  apply Owned.touches ?_ hs.ordered ht
  rcases hc.of_define with hnew | hold
  · exact hv c hnew
  · exact hs.owned id c hid hold

namespace Adds

theorem touches (h : s.Adds s') (ho : s'.Ordered) (live : Nat → Prop) : Touches live s s' :=
  ⟨h.size_le, ho, fun id hid _ => h.scope?_eq id hid⟩

theorem settled (h : s.Adds s') (hs : s.Ordered) (ho : s'.Ordered) (hc : s.Settled live c) :
    s'.Settled (fun g => live g ∨ s.size ≤ g ∧ g < s'.size) c := by
  have hnew := hc.touches hs (h.touches ho live)
  refine ⟨hnew.lt_size, fun g hg => ?_⟩
  have hlt : g < s.size := Nat.lt_of_le_of_lt (hg.le ho) hc.lt_size
  rintro (hlive | hlive)
  · exact hnew.not_live g hg hlive
  · omega

theorem owned (h : s.Adds s') (hs : s.Ordered) (ho : s'.Ordered) (hc : s.Owned live c) :
    s'.Owned (fun g => live g ∨ s.size ≤ g ∧ g < s'.size) c := by
  induction hc with
  | @intro c hc _ ih =>
    refine .intro (h.settled hs ho hc) fun g d hg hd => ?_
    have hsees := hc.sees hs (h.touches ho live) hg
    exact ih g d hsees (hd.congr (hc.scope?_eq hs (h.touches ho live) hsees))

/-- The store stays sealed, also if all new scopes are live from now on. -/
theorem sealed (h : s.Adds s') (hs : s.Sealed root live) (ho : s'.Ordered)
    (hbinds : ∀ g c, root g → s'.Binds g c → s.Owned live c) :
    s'.Sealed root fun g => live g ∨ s.size ≤ g ∧ g < s'.size := by
  refine ⟨ho, ?_, fun g hg => hs.to_come g (Nat.le_trans h.size_le hg), fun g c hg hc => ?_⟩
  · rintro g (hg | hg)
    · exact Nat.lt_of_lt_of_le (hs.live_lt g hg) h.size_le
    · exact hg.2
  · exact h.owned hs.ordered ho (hbinds g c hg hc)

end Adds

namespace Planted

variable {id? : Option ScopeId} {env : Env}

theorem touches (h : s.Planted id? s' env) (live : Nat → Prop) : Touches live s s' :=
  h.adds.touches h.ordered live

theorem owned_of_binds (h : s.Planted id? s' env) (henv : s.OwnsAll live env) {g : Nat} (hg : s.size ≤ g)
    (hc : s'.Binds g c) : s.Owned live c := by
  obtain ⟨scope, hscope, binding, hbinding, hmem⟩ := hc
  exact henv _ (h.bindings_mem g scope hg hscope) binding hbinding c hmem

theorem sealed (h : s.Planted id? s' env) (hs : s.Sealed root live) (henv : s.OwnsAll live env) :
    s'.Sealed root fun g => live g ∨ s.size ≤ g ∧ g < s'.size := by
  refine h.adds.sealed hs h.ordered fun g c hroot hc => ?_
  by_cases hg : g < s.size
  · exact hs.owned g c hroot (hc.congr (h.adds.scope?_eq g hg))
  · exact h.owned_of_binds henv (Nat.not_lt.mp hg) hc

theorem settled (h : s.Planted id? s' env) (hlive : ∀ g, live g → g < s.size) (hc : id? = some c.scope) :
    s'.Settled live c := by
  refine ⟨h.lt_size c.scope hc, fun g hg hg' => ?_⟩
  have hge := h.fresh c.scope g hc hg
  have hlt := hlive g hg'
  omega

theorem owned (h : s.Planted id? s' env) (hs : s.Sealed root live) (henv : s.OwnsAll live env)
    (hc : id? = some c.scope) : s'.Owned live c := by
  refine .intro (h.settled hs.live_lt hc) fun g d hg hd => ?_
  exact (h.owned_of_binds henv (h.fresh c.scope g hc hg) hd).touches hs.ordered (h.touches live)

end Planted

/-- From the scope `h` on, through what is bound and what closures captured, the closure is found. -/
inductive LeadsTo (s : Store) (h : ScopeId) : Closure → Prop
  | bound {g : ScopeId} {c : Closure} (hg : s.Sees h g) (hc : s.Binds g c) : LeadsTo s h c
  | captured {g : ScopeId} {c d : Closure} (hc : LeadsTo s h c) (hg : s.Sees c.scope g) (hd : s.Binds g d) :
    LeadsTo s h d

namespace LeadsTo

theorem trans {h : ScopeId} (hc : s.LeadsTo h c) (hd : s.LeadsTo c.scope d) : s.LeadsTo h d := by
  induction hd with
  | bound hg hd => exact hc.captured hg hd
  | captured _ hg he ih => exact ih.captured hg he

theorem of_sees {h g : ScopeId} (hg : s.Sees h g) (hc : s.LeadsTo g c) : s.LeadsTo h c := by
  induction hc with
  | bound hg' hc => exact .bound (hg.trans hg') hc
  | captured _ hg' hd ih => exact ih.captured hg' hd

theorem exists_bound {h : ScopeId} (hc : s.LeadsTo h c) :
    ∃ g d, s.Sees h g ∧ s.Binds g d ∧ (c = d ∨ s.LeadsTo d.scope c) := by
  induction hc with
  | @bound g c hg hc => exact ⟨g, c, hg, hc, .inl rfl⟩
  | @captured g c e _ hg he ih =>
    obtain ⟨g', d, hg', hd, hc⟩ := ih
    refine ⟨g', d, hg', hd, .inr ?_⟩
    rcases hc with rfl | hc
    · exact .bound hg he
    · exact hc.captured hg he

theorem owned {h : ScopeId} (hc : s.LeadsTo h c) (hbound : ∀ g d, s.Sees h g → s.Binds g d → s.Owned live d) :
    s.Owned live c := by
  induction hc with
  | bound hg hc => exact hbound _ _ hg hc
  | captured _ hg hd ih => exact ih.inner hg hd

end LeadsTo

/-- A closure that owns its chain is not found in its chain again, nor is another one on the same chain. -/
theorem Owned.not_circular (h : s.Owned live c) (hd : s.LeadsTo c.scope d) : ¬s.Sees d.scope c.scope := by
  induction h generalizing d with
  | @intro c _ _ ih =>
    intro hback
    obtain ⟨g, e, hg, he, hed⟩ := hd.exists_bound
    -- from `d` the first step of the way can be gone again
    have hagain : s.LeadsTo d.scope e := .of_sees hback (.bound hg he)
    have hself : s.LeadsTo e.scope e := by
      rcases hed with rfl | hed
      · exact hagain
      · exact hed.trans hagain
    exact ih g e hg he hself (.self _)

section Rank

open Classical

/-- How many scopes are captured by closures that the scope leads to. -/
noncomputable def rank (s : Store) (h : ScopeId) : Nat :=
  ((Finset.range s.size).filter fun g => ∃ d, s.LeadsTo h d ∧ d.scope = g).card

theorem rank_lt_size {h : Nat} (hh : h < s.size) (hcircle : ∀ d, s.LeadsTo h d → d.scope ≠ h) : s.rank h < s.size := by
  have hsubset : ((Finset.range s.size).filter fun g => ∃ d, s.LeadsTo h d ∧ d.scope = g) ⊂ Finset.range s.size := by
    refine Finset.filter_ssubset.mpr ⟨h, Finset.mem_range.mpr hh, ?_⟩
    rintro ⟨d, hd, heq⟩
    exact hcircle d hd heq
  exact (Finset.card_lt_card hsubset).trans_eq (Finset.card_range _)

theorem rank_lt_rank {h g : Nat} (hg : s.Sees h g) (hd : s.Binds g d) (hlt : d.scope < s.size)
    (hcircle : ∀ e, s.LeadsTo d.scope e → e.scope ≠ d.scope) : s.rank d.scope < s.rank h := by
  have hbound : s.LeadsTo h d := .bound hg hd
  refine Finset.card_lt_card (Finset.ssubset_iff_of_subset ?_ |>.mpr ⟨d.scope, ?_, ?_⟩)
  · intro k hk
    obtain ⟨hk, e, he, rfl⟩ := Finset.mem_filter.mp hk
    exact Finset.mem_filter.mpr ⟨hk, e, hbound.trans he, rfl⟩
  · exact Finset.mem_filter.mpr ⟨Finset.mem_range.mpr hlt, d, hbound, rfl⟩
  · intro hmem
    obtain ⟨-, e, he, heq⟩ := Finset.mem_filter.mp hmem
    exact hcircle e he heq

theorem Owned.scope_ne (h : s.Owned live c) (hd : s.LeadsTo c.scope d) : d.scope ≠ c.scope := by
  intro heq
  exact h.not_circular hd (heq ▸ .self _)

theorem Owned.rank_lt_size (h : s.Owned live c) : s.rank c.scope < s.size :=
  Store.rank_lt_size h.lt_size fun _ hd => h.scope_ne hd

theorem Owned.rank_lt (h : s.Owned live c) {g : Nat} (hg : s.Sees c.scope g) (hd : s.Binds g d) :
    s.rank d.scope < s.rank c.scope :=
  rank_lt_rank hg hd (h.inner hg hd).lt_size fun _ he => (h.inner hg hd).scope_ne he

end Rank

end Store

end TreeWalk
