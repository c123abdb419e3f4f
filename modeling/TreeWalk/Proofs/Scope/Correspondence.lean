import Mathlib.Order.Basic
import TreeWalk.Proofs.Scope.Ownership
import TreeWalk.Proofs.Scope.Views
import TreeWalk.Proofs.Syntax.Free

/-!
# Closures that see alike

A correspondence between two stores relates closures of one function whose scopes see related values for the names that
the function takes from outside. Values are related if some correspondence relates their closures. This is meaningful
for circular scopes, too, where no related value could be reached from below.
-/

namespace TreeWalk

/-- Equal scalars, pairs of like values, or closures that `R` relates. -/
inductive Value.Like (R : Closure → Closure → Prop) : Value → Value → Prop
  | absent : Like R .absent .absent
  | int (n : Int64) : Like R (.int n) (.int n)
  | str (b : ByteArray) : Like R (.str b) (.str b)
  | bool (b : Bool) : Like R (.bool b) (.bool b)
  | pair {a b a' b' : Value} (ha : Like R a a') (hb : Like R b b') : Like R (.pair a b) (.pair a' b')
  | closure {c c' : Closure} (h : R c c') : Like R (.closure c) (.closure c')

namespace Value.Like

variable {R R₁ : Closure → Closure → Prop} {v v' l l' r r' : Value}

theorem restrict (h : Like R v v') (hR : ∀ c ∈ v.closures, ∀ c' ∈ v'.closures, R c c' → R₁ c c') : Like R₁ v v' := by
  induction h with
  | absent => exact .absent
  | int n => exact .int n
  | str b => exact .str b
  | bool b => exact .bool b
  | pair _ _ iha ihb =>
    have ha := iha fun c hc c' hc' => hR c (List.mem_append_left _ hc) c' (List.mem_append_left _ hc')
    have hb := ihb fun c hc c' hc' => hR c (List.mem_append_right _ hc) c' (List.mem_append_right _ hc')
    exact .pair ha hb
  | closure h => exact .closure (hR _ List.mem_cons_self _ List.mem_cons_self h)

theorem mono (h : Like R v v') (hR : R ≤ R₁) : Like R₁ v v' := h.restrict fun c _ c' _ => hR c c'

theorem of_closures (h : ∀ c ∈ v.closures, R c c) : Like R v v := by
  induction v with
  | absent => exact .absent
  | int n => exact .int n
  | str b => exact .str b
  | bool b => exact .bool b
  | pair a b iha ihb =>
    have ha := iha fun c hc => h c (List.mem_append_left _ hc)
    have hb := ihb fun c hc => h c (List.mem_append_right _ hc)
    exact .pair ha hb
  | closure c => exact .closure (h c List.mem_cons_self)

theorem kind?_eq (h : Like R v v') : v.kind? = v'.kind? := by
  cases h <;> rfl

theorem format_eq (h : Like R v v') : v.format = v'.format := by
  induction h with
  | pair _ _ iha ihb => rw [Value.format, Value.format, iha, ihb]
  | _ => rfl

theorem operate_eq (hl : Like R l l') (hr : Like R r r') (loc : Location) (op : Operator) :
    operate loc op l r = operate loc op l' r' := by
  cases hl with
  | pair | closure => cases hr <;> cases op <;> rfl
  | absent | int | str | bool =>
    cases hr with
    | pair | closure => cases op <;> rfl
    | _ => rfl

end Value.Like

/-- The names that the function takes from outside. -/
def Closure.outside (c : Closure) : List String := c.body.free.filter (· ∉ c.params)

theorem Closure.mem_outside {c : Closure} {x : String} : x ∈ c.outside ↔ x ∈ c.body.free ∧ x ∉ c.params := by
  simp [outside]

theorem rel_mono {α β : Type} {R R₁ : α → β → Prop} {a : Option α} {b : Option β} (h : Option.Rel R a b)
    (hR : ∀ v w, a = some v → b = some w → R v w → R₁ v w) : Option.Rel R₁ a b := by
  cases h with
  | none => exact .none
  | some hvw => exact .some (hR _ _ rfl rfl hvw)

theorem rel_self {R : Closure → Closure → Prop} {found : Option Value}
    (h : ∀ v, found = some v → ∀ c ∈ v.closures, R c c) : Option.Rel (Value.Like R) found found := by
  cases found with
  | none => exact .none
  | some v => exact .some (.of_closures (h v rfl))

namespace Store

variable {s s' t t' : Store} {names : Closure → List String} {R R₁ : Closure → Closure → Prop}
  {live live' : Nat → Prop} {h h' : ScopeId}

/-- Related closures are of one function. For each of `names`, both captured scopes see like values, or neither sees
one. -/
structure Corresponds (s s' : Store) (names : Closure → List String) (R : Closure → Closure → Prop) : Prop where
  params : ∀ c c', R c c' → c.params = c'.params
  body : ∀ c c', R c c' → c.body = c'.body
  seen : ∀ c c', R c c' → ∀ x ∈ names c,
    Option.Rel (Value.Like R) ((s.env c.scope).lookup? x) ((s'.env c'.scope).lookup? x)

def RelatedOn (names : Closure → List String) (s s' : Store) (v v' : Value) : Prop :=
  ∃ R, s.Corresponds s' names R ∧ v.Like R v'

/-- Equal scalars, pairs of related values, or closures of one function whose scopes see related values for the names
that it takes from outside, or none. -/
def Related (s s' : Store) (v v' : Value) : Prop := s.RelatedOn Closure.outside s' v v'

/-- The scopes see related values for the name, or none. -/
def Agree (s s' : Store) (h h' : ScopeId) (x : String) : Prop :=
  Option.Rel (s.Related s') ((s.env h).lookup? x) ((s'.env h').lookup? x)

/-- No closure that is found from `h` has `h` in the chain that it captured. -/
structure Uncaptured (s : Store) (h : ScopeId) : Prop where
  lt_size : h < s.size
  settled : ∀ c, s.LeadsTo h c → s.Settled (· = h) c

/-- All correspondences together are one. -/
theorem corresponds_related :
    s.Corresponds s' names fun c c' => s.RelatedOn names s' (.closure c) (.closure c') where
  params := by
    rintro c c' ⟨R, hR, ⟨⟩⟩
    exact hR.params c c' ‹_›
  body := by
    rintro c c' ⟨R, hR, ⟨⟩⟩
    exact hR.body c c' ‹_›
  seen := by
    rintro c c' ⟨R, hR, ⟨⟩⟩ x hx
    refine rel_mono (hR.seen c c' ‹_› x hx) fun v w _ _ hvw => hvw.mono fun d d' hd => ?_
    exact ⟨R, hR, .closure hd⟩

theorem RelatedOn.like {v v' : Value} (hv : s.RelatedOn names s' v v') :
    v.Like (fun c c' => s.RelatedOn names s' (.closure c) (.closure c')) v' := by
  obtain ⟨R, hR, hv⟩ := hv
  exact hv.mono fun c c' hc => ⟨R, hR, .closure hc⟩

theorem leadsTo_of_lookup? (hs : s.Ordered) {x : String} {v : Value} (hv : (s.env h).lookup? x = some v) {c : Closure}
    (hc : c ∈ v.closures) : s.LeadsTo h c := by
  obtain ⟨g, hg, hbinds⟩ := binds_of_lookup? hs hv hc
  exact .bound hg hbinds

theorem corresponds_found (hs : s.Ordered) (hs' : s'.Ordered) :
    s.Corresponds s' names fun c c' =>
      s.RelatedOn names s' (.closure c) (.closure c') ∧ s.LeadsTo h c ∧ s'.LeadsTo h' c' where
  params c c' hc := corresponds_related.params c c' hc.1
  body c c' hc := corresponds_related.body c c' hc.1
  seen c c' hc x hx := by
    refine rel_mono (corresponds_related.seen c c' hc.1 x hx) fun v w hv hw hvw => ?_
    refine hvw.restrict fun d hd d' hd' hdd' => ⟨hdd', ?_, ?_⟩
    · exact hc.2.1.trans (leadsTo_of_lookup? hs hv hd)
    · exact hc.2.2.trans (leadsTo_of_lookup? hs' hw hd')

theorem Agree.found (hs : s.Ordered) (hs' : s'.Ordered) {x : String} (hx : s.Agree s' h h' x) :
    Option.Rel
      (Value.Like fun c c' =>
        s.RelatedOn Closure.outside s' (.closure c) (.closure c') ∧ s.LeadsTo h c ∧ s'.LeadsTo h' c')
      ((s.env h).lookup? x) ((s'.env h').lookup? x) := by
  refine rel_mono hx fun v w hv hw hvw => hvw.like.restrict fun c hc c' hc' hcc' => ⟨hcc', ?_, ?_⟩
  · exact leadsTo_of_lookup? hs hv hc
  · exact leadsTo_of_lookup? hs' hw hc'

/-- On one of two stores: the closures of `C` captured no live scope. -/
structure Keeps (s : Store) (live : Nat → Prop) (C : Closure → Prop) : Prop where
  ordered : s.Ordered
  live_lt : ∀ g, live g → g < s.size
  settled : ∀ c, C c → s.Settled live c

namespace Keeps

variable {C : Closure → Prop}

theorem mono (hs : s.Keeps live C) {live₁ : Nat → Prop} (hlive : ∀ g, live₁ g → live g) : s.Keeps live₁ C :=
  ⟨hs.ordered, fun g hg => hs.live_lt g (hlive g hg), fun c hc => (hs.settled c hc).mono hlive⟩

theorem touches (hs : s.Keeps live C) (ht : Touches live s t) : t.Keeps live C :=
  ⟨ht.ordered, fun g hg => Nat.lt_of_lt_of_le (hs.live_lt g hg) ht.size_le,
    fun c hc => (hs.settled c hc).touches hs.ordered ht⟩

theorem adds (hs : s.Keeps live C) (ht : s.Adds t) (ho : t.Ordered) {g : Nat} (hg : s.size ≤ g) (hlt : g < t.size) :
    t.Keeps (fun k => live k ∨ k = g) C := by
  refine ⟨ho, ?_, fun c hc => (ht.settled hs.ordered ho (hs.settled c hc)).mono ?_⟩
  · rintro k (hk | rfl)
    · exact Nat.lt_of_lt_of_le (hs.live_lt k hk) ht.size_le
    · exact hlt
  · rintro k (hk | rfl)
    · exact .inl hk
    · exact .inr ⟨hg, hlt⟩

end Keeps

/-- What becomes of live scopes does not matter to closures that captured none. -/
theorem Corresponds.touches (hR : s.Corresponds s' names R) (hs : s.Keeps live fun c => ∃ c', R c c')
    (hs' : s'.Keeps live' fun c' => ∃ c, R c c') (ht : Touches live s t) (ht' : Touches live' s' t') :
    t.Corresponds t' names R where
  params := hR.params
  body := hR.body
  seen c c' hc x hx := by
    rw [(hs.settled c ⟨c', hc⟩).env_eq hs.ordered ht, (hs'.settled c' ⟨c, hc⟩).env_eq hs'.ordered ht']
    exact hR.seen c c' hc x hx

theorem Corresponds.add (hR : s.Corresponds s' names R) {d d' : Closure} (hparams : d.params = d'.params)
    (hbody : d.body = d'.body)
    (hseen : ∀ x ∈ names d, Option.Rel (Value.Like R) ((s.env d.scope).lookup? x) ((s'.env d'.scope).lookup? x)) :
    s.Corresponds s' names fun c c' => R c c' ∨ c = d ∧ c' = d' where
  params := by
    rintro c c' (hc | ⟨rfl, rfl⟩)
    · exact hR.params c c' hc
    · exact hparams
  body := by
    rintro c c' (hc | ⟨rfl, rfl⟩)
    · exact hR.body c c' hc
    · exact hbody
  seen := by
    rintro c c' (hc | ⟨rfl, rfl⟩) x hx
    · exact rel_mono (hR.seen c c' hc x hx) fun _ _ _ _ hvw => hvw.mono fun _ _ => .inl
    · exact rel_mono (hseen x hx) fun _ _ _ _ hvw => hvw.mono fun _ _ => .inl

theorem related_closure {d d' : Closure} (hparams : d.params = d'.params) (hbody : d.body = d'.body)
    (hseen : ∀ x ∈ d.outside,
      Option.Rel (Value.Like fun _ _ => False) ((s.env d.scope).lookup? x) ((s'.env d'.scope).lookup? x)) :
    s.Related s' (.closure d) (.closure d') :=
  ⟨_, Corresponds.add ⟨nofun, nofun, nofun⟩ hparams hbody hseen, .closure (.inr ⟨rfl, rfl⟩)⟩

end Store

end TreeWalk
