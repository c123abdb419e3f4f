import TreeWalk.Proofs.Scope.Ownership

/-!
# Whole scopes

A scope is whole if nothing absent can be reached from it: not in its own bindings, nor in those of the scopes around
it, nor in those of the scopes that closures bound there have captured. Around a whole scope one can draw a line that
no parent and no closure crosses and inside which nothing absent is bound. Making scopes and binding values that stay
inside moves nothing across that line.
-/

namespace TreeWalk

namespace Value

def Present : Value → Prop
  | absent => False
  | pair a b => a.Present ∧ b.Present
  | _ => True

theorem Present.kind {v : Value} (h : v.Present) : ∃ k, v.kind? = some k := by
  cases v with
  | absent => exact h.elim
  | _ => exact ⟨_, rfl⟩

/-- No component is absent and no closure captured a scope outside `inside`. -/
structure Within (inside : Nat → Prop) (v : Value) : Prop where
  present : v.Present
  captured : ∀ c ∈ v.closures, inside c.scope

variable {inside : Nat → Prop} {a b : Value}

theorem Within.pair (ha : a.Within inside) (hb : b.Within inside) : (Value.pair a b).Within inside := by
  refine ⟨⟨ha.present, hb.present⟩, fun c hc => ?_⟩
  rcases List.mem_append.mp hc with h | h
  · exact ha.captured c h
  · exact hb.captured c h

theorem Within.first (h : (Value.pair a b).Within inside) : a.Within inside :=
  ⟨h.present.1, fun c hc => h.captured c (List.mem_append_left _ hc)⟩

theorem Within.second (h : (Value.pair a b).Within inside) : b.Within inside :=
  ⟨h.present.2, fun c hc => h.captured c (List.mem_append_right _ hc)⟩

end Value

namespace Store

variable {s : Store} {inside : Nat → Prop}

/-- The scopes that can be reached from a scope. -/
inductive Meets (s : Store) : ScopeId → ScopeId → Prop
  | self (id : ScopeId) : Meets s id id
  | outward {id parent g : ScopeId} (h : s.parent? id = some parent) : Meets s parent g → Meets s id g
  | captured {id g : ScopeId} {c : Closure} (h : s.Binds id c) : Meets s c.scope g → Meets s id g

theorem Meets.trans {id g k : ScopeId} (hg : s.Meets id g) (hk : s.Meets g k) : s.Meets id k := by
  induction hg with
  | self => exact hk
  | outward hparent _ ih => exact .outward hparent (ih hk)
  | captured hbinds _ ih => exact .captured hbinds (ih hk)

/-- Nothing absent can be reached from the scope. -/
def Whole (s : Store) (id : ScopeId) : Prop :=
  ∀ g scope, s.Meets id g → s.scope? g = some scope → ∀ b ∈ scope.bindings, b.2.Present

/-- Nothing absent can be reached from the value. -/
def WholeValue (s : Store) (v : Value) : Prop := v.Present ∧ ∀ c ∈ v.closures, s.Whole c.scope

theorem whole_of_empty {id : ScopeId} (h : s.scope? id = some ⟨[], none⟩) : s.Whole id := by
  intro g scope hg hscope b hb
  cases hg with
  | self =>
    cases h.symm.trans hscope
    cases hb
  | outward hparent _ => simp [h] at hparent
  | captured hbinds _ =>
    obtain ⟨found, hfound, c, hc, _⟩ := hbinds
    cases h.symm.trans hfound
    cases hc

/-- The scopes in `inside`, with all that are still to be made, refer to each other only and bind nothing absent. -/
structure Encloses (s : Store) (inside : Nat → Prop) : Prop where
  fresh : ∀ g, s.size ≤ g → inside g
  parent : ∀ g scope p, inside g → s.scope? g = some scope → scope.parent = some p → inside p
  bound : ∀ g scope, inside g → s.scope? g = some scope → ∀ b ∈ scope.bindings, b.2.Within inside

theorem Whole.encloses {id : ScopeId} (h : s.Whole id) : s.Encloses fun g => s.Meets id g ∨ s.size ≤ g := by
  have hold : ∀ g scope, s.Meets id g ∨ s.size ≤ g → s.scope? g = some scope → s.Meets id g := by
    rintro g scope (hg | hg) hscope
    · exact hg
    · exact absurd (lt_size hscope) (Nat.not_lt.mpr hg)
  refine ⟨fun g hg => .inr hg, fun g scope p hg hscope hp => .inl ?_, fun g scope hg hscope b hb => ⟨?_, ?_⟩⟩
  · have hparent : s.parent? g = some p := by simp [hscope, hp]
    exact (hold g scope hg hscope).trans (.outward hparent (.self p))
  · exact h g scope (hold g scope hg hscope) hscope b hb
  · intro c hc
    exact .inl ((hold g scope hg hscope).trans (.captured ⟨scope, hscope, b, hb, hc⟩ (.self _)))

namespace Encloses

theorem meets (h : s.Encloses inside) {id g : ScopeId} (hg : s.Meets id g) (hid : inside id) : inside g := by
  induction hg with
  | self => exact hid
  | outward hparent _ ih =>
    obtain ⟨scope, hscope, hp⟩ := Option.bind_eq_some_iff.mp hparent
    exact ih (h.parent _ scope _ hid hscope hp)
  | captured hbinds _ ih =>
    obtain ⟨scope, hscope, b, hb, hc⟩ := hbinds
    exact ih ((h.bound _ scope hid hscope b hb).captured _ hc)

theorem whole (h : s.Encloses inside) {id : ScopeId} (hid : inside id) : s.Whole id :=
  fun g scope hg hscope b hb => (h.bound g scope (h.meets hg hid) hscope b hb).present

theorem wholeValue (h : s.Encloses inside) {v : Value} (hv : v.Within inside) : s.WholeValue v :=
  ⟨hv.present, fun c hc => h.whole (hv.captured c hc)⟩

theorem within_of_mem_envFrom (h : s.Encloses inside) (fuel : Nat) {id? : Option ScopeId}
    (hid : ∀ id, id? = some id → inside id) {bindings : Bindings} (hmem : bindings ∈ s.envFrom fuel id?)
    {b : String × Value} (hb : b ∈ bindings) : b.2.Within inside := by
  induction fuel generalizing id? with
  | zero => cases hmem
  | succ fuel ih =>
    cases id? with
    | none => cases hmem
    | some id =>
      rw [envFrom_succ] at hmem
      cases hscope : s.scope? id with
      | none =>
        rw [hscope] at hmem
        cases hmem
      | some scope =>
        rw [hscope] at hmem
        cases hmem with
        | head => exact h.bound id scope (hid id rfl) hscope b hb
        | tail _ houter => exact ih (fun p hp => h.parent id scope p (hid id rfl) hscope hp) houter

theorem within_of_mem_env (h : s.Encloses inside) {id : ScopeId} (hid : inside id) {bindings : Bindings}
    (hmem : bindings ∈ s.env id) {b : String × Value} (hb : b ∈ bindings) : b.2.Within inside := by
  refine h.within_of_mem_envFrom s.scopes.size ?_ hmem hb
  rintro _ ⟨⟩
  exact hid

theorem within_of_lookup? (h : s.Encloses inside) {id : ScopeId} (hid : inside id) {name : String} {v : Value}
    (hv : (s.env id).lookup? name = some v) : v.Within inside := by
  obtain ⟨bindings, hmem, hlookup⟩ := List.exists_of_findSome?_eq_some hv
  obtain ⟨before, after, rfl, _⟩ := List.lookup_eq_some_iff.mp hlookup
  exact h.within_of_mem_env hid hmem (List.mem_append_right before List.mem_cons_self)

theorem alloc (h : s.Encloses inside) {scope : Scope} (hparent : ∀ p, scope.parent = some p → inside p)
    (hbound : ∀ b ∈ scope.bindings, b.2.Within inside) : (s.alloc scope).2.Encloses inside := by
  have hscopes : ∀ g found, (s.alloc scope).2.scope? g = some found → found = scope ∨ s.scope? g = some found := by
    intro g found hfound
    rw [scope?_alloc] at hfound
    split at hfound
    · exact .inl (Option.some.inj hfound).symm
    · exact .inr hfound
  refine ⟨fun g hg => h.fresh g ?_, fun g found p hg hfound hp => ?_, fun g found hg hfound => ?_⟩
  · rw [size_alloc] at hg
    omega
  · rcases hscopes g found hfound with rfl | hold
    · exact hparent p hp
    · exact h.parent g found p hg hold hp
  · rcases hscopes g found hfound with rfl | hold
    · exact hbound
    · exact h.bound g found hg hold

theorem define (h : s.Encloses inside) (id : ScopeId) (name : String) {v : Value} (hv : v.Within inside) :
    (s.define id name v).Encloses inside := by
  have hscopes : ∀ g found, (s.define id name v).scope? g = some found → ∃ scope, s.scope? g = some scope ∧
      found.parent = scope.parent ∧ ∀ b ∈ found.bindings, b = (name, v) ∨ b ∈ scope.bindings := by
    intro g found hfound
    rw [scope?_define] at hfound
    split at hfound
    · obtain ⟨scope, hscope, rfl⟩ := Option.map_eq_some_iff.mp hfound
      exact ⟨scope, hscope, rfl, fun b hb => List.mem_cons.mp hb⟩
    · exact ⟨found, hfound, rfl, fun b hb => .inr hb⟩
  refine ⟨fun g hg => h.fresh g ?_, fun g found p hg hfound hp => ?_, fun g found hg hfound b hb => ?_⟩
  · rwa [size_define] at hg
  · obtain ⟨scope, hscope, hparent, _⟩ := hscopes g found hfound
    exact h.parent g scope p hg hscope (hparent ▸ hp)
  · obtain ⟨scope, hscope, _, hbindings⟩ := hscopes g found hfound
    rcases hbindings b hb with rfl | hold
    · exact hv
    · exact h.bound g scope hg hscope b hold

theorem plant (h : s.Encloses inside) {env : Env} (henv : ∀ bindings ∈ env, ∀ b ∈ bindings, b.2.Within inside) :
    (s.plant env).2.Encloses inside ∧ ∀ id, (s.plant env).1 = some id → inside id := by
  induction env with
  | nil => exact ⟨h, by rintro id ⟨⟩⟩
  | cons bindings outer ih =>
    obtain ⟨hplanted, hparent⟩ := ih fun b hb => henv b (List.mem_cons_of_mem _ hb)
    refine ⟨hplanted.alloc hparent (henv bindings List.mem_cons_self), ?_⟩
    rintro id ⟨⟩
    exact hplanted.fresh _ (Nat.le_refl _)

theorem capture (h : s.Encloses inside) {id : ScopeId} (hid : inside id) :
    (s.capture id).2.Encloses inside ∧ inside (s.capture id).1 := by
  have henv : ∀ bindings ∈ s.env id, ∀ b ∈ bindings, b.2.Within inside := fun bindings hmem b hb =>
    h.within_of_mem_env hid hmem hb
  have hhead : ∀ b ∈ (s.env id).headD [], b.2.Within inside := by
    cases hseen : s.env id with
    | nil => simp
    | cons bindings outer =>
      rw [hseen] at henv
      exact henv bindings List.mem_cons_self
  obtain ⟨hplanted, hparent⟩ := h.plant fun b hb => henv b (List.mem_of_mem_tail hb)
  rw [capture_eq]
  exact ⟨hplanted.alloc hparent hhead, hplanted.fresh _ (Nat.le_refl _)⟩

theorem child (h : s.Encloses inside) {parent : Option ScopeId} (hparent : ∀ p, parent = some p → inside p) :
    (s.child parent).2.Encloses inside ∧ inside (s.child parent).1 :=
  ⟨h.alloc hparent (by simp), h.fresh _ (Nat.le_refl _)⟩

theorem extend (h : s.Encloses inside) {id : ScopeId} (hid : inside id) :
    (s.extend id).2.Encloses inside ∧ inside (s.extend id).1 := by
  obtain ⟨hcaptured, hcopy⟩ := h.capture hid
  refine hcaptured.child ?_
  rintro p ⟨⟩
  exact hcopy

end Encloses

end Store

end TreeWalk
