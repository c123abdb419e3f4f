import TreeWalk.Proofs.Scope.Ownership
import TreeWalk.Proofs.Value.Equality

/-!
# The identity of closures

A closure is known by the scope it captured. This tells closures apart as long as each was made with a scope of its own,
so a store is looked at together with a register of all closures made so far. A closure enters the register when it is
made, on a chain of new scopes, and nothing is ever bound that is not in the register.
-/

namespace TreeWalk.Store

variable {s s' : Store} {made : Closure → Prop}

/-- The closures of `made` captured different scopes of the store, and the store binds no others. -/
structure Registers (s : Store) (made : Closure → Prop) : Prop where
  ordered : s.Ordered
  lt_size : ∀ c, made c → c.scope < s.size
  unique : ∀ c d, made c → made d → c.scope = d.scope → c = d
  bound : ∀ g c, s.Binds g c → made c

namespace Registers

theorem made_of_mem (h : s.Registers made) (id : ScopeId) {bindings : Bindings}
    (hbindings : bindings ∈ (s.env id).headD [] :: (s.env id).tail) {b : String × Value} (hb : b ∈ bindings) {c : Closure}
    (hc : c ∈ b.2.closures) : made c := by
  have hmem : bindings ∈ s.env id := by
    cases henv : s.env id with
    | nil =>
      rw [henv] at hbindings
      cases List.mem_singleton.mp hbindings
      cases hb
    | cons first outer =>
      rw [henv] at hbindings
      exact hbindings
  obtain ⟨g, -, hbinds⟩ := binds_of_mem_env h.ordered hmem hb hc
  exact h.bound g c hbinds

theorem planted (h : s.Registers made) {id? : Option ScopeId} {env : Env} (hplanted : s.Planted id? s' env)
    (henv : ∀ bindings ∈ env, ∀ b ∈ bindings, ∀ c ∈ b.2.closures, made c) : s'.Registers made where
  ordered := hplanted.ordered
  lt_size c hc := Nat.lt_of_lt_of_le (h.lt_size c hc) hplanted.adds.size_le
  unique := h.unique
  bound g c hc := by
    by_cases hg : g < s.size
    · exact h.bound g c (hc.congr (hplanted.adds.scope?_eq g hg))
    · obtain ⟨scope, hscope, b, hb, hmem⟩ := hc
      exact henv _ (hplanted.bindings_mem g scope (Nat.not_lt.mp hg) hscope) b hb c hmem

theorem child (h : s.Registers made) {parent : Option ScopeId} (hparent : ∀ id : Nat, parent = some id → id < s.size) :
    (s.child parent).2.Registers made where
  ordered := h.ordered.child hparent
  lt_size c hc := Nat.lt_of_lt_of_le (h.lt_size c hc) (child_adds s parent).size_le
  unique := h.unique
  bound g c hc := h.bound g c hc.of_child

theorem extend (h : s.Registers made) (id : ScopeId) : (s.extend id).2.Registers made := by
  have hcopy := (plant_planted h.ordered (s.env id).tail).alloc ((s.env id).headD [])
  refine h.planted (hcopy.alloc []) fun bindings hbindings b hb c hc => ?_
  cases hbindings with
  | head => cases hb
  | tail _ hbindings => exact h.made_of_mem id hbindings hb hc

theorem copy (h : s.Registers made) (id : ScopeId) : (s.capture id).2.Registers made :=
  h.planted ((plant_planted h.ordered (s.env id).tail).alloc _) fun _ hbindings _ hb _ hc =>
    h.made_of_mem id hbindings hb hc

theorem capture (h : s.Registers made) (id : ScopeId) {c : Closure} (hc : c.scope = (s.capture id).1) :
    (s.capture id).2.Registers fun d => made d ∨ d = c := by
  have hcopied := h.copy id
  -- the register has no other closure with this scope, for they were made before there was such a scope
  have hother : ∀ d, made d → d.scope ≠ c.scope := by
    intro d hd
    rw [hc]
    exact Nat.ne_of_lt (Nat.lt_of_lt_of_le (h.lt_size d hd) (size_le_capture s id))
  constructor
  · exact hcopied.ordered
  · intro d hd
    rcases hd with hd | rfl
    · exact hcopied.lt_size d hd
    · rw [hc]
      exact capture_lt_size s id
  · intro d e hd he hscope
    rcases hd with hd | rfl
    · rcases he with he | rfl
      · exact h.unique d e hd he hscope
      · exact absurd hscope (hother d hd)
    · rcases he with he | rfl
      · exact absurd hscope.symm (hother e he)
      · rfl
  · intro g d hd
    exact .inl (hcopied.bound g d hd)

theorem define (h : s.Registers made) (id : ScopeId) (name : String) {v : Value} (hv : ∀ c ∈ v.closures, made c) :
    (s.define id name v).Registers made where
  ordered := h.ordered.define id name v
  lt_size c hc := by
    rw [size_define]
    exact h.lt_size c hc
  unique := h.unique
  bound g c hc := by
    rcases hc.of_define with hnew | hold
    · exact hv c hnew
    · exact h.bound g c hold

theorem of_lookup? (h : s.Registers made) {id : ScopeId} {name : String} {v : Value}
    (hv : (s.env id).lookup? name = some v) : ∀ c ∈ v.closures, made c := by
  intro c hc
  obtain ⟨g, -, hbinds⟩ := binds_of_lookup? h.ordered hv hc
  exact h.bound g c hbinds

theorem equal_iff_eq (h : s.Registers made) {v w : Value} (hv : ∀ c ∈ v.closures, made c)
    (hw : ∀ c ∈ w.closures, made c) : v.equal w = true ↔ v = w := by
  constructor
  · intro heq
    rw [Value.equal_iff] at heq
    induction v generalizing w with
    | closure c =>
      cases w with
      | closure d =>
        have hscope : c.scope = d.scope := by simpa [Value.outline] using heq
        rw [h.unique c d (hv c List.mem_cons_self) (hw d List.mem_cons_self) hscope]
      | _ => simp [Value.outline] at heq
    | pair a b iha ihb =>
      cases w with
      | pair a' b' =>
        obtain ⟨ha, hb⟩ := Value.pair.inj heq
        rw [iha (fun c hc => hv c (List.mem_append_left _ hc)) (fun c hc => hw c (List.mem_append_left _ hc)) ha,
          ihb (fun c hc => hv c (List.mem_append_right _ hc)) (fun c hc => hw c (List.mem_append_right _ hc)) hb]
      | _ => simp [Value.outline] at heq
    | _ => cases w <;> simp_all [Value.outline]
  · intro heq
    exact heq ▸ Value.equal_equivalence.refl v

end Registers

end TreeWalk.Store
