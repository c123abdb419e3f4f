import TreeWalk.Proofs.Reference.Readback
import TreeWalk.Proofs.Scope.Identity
import TreeWalk.Proofs.Eval.Visit

/-!
# Evaluation keeps closures apart

An evaluation makes closures only where it meets a function literal, each on a scope captured for it. So the register of
closures grows in the course of an evaluation, and it always has the closures of the values that come up.
-/

namespace TreeWalk

/-- On a store that registers the closures of `given`, `x` may make more of them. In the end the store registers those
there were, the new ones, and thereby the closures `found` in the result. -/
def Records {α : Type} (given : List Closure) (found : α → List Closure) (x : Eval α) : Prop :=
  ∀ made m, m.store.Registers made → (∀ c ∈ given, made c) →
    ∃ made', (∀ c, made c → made' c) ∧ (x.run m).2.store.Registers made' ∧
      ∀ a, (x.run m).1 = .ok a → ∀ c ∈ found a, made' c

namespace Records

variable {α β : Type} {given : List Closure} {found : α → List Closure} {found' : β → List Closure}

theorem still {x : Eval α} (hstore : ∀ m, (x.run m).2.store = m.store)
    (hfound : ∀ m a, (x.run m).1 = .ok a → ∀ c ∈ found a, c ∈ given) : Records given found x := by
  intro made m hm hgiven
  refine ⟨made, fun _ hc => hc, ?_, fun a ha c hc => hgiven c (hfound m a ha c hc)⟩
  rw [hstore]
  exact hm

theorem pure {a : α} (h : ∀ c ∈ found a, c ∈ given) : Records given found (Pure.pure a : Eval α) := by
  apply still
  · intro m
    rfl
  · intro m b hb
    cases hb
    exact h

theorem fail (f : Fault) : Records given found (Eval.fail f : Eval α) := by
  apply still
  · intro m
    rfl
  · intro m a ha
    cases ha

theorem refuse (v : Value) (f : Kind → Fault) :
    Records given found (do Eval.fail (f (← Eval.kindOf v)) : Eval α) := by
  unfold Eval.kindOf
  cases v.kind? with
  | some k => exact fail (f k)
  | none =>
    apply still
    · intro m
      rfl
    · intro m a ha
      cases ha

theorem operate (loc : Location) (op : Operator) (l r : Value) :
    Records given Value.closures (liftExcept (TreeWalk.operate loc op l r) : Eval Value) := by
  apply still
  · intro m
    rw [Eval.run_liftExcept]
  · intro m v hv
    rw [Eval.run_liftExcept] at hv
    simp [closures_of_operate hv]

theorem bind {x : Eval α} {f : α → Eval β} (hx : Records given found x)
    (hf : ∀ a, Records (found a ++ given) found' (f a)) : Records given found' (x >>= f) := by
  intro made m hm hgiven
  obtain ⟨made₁, hmore, hm₁, hfound⟩ := hx made m hm hgiven
  rcases hr : x.run m with ⟨e | a, m₁⟩
  · rw [hr] at hm₁
    rw [Eval.run_bind_error hr]
    exact ⟨made₁, hmore, hm₁, by rintro b ⟨⟩⟩
  · rw [hr] at hm₁ hfound
    rw [Eval.run_bind_ok hr]
    -- what was given is still registered, so the second part may use it together with what the first part found
    have hgiven₁ : ∀ c ∈ found a ++ given, made₁ c := by
      intro c hc
      rcases List.mem_append.mp hc with h | h
      · exact hfound a rfl c h
      · exact hmore c (hgiven c h)
    obtain ⟨made₂, hmore₂, hm₂, hfound₂⟩ := hf a made₁ m₁ hm₁ hgiven₁
    exact ⟨made₂, fun c hc => hmore₂ c (hmore c hc), hm₂, hfound₂⟩

theorem mono {given' : List Closure} {x : Eval α} (hx : Records given found x) (h : ∀ c ∈ given, c ∈ given') :
    Records given' found x := fun made m hm hgiven => hx made m hm fun c hc => hgiven c (h c hc)

theorem of_nil {x : Eval α} (hx : Records [] found x) : Records given found x := hx.mono (by simp)

theorem extend (id : ScopeId) : Records given (fun _ => []) (Eval.onStore (·.extend id)) := by
  intro made m hm hgiven
  exact ⟨made, fun _ hc => hc, hm.extend id, by simp⟩

theorem define (id : ScopeId) (name : String) {v : Value} (hv : ∀ c ∈ v.closures, c ∈ given) :
    Records given (fun _ => []) (Eval.define id name v) := by
  intro made m hm hgiven
  exact ⟨made, fun _ hc => hc, hm.define id name fun c hc => hgiven c (hv c hc), by simp⟩

theorem lookup? (id : ScopeId) (name : String) :
    Records given (fun v : Option Value => (v.map Value.closures).getD []) (Eval.lookup? id name) := by
  intro made m hm hgiven
  refine ⟨made, fun _ hc => hc, hm, fun v hv => ?_⟩
  cases v with
  | none => simp
  | some v => exact hm.of_lookup? (Except.ok.inj hv)

theorem capture (params : List String) (body : Term) (id : ScopeId) :
    Records given Value.closures
      (do Pure.pure (.closure ⟨params, body, ← Eval.onStore (·.capture id)⟩) : Eval Value) := by
  intro made m hm hgiven
  refine ⟨_, fun c hc => .inl hc, hm.capture id (c := ⟨params, body, (m.store.capture id).1⟩) rfl, fun v hv c hc => ?_⟩
  cases hv
  exact .inr (List.mem_singleton.mp hc)

theorem print (loc : Location) (v : Value) : Records given (fun _ => []) (Eval.print loc v) := by
  apply still
  · intro m
    rw [Eval.run_print]
    split <;> rfl
  · simp

theorem enter (loc : Location) {x : Eval α} (hx : Records given found x) : Records given found (Eval.enter loc x) := by
  intro made m hm hgiven
  by_cases h : m.depth < m.limit
  · rw [Eval.run_enter_of_lt loc x h]
    exact hx made { m with depth := m.depth + 1 } hm hgiven
  · rw [Eval.run_enter, if_pos (Nat.not_lt.mp h)]
    exact fail _ made m hm hgiven

end Records

namespace Term

variable {apply : Term → ScopeId → Eval Value}

theorem bindWith_records (args : List Term) (hargs : ∀ arg ∈ args, ∀ h, Records [] Value.closures (arg.evalWith apply h))
    (params : List String) (h inner : ScopeId) : Records [] (fun _ => []) (bindWith apply args params h inner) := by
  induction args generalizing params with
  | nil => exact .pure (by simp)
  | cons arg args ih =>
    rw [bindWith]
    apply (hargs arg List.mem_cons_self h).bind
    intro v
    cases params with
    | nil => exact .still (fun m => rfl) (by rintro m a ⟨⟩)
    | cons name names =>
      apply (Records.define inner name (by simp)).bind
      intro _
      exact (ih (fun a ha => hargs a (List.mem_cons_of_mem _ ha)) names).of_nil

theorem evalWith_records (happly : ∀ body h, Records [] Value.closures (apply body h)) (t : Term) :
    ∀ h, Records [] Value.closures (t.evalWith apply h) := by
  induction t using Term.inductionOn with
  | absent => exact fun h => .fail _
  | int loc n => exact fun h => .pure (by simp [Value.closures])
  | str loc s => exact fun h => .pure (by simp [Value.closures])
  | bool loc b => exact fun h => .pure (by simp [Value.closures])
  | error loc message fullText => exact fun h => .fail _
  | var loc text =>
    intro h
    rw [evalWith]
    apply (Records.lookup? h text).bind
    intro v
    cases v with
    | none => exact .fail _
    | some v => exact .pure (by simp)
  | binary loc lhs op rhs ihl ihr =>
    intro h
    rw [evalWith]
    exact (ihl h).bind fun l => (ihr h).of_nil.bind fun r => .operate loc op l r
  | letIn loc name value next ihv ihn =>
    intro h
    rw [evalWith]
    apply (ihv h).bind
    intro v
    exact (Records.define h name.text (by simp)).bind fun _ => (ihn h).of_nil
  | function loc params body _ =>
    intro h
    rw [evalWith]
    exact .capture (params.map Parameter.text) body h
  | call loc callee args listed ihc iha =>
    intro h
    rw [evalWith]
    apply (ihc h).bind
    intro v
    cases v with
    | closure c =>
      dsimp only
      split
      · exact .fail _
      · apply (Records.extend c.scope).bind
        intro inner
        apply (bindWith_records args iha c.params h inner).of_nil.bind
        intro _
        exact .enter loc (happly c.body inner).of_nil
    | _ => exact .refuse _ _
  | ite loc c t e ihc iht ihe =>
    intro h
    rw [evalWith]
    apply (ihc h).bind
    intro v
    cases v with
    | bool b => cases b with
      | true => exact (iht h).of_nil
      | false => exact (ihe h).of_nil
    | _ => exact .refuse _ _
  | tuple loc a b iha ihb =>
    intro h
    rw [evalWith]
    apply (iha h).bind
    intro x
    apply (ihb h).of_nil.bind
    intro y
    apply Records.pure
    intro c hc
    rcases List.mem_append.mp hc with hx | hy
    · simp [hx]
    · simp [hy]
  | first loc t ih =>
    intro h
    rw [evalWith]
    apply (ih h).bind
    intro v
    cases v with
    | pair x y => exact .pure (by simp +contextual [Value.closures])
    | _ => exact .refuse _ _
  | second loc t ih =>
    intro h
    rw [evalWith]
    apply (ih h).bind
    intro v
    cases v with
    | pair x y => exact .pure (by simp +contextual [Value.closures])
    | _ => exact .refuse _ _
  | print loc t ih =>
    intro h
    rw [evalWith]
    apply (ih h).bind
    intro v
    exact (Records.print loc v).bind fun _ => .pure (by simp)

theorem evalBody_records (n : Nat) (body : Term) (h : ScopeId) : Records [] Value.closures (evalBody n body h) := by
  induction n generalizing body h with
  | zero => exact .still (fun m => rfl) (by rintro m a ⟨⟩)
  | succ n ih =>
    rw [evalBody, eval_eq]
    exact evalWith_records ih body h

end Term

theorem Point.registers (p : Point) {made : Closure → Prop} (h : p.machine.store.Registers made) :
    ∃ made', (∀ c, made c → made' c) ∧ p.final.store.Registers made' ∧
      ∀ v, p.result.1 = .ok v → ∀ c ∈ v.closures, made' c := by
  rw [final, result, Term.eval_eq]
  exact Term.evalWith_records (Term.evalBody_records p.levels) p.term p.scope made p.machine h (by simp)

end TreeWalk
