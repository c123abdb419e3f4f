import TreeWalk.Proofs.Session.Custody

/-!
# What a caller's evaluations mean

In a session, a scope that the caller holds and the fresh global scope of a run are such that evaluation there
does what the reference semantics does. So what holds of the reference semantics holds of a caller's
evaluations and runs.
-/

namespace TreeWalk

namespace Caller

variable {i : Interpreter} {k : Caller}

theorem Session.sealed (h : Session i k) {g : Nat} (hg : k.held g) :
    i.machine.store.Sealed (fun _ => True) (· = g) := by
  refine h.apart.sealed.mono ?_
  rintro _ rfl
  exact hg

theorem Apart.fresh_sealed (hk : k.Apart i) :
    i.fresh.machine.store.Sealed (fun _ => True) (· = i.fresh.global) := by
  have hscope : i.fresh.machine.store.scope? i.fresh.global = some ⟨[], none⟩ :=
    (Store.scope?_alloc _ _ _).trans (if_pos rfl)
  have houter : ∀ id, none = some id → k.held id := nofun
  refine (hk.child_sealed houter).mono ?_
  rintro g rfl
  exact .inr ⟨Nat.le_refl _, Store.lt_size hscope⟩

end Caller

namespace Interpreter

theorem fresh_contents {i : Interpreter} (ho : i.machine.store.Ordered) :
    i.fresh.machine.store.contents i.fresh.global = [[]] := by
  have hordered : i.fresh.machine.store.Ordered := ho.child (by rintro id ⟨⟩)
  have hscope : i.fresh.machine.store.scope? i.fresh.global = some ⟨[], none⟩ :=
    (Store.scope?_alloc _ _ _).trans (if_pos rfl)
  rw [Store.contents_of_scope? hordered hscope, Store.around_none]
  rfl

/-- A run does what the reference semantics does in an empty environment. -/
theorem run_refines {i : Interpreter} {k : Caller} (h : Caller.Session i k) {p : Program}
    (hp : ¬p.expression.isAbsent) :
    Reference.evaluate i.machine.limit 0 p.expression [[]] i.machine.output =
      ((i.run p).1.map (i.run p).2.machine.store.read, (i.run p).2.machine.output,
        (i.run p).2.machine.store.contents (i.run p).2.global) := by
  have hrefines := (i.fresh.point p.expression i.fresh.global).refines h.apart.fresh_sealed rfl
    (fun _ _ => trivial) rfl
  have hcontents := fresh_contents h.apart.sealed.ordered
  rw [run_present hp]
  exact (congrArg (Reference.evaluate _ _ _ · _) hcontents).symm.trans hrefines

theorem run_sealed {i : Interpreter} {k : Caller} (h : Caller.Session i k) {p : Program}
    (hp : ¬p.expression.isAbsent) :
    (i.run p).2.machine.store.Sealed (fun _ => True) (· = (i.run p).2.global) ∧
      ∀ v, (i.run p).1 = .ok v → (i.run p).2.machine.store.Owns (· = (i.run p).2.global) v := by
  rw [run_present hp]
  exact (i.fresh.point p.expression i.fresh.global).sealed h.apart.fresh_sealed rfl (fun _ _ => trivial) rfl

end Interpreter

theorem map_eq_error {α β : Type} {r : Except Failure α} {f : α → β} {e : Failure} :
    r.map f = .error e ↔ r = .error e := by
  cases r with
  | error e' => exact ⟨fun h => congrArg _ (Except.error.inj h), fun h => congrArg _ (Except.error.inj h)⟩
  | ok a => exact ⟨nofun, nofun⟩

end TreeWalk
