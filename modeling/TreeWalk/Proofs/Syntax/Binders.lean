import TreeWalk.Proofs.Syntax.Free

/-!
# Binders

The names that a term introduces, by a `let` or as a parameter. If all of them are different, no `let` binds a name
that is already in scope where it stands.
-/

namespace TreeWalk.Term

mutual

/-- The names of all `let`s and all parameters, inside function literals too. -/
def binders : Term → List String
  | binary _ lhs _ rhs => lhs.binders ++ rhs.binders
  | letIn _ name value next => name.text :: (value.binders ++ next.binders)
  | function _ params body => params.map Parameter.text ++ body.binders
  | call _ callee args _ => callee.binders ++ bindersOf args
  | ite _ condition thenBranch otherwise => condition.binders ++ (thenBranch.binders ++ otherwise.binders)
  | tuple _ a b => a.binders ++ b.binders
  | first _ t => t.binders
  | second _ t => t.binders
  | print _ t => t.binders
  | absent | int .. | str .. | bool .. | var .. | error .. => []

def bindersOf : List Term → List String
  | [] => []
  | arg :: args => arg.binders ++ bindersOf args

end

mutual

/-- No `let` binds one of `names` or a name that is bound around it. -/
def Unshadowed : Term → (names : List String) → Prop
  | binary _ lhs _ rhs, names => lhs.Unshadowed names ∧ rhs.Unshadowed names
  | letIn _ name value next, names =>
    name.text ∉ names ∧ value.Unshadowed names ∧ next.Unshadowed (name.text :: names)
  | function _ params body, names => body.Unshadowed (params.map Parameter.text ++ names)
  | call _ callee args _, names => callee.Unshadowed names ∧ AllUnshadowed args names
  | ite _ condition thenBranch otherwise, names =>
    condition.Unshadowed names ∧ thenBranch.Unshadowed names ∧ otherwise.Unshadowed names
  | tuple _ a b, names => a.Unshadowed names ∧ b.Unshadowed names
  | first _ t, names => t.Unshadowed names
  | second _ t, names => t.Unshadowed names
  | print _ t, names => t.Unshadowed names
  | absent, _ | int .., _ | str .., _ | bool .., _ | var .., _ | error .., _ => True

def AllUnshadowed : List Term → (names : List String) → Prop
  | [], _ => True
  | arg :: args, names => arg.Unshadowed names ∧ AllUnshadowed args names

end

theorem allUnshadowed_iff {args : List Term} {names : List String} :
    AllUnshadowed args names ↔ ∀ arg ∈ args, arg.Unshadowed names := by
  induction args with
  | nil => simp [AllUnshadowed]
  | cons arg args ih => simp [AllUnshadowed, ih]

theorem binders_sublist {arg : Term} {args : List Term} (h : arg ∈ args) : arg.binders.Sublist (bindersOf args) := by
  induction args with
  | nil => cases h
  | cons a args ih =>
    rw [bindersOf]
    rcases List.mem_cons.mp h with rfl | hmem
    · exact List.sublist_append_left _ _
    · exact (ih hmem).trans (List.sublist_append_right _ _)

/-- The binders are different from one another and from `names`. -/
structure Distinct (l names : List String) : Prop where
  nodup : l.Nodup
  new : ∀ x ∈ l, x ∉ names

namespace Distinct

variable {l l' names : List String}

theorem sublist (h : Distinct l' names) (hsub : l.Sublist l') : Distinct l names :=
  ⟨h.nodup.sublist hsub, fun x hx => h.new x (hsub.subset hx)⟩

theorem left (h : Distinct (l ++ l') names) : Distinct l names := h.sublist (List.sublist_append_left _ _)

theorem right (h : Distinct (l ++ l') names) : Distinct l' names := h.sublist (List.sublist_append_right _ _)

theorem inside (h : Distinct (l ++ l') names) : Distinct l' (l ++ names) := by
  obtain ⟨-, hnodup, hdisjoint⟩ := List.nodup_append.mp h.nodup
  refine ⟨hnodup, fun x hx hmem => ?_⟩
  rcases List.mem_append.mp hmem with hl | hname
  · exact hdisjoint x hl x hx rfl
  · exact h.new x (List.mem_append_right l hx) hname

end Distinct

theorem unshadowed_of_distinct (t : Term) (names : List String) (h : Distinct t.binders names) :
    t.Unshadowed names := by
  induction t using Term.inductionOn generalizing names with
  | absent | int | str | bool | var | error => trivial
  | binary loc lhs op rhs ihl ihr => exact ⟨ihl names h.left, ihr names h.right⟩
  | letIn loc name value next ihv ihn =>
    have hparts : Distinct ([name.text] ++ (value.binders ++ next.binders)) names := h
    exact ⟨h.new _ List.mem_cons_self, ihv names hparts.right.left, ihn _ hparts.inside.right⟩
  | function loc params body ih => exact ih _ h.inside
  | call loc callee args listed ihc iha =>
    refine ⟨ihc names h.left, allUnshadowed_iff.mpr fun arg harg => ?_⟩
    exact iha arg harg names (h.right.sublist (binders_sublist harg))
  | ite loc c t e ihc iht ihe => exact ⟨ihc names h.left, iht names h.right.left, ihe names h.right.right⟩
  | tuple loc a b iha ihb => exact ⟨iha names h.left, ihb names h.right⟩
  | first loc t ih | second loc t ih | print loc t ih => exact ih names h

end TreeWalk.Term
