import TreeWalk.Proofs.Eval.Run

/-!
# Subterms

The nodes of a term: the term itself, and the nodes of its parts. A term is well formed if every node of it
is sound by itself: none is absent, every operator has a meaning, every name has at least one character and every text
is valid UTF-8.
-/

namespace TreeWalk.Term

/-- The terms that stand directly in a term. -/
def parts : Term → List Term
  | binary _ lhs _ rhs => [lhs, rhs]
  | letIn _ _ value next => [value, next]
  | function _ _ body => [body]
  | call _ callee args _ => callee :: args
  | ite _ condition thenBranch otherwise => [condition, thenBranch, otherwise]
  | tuple _ a b => [a, b]
  | first _ t | second _ t | print _ t => [t]
  | absent | int .. | str .. | bool .. | var .. | error .. => []

mutual

def subterms : Term → List Term
  | binary loc lhs op rhs => binary loc lhs op rhs :: (lhs.subterms ++ rhs.subterms)
  | letIn loc name value next => letIn loc name value next :: (value.subterms ++ next.subterms)
  | function loc params body => function loc params body :: body.subterms
  | call loc callee args listed => call loc callee args listed :: (callee.subterms ++ subtermsOf args)
  | ite loc c t e => ite loc c t e :: (c.subterms ++ (t.subterms ++ e.subterms))
  | tuple loc a b => tuple loc a b :: (a.subterms ++ b.subterms)
  | first loc t => first loc t :: t.subterms
  | second loc t => second loc t :: t.subterms
  | print loc t => print loc t :: t.subterms
  | t => [t]

def subtermsOf : List Term → List Term
  | [] => []
  | arg :: args => arg.subterms ++ subtermsOf args

end

/-- Induction over terms where what is to be shown of a term may be assumed of all its parts. -/
theorem partsInduction {P : Term → Prop} (t : Term) (h : ∀ t : Term, (∀ part ∈ t.parts, P part) → P t) : P t := by
  induction t using Term.inductionOn with
  | call loc callee args listed ihc iha =>
    apply h
    intro part hpart
    rcases List.mem_cons.mp hpart with rfl | harg
    · exact ihc
    · exact iha part harg
  | _ =>
    apply h
    simp_all [parts]

theorem mem_subtermsOf {s : Term} {args : List Term} : s ∈ subtermsOf args ↔ ∃ arg ∈ args, s ∈ arg.subterms := by
  induction args with
  | nil => simp [subtermsOf]
  | cons arg args ih => simp [subtermsOf, ih]

theorem mem_subterms {s t : Term} : s ∈ t.subterms ↔ s = t ∨ ∃ part ∈ t.parts, s ∈ part.subterms := by
  cases t <;> simp [subterms, parts, mem_subtermsOf]

theorem self_mem_subterms (t : Term) : t ∈ t.subterms := mem_subterms.mpr (.inl rfl)

theorem part_mem_subterms {t part : Term} (h : part ∈ t.parts) : part ∈ t.subterms :=
  mem_subterms.mpr (.inr ⟨part, h, part.self_mem_subterms⟩)

theorem subterms_trans {r s t : Term} (hs : s ∈ t.subterms) (hr : r ∈ s.subterms) : r ∈ t.subterms := by
  induction t using partsInduction with
  | h t ih =>
    rcases mem_subterms.mp hs with rfl | ⟨part, hpart, hmem⟩
    · exact hr
    · exact mem_subterms.mpr (.inr ⟨part, hpart, ih part hpart hmem⟩)

/-- What a node has to satisfy by itself for a program to be able to hold it. -/
def Sound : Term → Prop
  | absent => False
  | str _ s => s.IsValidUTF8
  | binary _ _ op _ => op.isKnown
  | var _ text => text ≠ ""
  | letIn _ name _ _ => name.text ≠ ""
  | function _ params _ => ∀ p ∈ params, p.text ≠ ""
  | int .. | bool .. | call .. | ite .. | tuple .. | first .. | second .. | print .. | error .. => True

instance (t : Term) : Decidable t.Sound :=
  match t with
  | absent => inferInstanceAs (Decidable False)
  | str _ s => inferInstanceAs (Decidable s.IsValidUTF8)
  | binary _ _ op _ => inferInstanceAs (Decidable (op.isKnown = true))
  | var _ text => inferInstanceAs (Decidable (text ≠ ""))
  | letIn _ name _ _ => inferInstanceAs (Decidable (name.text ≠ ""))
  | function _ params _ => inferInstanceAs (Decidable (∀ p ∈ params, p.text ≠ ""))
  | int .. | bool .. | call .. | ite .. | tuple .. | first .. | second .. | print .. | error .. =>
    inferInstanceAs (Decidable True)

/-- Every node is sound. -/
def WellFormed (t : Term) : Prop := ∀ s ∈ t.subterms, s.Sound

instance (t : Term) : Decidable t.WellFormed := inferInstanceAs (Decidable (∀ s ∈ t.subterms, s.Sound))

theorem wellFormed_iff {t : Term} : t.WellFormed ↔ t.Sound ∧ ∀ part ∈ t.parts, part.WellFormed := by
  constructor
  · intro h
    exact ⟨h t t.self_mem_subterms, fun part hpart s hs => h s (subterms_trans (part_mem_subterms hpart) hs)⟩
  · rintro ⟨hself, hparts⟩ s hs
    rcases mem_subterms.mp hs with rfl | ⟨part, hpart, hmem⟩
    · exact hself
    · exact hparts part hpart s hmem

end TreeWalk.Term
