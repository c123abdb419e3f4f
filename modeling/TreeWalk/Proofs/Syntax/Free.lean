import Mathlib.Logic.Basic
import TreeWalk.Proofs.Eval.Run

/-!
# Free names

The names a term mentions and does not bind itself. A `let` binds its name in its continuation, not in
its value, and a function literal binds its parameters in its body. A term is well scoped under some names
if it mentions, outside what it binds, no other names.
-/

namespace TreeWalk.Term

mutual

def free : Term → List String
  | var _ text => [text]
  | binary _ lhs _ rhs => lhs.free ++ rhs.free
  | letIn _ name value next => value.free ++ next.free.filter (· ≠ name.text)
  | function _ params body => body.free.filter (· ∉ params.map Parameter.text)
  | call _ callee args _ => callee.free ++ freeOf args
  | ite _ condition thenBranch otherwise => condition.free ++ (thenBranch.free ++ otherwise.free)
  | tuple _ a b => a.free ++ b.free
  | first _ t => t.free
  | second _ t => t.free
  | print _ t => t.free
  | absent | int .. | str .. | bool .. | error .. => []

def freeOf : List Term → List String
  | [] => []
  | arg :: args => arg.free ++ freeOf args

end

mutual

/-- Every variable is one of `names`, or a name that a `let` binds in the continuation it stands in, or a
parameter of a function literal around it. -/
def WellScoped : Term → (names : List String) → Prop
  | var _ text, names => text ∈ names
  | binary _ lhs _ rhs, names => lhs.WellScoped names ∧ rhs.WellScoped names
  | letIn _ name value next, names => value.WellScoped names ∧ next.WellScoped (name.text :: names)
  | function _ params body, names => body.WellScoped (params.map Parameter.text ++ names)
  | call _ callee args _, names => callee.WellScoped names ∧ AllWellScoped args names
  | ite _ condition thenBranch otherwise, names =>
    condition.WellScoped names ∧ thenBranch.WellScoped names ∧ otherwise.WellScoped names
  | tuple _ a b, names => a.WellScoped names ∧ b.WellScoped names
  | first _ t, names => t.WellScoped names
  | second _ t, names => t.WellScoped names
  | print _ t, names => t.WellScoped names
  | absent, _ | int .., _ | str .., _ | bool .., _ | error .., _ => True

def AllWellScoped : List Term → (names : List String) → Prop
  | [], _ => True
  | arg :: args, names => arg.WellScoped names ∧ AllWellScoped args names

end

variable {x : String} {names : List String}

theorem mem_freeOf {args : List Term} : x ∈ freeOf args ↔ ∃ arg ∈ args, x ∈ arg.free := by
  induction args with
  | nil => simp [freeOf]
  | cons arg args ih => simp [freeOf, ih]

theorem mem_free_letIn {loc : Location} {name : Parameter} {value next : Term} :
    x ∈ (letIn loc name value next).free ↔ x ∈ value.free ∨ x ∈ next.free ∧ x ≠ name.text := by
  simp [free]

theorem mem_free_function {loc : Location} {params : List Parameter} {body : Term} :
    x ∈ (function loc params body).free ↔ x ∈ body.free ∧ x ∉ params.map Parameter.text := by
  simp only [free, List.mem_filter, decide_eq_true_eq]

theorem allWellScoped_iff {args : List Term} : AllWellScoped args names ↔ ∀ arg ∈ args, arg.WellScoped names := by
  induction args with
  | nil => simp [AllWellScoped]
  | cons arg args ih => simp [AllWellScoped, ih]

theorem wellScoped_iff (t : Term) (names : List String) : t.WellScoped names ↔ ∀ x ∈ t.free, x ∈ names := by
  induction t using Term.inductionOn generalizing names with
  | absent => simp [WellScoped, free]
  | int loc n => simp [WellScoped, free]
  | str loc s => simp [WellScoped, free]
  | bool loc b => simp [WellScoped, free]
  | error loc message fullText => simp [WellScoped, free]
  | var loc text => simp [WellScoped, free]
  | binary loc lhs op rhs ihl ihr => simp [WellScoped, free, ihl, ihr, or_imp, forall_and]
  | letIn loc name value next ihv ihn =>
    rw [WellScoped, ihv, ihn]
    simp only [mem_free_letIn, List.mem_cons, or_imp, forall_and]
    refine and_congr_right fun _ => forall_congr' fun x => ?_
    rw [and_imp]
    exact imp_congr_right fun _ => or_iff_not_imp_left
  | function loc params body ih =>
    rw [WellScoped, ih]
    simp only [mem_free_function, List.mem_append, and_imp]
    exact forall_congr' fun x => imp_congr_right fun _ => or_iff_not_imp_left
  | call loc callee args listed ihc iha =>
    rw [WellScoped, ihc, allWellScoped_iff, free]
    simp only [List.mem_append, mem_freeOf, or_imp, forall_and]
    refine and_congr_right fun _ => ⟨fun h x hx => ?_, fun h arg harg => ?_⟩
    · obtain ⟨arg, harg, hfree⟩ := hx
      exact (iha arg harg names).mp (h arg harg) x hfree
    · exact (iha arg harg names).mpr fun x hx => h x ⟨arg, harg, hx⟩
  | ite loc c t e ihc iht ihe => simp [WellScoped, free, ihc, iht, ihe, or_imp, forall_and]
  | tuple loc a b iha ihb => simp [WellScoped, free, iha, ihb, or_imp, forall_and]
  | first loc t ih => rw [WellScoped, ih, free]
  | second loc t ih => rw [WellScoped, ih, free]
  | print loc t ih => rw [WellScoped, ih, free]

instance (t : Term) (names : List String) : Decidable (t.WellScoped names) :=
  decidable_of_iff _ (t.wellScoped_iff names).symm

end TreeWalk.Term
