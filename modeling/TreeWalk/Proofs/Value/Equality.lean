import Mathlib.Order.Defs.Unbundled
import TreeWalk.Proofs.Text.Utf8
import TreeWalk.Value.Basic

/-!
# Equality of values

What equality sees of a value is its outline: all of it, but of a closure only which one it is. Two values are equal if
their outlines are the same, and only then. So equality is an equivalence, and it respects whatever can be read off an
outline: the kind of a value and the text that is printed for it.
-/

namespace TreeWalk.Value

/-- The value with nothing left of its closures but their identity. -/
def outline : Value → Value
  | pair a b => pair a.outline b.outline
  | closure c => closure ⟨[], .absent, c.scope⟩
  | v => v

theorem kind?_outline (v : Value) : v.outline.kind? = v.kind? := by
  cases v <;> rfl

theorem format_outline (v : Value) : v.outline.format = v.format := by
  induction v with
  | pair a b iha ihb => simp only [outline, format, iha, ihb]
  | _ => rfl

theorem equal_iff {v w : Value} : v.equal w = true ↔ v.outline = w.outline := by
  -- by recursion on the first value: the components of a pair meet any components
  induction v generalizing w with
  | pair a b iha ihb => cases w <;> simp [equal, outline, iha, ihb]
  | str s => cases w <;> simp [equal, outline, Text.sameBytes_iff]
  | _ => cases w <;> simp [equal, outline]

theorem equal_equivalence : Equivalence fun v w : Value => v.equal w = true := by
  simp only [equal_iff]
  exact ⟨fun _ => rfl, Eq.symm, Eq.trans⟩

variable {v w a b a' b' : Value}

theorem format_eq_of_equal (h : v.equal w = true) : v.format = w.format := by
  rw [← format_outline v, equal_iff.mp h, format_outline]

theorem kind?_eq_of_equal (h : v.equal w = true) : v.kind? = w.kind? := by
  rw [← kind?_outline v, equal_iff.mp h, kind?_outline]

theorem equal_pair_iff : (pair a b).equal (pair a' b') = true ↔ a.equal a' = true ∧ b.equal b' = true := by
  simp [equal]

end TreeWalk.Value
