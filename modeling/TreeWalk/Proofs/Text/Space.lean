import Mathlib.Data.List.DropRight
import TreeWalk.Text.Space

/-!
# Trimming

What is left of a text when characters are dropped from both ends, and what was dropped.
-/

namespace TreeWalk.Text

variable {p : Char → Bool} {cs kept : List Char}

theorem trimList_eq_rdropWhile (p : Char → Bool) (cs : List Char) : trimList p cs = (cs.dropWhile p).rdropWhile p := rfl

theorem trimList_eq_nil_iff : trimList p cs = [] ↔ ∀ c ∈ cs, p c = true := by
  rw [trimList_eq_rdropWhile, List.rdropWhile_eq_nil_iff]
  constructor
  · intro h c hc
    rcases List.mem_append.mp ((List.takeWhile_append_dropWhile (p := p) (l := cs)).symm ▸ hc) with hc | hc
    · exact List.mem_takeWhile_imp hc
    · exact h c hc
  · intro h c hc
    exact h c ((List.dropWhile_sublist p).mem hc)

theorem exists_append_trimList (p : Char → Bool) (cs : List Char) :
    ∃ before after, cs = before ++ trimList p cs ++ after ∧ ∀ c ∈ before ++ after, p c = true := by
  refine ⟨cs.takeWhile p, (cs.dropWhile p).rtakeWhile p, ?_, fun c hc => ?_⟩
  · rw [trimList_eq_rdropWhile, List.append_assoc, List.rdropWhile_append_rtakeWhile, List.takeWhile_append_dropWhile]
  · rcases List.mem_append.mp hc with hc | hc
    · exact List.mem_takeWhile_imp hc
    · exact List.mem_rtakeWhile_imp hc

theorem dropWhile_of_head? (h : ∀ c ∈ cs.head?, p c = false) : cs.dropWhile p = cs := by
  cases cs with
  | nil => rfl
  | cons c cs => exact List.dropWhile_cons_of_neg (by simp [h c (by simp)])

theorem trimList_append {before after : List Char} (hdropped : ∀ c ∈ before ++ after, p c = true)
    (hhead : ∀ c ∈ kept.head?, p c = false) (hlast : ∀ c ∈ kept.getLast?, p c = false) :
    trimList p (before ++ kept ++ after) = kept := by
  simp only [List.forall_mem_append] at hdropped
  have hafter : ∀ c ∈ after.reverse, p c = true := fun c hc => hdropped.2 c (List.mem_reverse.mp hc)
  rw [trimList, List.append_assoc, List.dropWhile_append_of_pos hdropped.1]
  cases kept with
  | nil =>
    have hnil : after.dropWhile p = [] := List.dropWhile_eq_nil_iff.mpr hdropped.2
    rw [List.nil_append, hnil]
    rfl
  | cons c rest =>
    have hstart : (c :: rest ++ after).dropWhile p = c :: rest ++ after := dropWhile_of_head? (by simpa using hhead)
    have hend : (c :: rest).reverse.dropWhile p = (c :: rest).reverse :=
      dropWhile_of_head? (by rwa [List.head?_reverse])
    rw [hstart, List.reverse_append, List.dropWhile_append_of_pos hafter, hend, List.reverse_reverse]

theorem trimList_of_all_not (h : ∀ c ∈ cs, p c = false) : trimList p cs = cs := by
  have hends : trimList p ([] ++ cs ++ []) = cs := trimList_append (by simp)
    (fun c hc => h c (List.mem_of_mem_head? hc)) (fun c hc => h c (List.mem_of_mem_getLast? hc))
  simpa using hends

theorem trim_eq_empty_iff {s : String} : trim s = "" ↔ isBlank s = true := by
  rw [trim, String.ofList_eq_empty_iff, trimList_eq_nil_iff, isBlank, List.all_eq_true]

end TreeWalk.Text
