import Mathlib.Data.List.Basic
import Mathlib.Data.String.Basic
import Mathlib.Tactic.SplitIfs
import TreeWalk.Proofs.Text.Utf8

/-!
# The order of texts

Texts are compared character by character. Their bytes compare the same way: the numbers of characters grow with their
bytes, both where the count of bytes grows and among characters of as many bytes.
-/

namespace TreeWalk.Text

theorem cons_byte_lt_iff {i j : Nat} (hi : i < 256) (hj : j < 256) {x y : List UInt8} :
    UInt8.ofNat i :: x < UInt8.ofNat j :: y ↔ i < j ∨ i = j ∧ x < y := by
  rw [List.cons_lt_cons_iff, UInt8.lt_iff_toNat_lt, ← UInt8.toNat_inj, toNat_byte hi, toNat_byte hj]

theorem utf8EncodeChar_lt {c d : Char} (h : c < d) (x y : List UInt8) :
    String.utf8EncodeChar c ++ x < String.utf8EncodeChar d ++ y := by
  have hlt : c.val.toNat < d.val.toNat := h
  have hscalar : d.val.toNat < 0xD800 ∨ 0xDFFF < d.val.toNat ∧ d.val.toNat < 0x110000 := d.valid
  unfold String.utf8EncodeChar
  dsimp only
  generalize c.val.toNat = v at *
  generalize d.val.toNat = w at *
  have hdigits (n : Nat) : n / 64 / 64 = n / 4096 ∧ n / 4096 / 64 = n / 262144 := by omega
  have hv := hdigits v
  have hw := hdigits w
  have hlead : v / 262144 ≤ w / 262144 ∧ w / 262144 < 8 := by omega
  -- characters of as many bytes differ in a digit to base 64; else the first bytes differ
  split_ifs <;> simp (disch := omega) only [List.cons_append, List.nil_append, cons_byte_lt_iff] <;> omega

theorem flatMap_utf8EncodeChar_lt {cs ds : List Char} (h : cs < ds) :
    cs.flatMap String.utf8EncodeChar < ds.flatMap String.utf8EncodeChar := by
  induction h with
  | @nil d ds =>
    have hlength : 0 < (String.utf8EncodeChar d).length := String.length_utf8EncodeChar d ▸ d.utf8Size_pos
    obtain ⟨b, bs, hb⟩ := List.exists_cons_of_length_pos hlength
    rw [List.flatMap_nil, List.flatMap_cons, hb]
    exact List.nil_lt_cons b _
  | @rel c cs d ds hcd =>
    rw [List.flatMap_cons, List.flatMap_cons]
    exact utf8EncodeChar_lt hcd _ _
  | @cons c cs ds _ ih =>
    rw [List.flatMap_cons, List.flatMap_cons]
    induction String.utf8EncodeChar c with
    | nil => exact ih
    | cons b bs hbs => exact List.cons_lt_cons_iff.mpr (.inr ⟨rfl, hbs⟩)

theorem bytes_lt {s t : String} (h : s < t) : bytes s < bytes t := by
  rw [bytes_eq, bytes_eq]
  exact flatMap_utf8EncodeChar_lt (String.lt_iff_toList_lt.mp h)

/-- Texts that are all different come in the strict order of their bytes when they are sorted. -/
theorem pairwise_mergeSort {texts : List String} (h : texts.Nodup) :
    (texts.mergeSort fun a b => a ≤ b).Pairwise (bytes · < bytes ·) := by
  have htrans (a b c : String) (hab : decide (a ≤ b) = true) (hbc : decide (b ≤ c) = true) : decide (a ≤ c) = true :=
    decide_eq_true ((of_decide_eq_true hab).trans (of_decide_eq_true hbc))
  have htotal (a b : String) : (decide (a ≤ b) || decide (b ≤ a)) = true := by simpa using le_total a b
  have hsorted := (List.pairwise_mergeSort htrans htotal texts).imp of_decide_eq_true
  have hnodup : (texts.mergeSort fun a b => a ≤ b).Nodup := (List.mergeSort_perm texts _).nodup_iff.mpr h
  exact (hsorted.and hnodup).imp fun hab => bytes_lt (lt_of_le_of_ne hab.1 hab.2)

end TreeWalk.Text
