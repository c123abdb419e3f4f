import Mathlib.Data.List.Basic
import TreeWalk.Text.Utf8

/-!
# Reading the bytes of a text

The characters of a text are found again in its bytes, whatever follows them.
-/

namespace TreeWalk.Text

theorem sameBytes_iff {a b : ByteArray} : sameBytes a b = true ↔ a = b := by
  rw [sameBytes, decide_eq_true_eq, ByteArray.ext_iff]

def bytes (s : String) : List UInt8 := s.toUTF8.data.toList

theorem bytes_eq (s : String) : bytes s = s.toList.flatMap String.utf8EncodeChar := by
  have hs : s.toByteArray = s.toList.utf8Encode := by rw [← String.toByteArray_ofList, String.ofList_toList]
  rw [bytes, String.toUTF8_eq_toByteArray, hs, List.utf8Encode, List.toList_data_toByteArray]

@[simp] theorem bytes_append (s t : String) : bytes (s ++ t) = bytes s ++ bytes t := by
  rw [bytes_eq, bytes_eq, bytes_eq, String.toList_append, List.flatMap_append]

theorem utf8EncodeChar_ascii {c : Char} (h : c.toNat < 0x80) : String.utf8EncodeChar c = [UInt8.ofNat c.toNat] := by
  have hle : c.val.toNat ≤ 0x7f := Nat.le_of_lt_succ h
  rw [String.utf8EncodeChar, if_pos hle]
  rfl

theorem toNat_byte {n : Nat} (h : n < 256) : (UInt8.ofNat n).toNat = n := by simp [Nat.mod_eq_of_lt h]

theorem le_of_mem_utf8EncodeChar {c : Char} (h : 0x80 ≤ c.toNat) {b : UInt8} (hb : b ∈ String.utf8EncodeChar c) :
    0x80 ≤ b.toNat := by
  have hnumber : c.val.toNat = c.toNat := rfl
  unfold String.utf8EncodeChar at hb
  dsimp only at hb
  rw [hnumber, if_neg (by omega)] at hb
  split at hb
  · simp only [List.mem_cons, List.not_mem_nil, or_false] at hb
    rcases hb with rfl | rfl <;> rw [toNat_byte (by omega)] <;> omega
  split at hb
  · simp only [List.mem_cons, List.not_mem_nil, or_false] at hb
    rcases hb with rfl | rfl | rfl <;> rw [toNat_byte (by omega)] <;> omega
  · simp only [List.mem_cons, List.not_mem_nil, or_false] at hb
    rcases hb with rfl | rfl | rfl | rfl <;> rw [toNat_byte (by omega)] <;> omega

theorem isTail_iff (b : UInt8) : isTail b = true ↔ 0x80 ≤ b.toNat ∧ b.toNat ≤ 0xBF := by
  simp [isTail, UInt8.le_iff_toNat_le]

section LeadChar

variable {a b c d : UInt8} {i j k l : Nat}

theorem leadChar?_one (ha : a.toNat = i) (hi : i < 0x80) (rest : List UInt8) :
    leadChar? a rest = some (Char.ofNat i, 0) := by
  have hlead : a < 0x80 := UInt8.lt_iff_toNat_lt.mpr (ha ▸ hi)
  unfold leadChar?
  rw [if_pos hlead, ha]

theorem leadChar?_two (ha : a.toNat = i + 0xC0) (hb : b.toNat = j + 0x80) (hi : i < 0x20) (hj : j < 0x40)
    (hleast : 0x80 ≤ i * 64 + j) (rest : List UInt8) :
    leadChar? a (b :: rest) = some (Char.ofNat (i * 64 + j), 1) := by
  have htail : isTail b = true := (isTail_iff b).mpr (by omega)
  unfold leadChar?
  rw [if_neg (by simp [UInt8.lt_iff_toNat_lt, ha]), if_pos (by simp [UInt8.le_iff_toNat_le, ha]; omega)]
  dsimp only
  rw [if_pos htail]
  change some (Char.ofNat ((a.toNat - 0xC0) * 64 + (b.toNat - 0x80)), 1) = _
  rw [ha, hb, Nat.add_sub_cancel, Nat.add_sub_cancel]

theorem leadChar?_three (ha : a.toNat = i + 0xE0) (hb : b.toNat = j + 0x80) (hc : c.toNat = k + 0x80) (hi : i < 0x10)
    (hj : j < 0x40) (hk : k < 0x40) (hleast : 0x800 ≤ i * 4096 + j * 64 + k)
    (hscalar : i * 4096 + j * 64 + k < 0xD800 ∨ 0xDFFF < i * 4096 + j * 64 + k) (rest : List UInt8) :
    leadChar? a (b :: c :: rest) = some (Char.ofNat (i * 4096 + j * 64 + k), 2) := by
  have htail : isTail b = true ∧ isTail c = true := ⟨(isTail_iff b).mpr (by omega), (isTail_iff c).mpr (by omega)⟩
  unfold leadChar?
  rw [if_neg (by simp [UInt8.lt_iff_toNat_lt, ha]), if_neg (by simp [UInt8.le_iff_toNat_le, ha]),
    if_pos (by simp [UInt8.le_iff_toNat_le, ha]; omega)]
  change (let n := (a.toNat - 0xE0) * 4096 + (b.toNat - 0x80) * 64 + (c.toNat - 0x80);
    if isTail b && isTail c && 0x800 ≤ n && !(0xD800 ≤ n && n ≤ 0xDFFF) then some (Char.ofNat n, 2) else none) = _
  rw [ha, hb, hc, Nat.add_sub_cancel, Nat.add_sub_cancel, Nat.add_sub_cancel]
  dsimp only
  rw [if_pos (by simp [htail, hleast]; omega)]

theorem leadChar?_four (ha : a.toNat = i + 0xF0) (hb : b.toNat = j + 0x80) (hc : c.toNat = k + 0x80)
    (hd : d.toNat = l + 0x80) (hi : i < 5) (hj : j < 0x40) (hk : k < 0x40) (hl : l < 0x40)
    (hleast : 0x10000 ≤ i * 262144 + j * 4096 + k * 64 + l) (hmost : i * 262144 + j * 4096 + k * 64 + l ≤ 0x10FFFF)
    (rest : List UInt8) :
    leadChar? a (b :: c :: d :: rest) = some (Char.ofNat (i * 262144 + j * 4096 + k * 64 + l), 3) := by
  have htail : isTail b = true ∧ isTail c = true ∧ isTail d = true :=
    ⟨(isTail_iff b).mpr (by omega), (isTail_iff c).mpr (by omega), (isTail_iff d).mpr (by omega)⟩
  unfold leadChar?
  rw [if_neg (by simp [UInt8.lt_iff_toNat_lt, ha]), if_neg (by simp [UInt8.le_iff_toNat_le, ha]),
    if_neg (by simp [UInt8.le_iff_toNat_le, ha]), if_pos (by simp [UInt8.le_iff_toNat_le, ha]; omega)]
  change (let n := (a.toNat - 0xF0) * 262144 + (b.toNat - 0x80) * 4096 + (c.toNat - 0x80) * 64 + (d.toNat - 0x80);
    if isTail b && isTail c && isTail d && 0x10000 ≤ n && n ≤ 0x10FFFF then some (Char.ofNat n, 3) else none) = _
  rw [ha, hb, hc, hd, Nat.add_sub_cancel, Nat.add_sub_cancel, Nat.add_sub_cancel, Nat.add_sub_cancel]
  dsimp only
  rw [if_pos (by simp [htail, hleast, hmost])]

end LeadChar

theorem piecesFrom_length (taken rest : List UInt8) :
    piecesFrom taken.length (taken ++ rest) = piecesFrom 0 rest := by
  induction taken with
  | nil => rfl
  | cons b taken ih => exact ih

theorem piecesFrom_lead {a : UInt8} {c : Char} (tail : List UInt8) {rest : List UInt8}
    (h : leadChar? a (tail ++ rest) = some (c, tail.length)) :
    piecesFrom 0 (a :: (tail ++ rest)) = .char c :: piecesFrom 0 rest := by
  rw [piecesFrom, h]
  exact congrArg _ (piecesFrom_length tail rest)

theorem piecesFrom_char (c : Char) (rest : List UInt8) :
    piecesFrom 0 (String.utf8EncodeChar c ++ rest) = .char c :: piecesFrom 0 rest := by
  have hscalar : c.toNat < 0xD800 ∨ 0xDFFF < c.toNat ∧ c.toNat < 0x110000 := c.valid
  have hnumber : c.val.toNat = c.toNat := rfl
  unfold String.utf8EncodeChar
  dsimp only
  rw [hnumber]
  -- as many bytes as the number of the character needs; their digits to base 64 give it back
  split
  · have hlead := leadChar?_one (toNat_byte (n := c.toNat) (by omega)) (by omega) rest
    rw [Char.ofNat_toNat] at hlead
    exact piecesFrom_lead [] hlead
  split
  · have hlead := leadChar?_two (toNat_byte (n := c.toNat / 64 % 0x20 + 0xc0) (by omega))
      (toNat_byte (n := c.toNat % 0x40 + 0x80) (by omega)) (by omega) (by omega) (by omega) rest
    have hdigits : c.toNat / 64 % 0x20 * 64 + c.toNat % 0x40 = c.toNat := by omega
    rw [hdigits, Char.ofNat_toNat] at hlead
    exact piecesFrom_lead [_] hlead
  split
  · have hdigits : c.toNat / 4096 % 0x10 * 4096 + c.toNat / 64 % 0x40 * 64 + c.toNat % 0x40 = c.toNat := by omega
    have hlead := leadChar?_three (toNat_byte (n := c.toNat / 4096 % 0x10 + 0xe0) (by omega))
      (toNat_byte (n := c.toNat / 64 % 0x40 + 0x80) (by omega)) (toNat_byte (n := c.toNat % 0x40 + 0x80) (by omega))
      (by omega) (by omega) (by omega) (by omega) (by omega) rest
    rw [hdigits, Char.ofNat_toNat] at hlead
    exact piecesFrom_lead [_, _] hlead
  · have hdigits : c.toNat / 262144 % 0x8 * 262144 + c.toNat / 4096 % 0x40 * 4096 + c.toNat / 64 % 0x40 * 64 +
        c.toNat % 0x40 = c.toNat := by omega
    have hlead := leadChar?_four (toNat_byte (n := c.toNat / 262144 % 0x8 + 0xf0) (by omega))
      (toNat_byte (n := c.toNat / 4096 % 0x40 + 0x80) (by omega))
      (toNat_byte (n := c.toNat / 64 % 0x40 + 0x80) (by omega)) (toNat_byte (n := c.toNat % 0x40 + 0x80) (by omega))
      (by omega) (by omega) (by omega) (by omega) (by omega) (by omega) rest
    rw [hdigits, Char.ofNat_toNat] at hlead
    exact piecesFrom_lead [_, _, _] hlead

theorem pieces_bytes (s : String) : pieces (bytes s) = s.toList.map .char := by
  rw [bytes_eq, pieces]
  induction s.toList with
  | nil => rfl
  | cons c cs ih => rw [List.flatMap_cons, piecesFrom_char, ih, List.map_cons]

theorem chars_bytes (s : String) : chars (bytes s) = s.toList := by
  rw [chars, pieces_bytes, List.map_map]
  exact List.map_id s.toList

theorem toUTF8_decode {b : ByteArray} (h : b.IsValidUTF8) : (decode b).toUTF8 = b := by
  rw [decode, String.fromUTF8?, dif_pos h]
  rfl

end TreeWalk.Text
