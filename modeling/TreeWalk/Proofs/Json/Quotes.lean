import Mathlib.Data.List.Basic
import TreeWalk.Json.Reader
import TreeWalk.Json.Writer
import TreeWalk.Proofs.Text.Utf8

/-!
# Texts between quotes

What is written between the quotes of a text keeps the reader inside the quotes, and is read as that text: each
character stands for itself or is escaped in one of two ways.
-/

namespace TreeWalk.Text

theorem toList_hex_succ (width n : Nat) :
    (hex (width + 2) n).toList = (hex (width + 1) (n / 16)).toList ++ [Nat.digitChar (n % 16)] := by
  simp only [hex, String.toList_ofList]
  by_cases h : n < 16
  · have hzero : n / 16 = 0 := by omega
    rw [Nat.toDigits_of_lt_base h, hzero, Nat.toDigits_zero, Nat.mod_eq_of_lt h]
    simp [List.replicate_succ']
  · rw [Nat.toDigits_of_base_le (by decide) (by omega), List.length_append, List.length_singleton,
      Nat.succ_sub_succ, List.append_assoc]

theorem toList_hex_four {n : Nat} (h : n < 0x10000) :
    (hex 4 n).toList = [Nat.digitChar (n / 4096), Nat.digitChar (n / 256 % 16), Nat.digitChar (n / 16 % 16),
      Nat.digitChar (n % 16)] := by
  have hlead : (hex 1 (n / 4096)).toList = [Nat.digitChar (n / 4096)] := by
    simp only [hex, String.toList_ofList]
    rw [Nat.toDigits_of_lt_base (by omega)]
    rfl
  simp only [toList_hex_succ, Nat.div_div_eq_div_mul, hlead]
  rfl

end TreeWalk.Text

namespace TreeWalk.Json

theorem hexValue?_digitChar : ∀ n < 16, hexValue? (Nat.digitChar n) = some n := by decide

theorem hex4_digits {n : Nat} (h : n < 0x10000) :
    hex4 (Nat.digitChar (n / 4096)) (Nat.digitChar (n / 256 % 16)) (Nat.digitChar (n / 16 % 16)) (Nat.digitChar (n % 16)) =
      n := by
  simp only [hex4, hexValue?_digitChar (n / 4096) (by omega), hexValue?_digitChar (n / 256 % 16) (by omega),
    hexValue?_digitChar (n / 16 % 16) (by omega), hexValue?_digitChar (n % 16) (by omega), Option.getD_some]
  omega

/-- What stands for a character between quotes. -/
inductive CharForm (c : Char) : String → Prop
  | mark {e : Char} (he : e ∈ ['"', '\\', 'b', 'f', 'n', 'r', 't']) (hc : escaped e = c) :
    CharForm c (String.ofList ['\\', e])
  | number (hc : c.toNat < 0x10000) : CharForm c ("\\u" ++ Text.hex 4 c.toNat)
  | plain (hleast : 0x20 ≤ c.toNat) (hquote : c ≠ '"') (hslash : c ≠ '\\') : CharForm c (String.singleton c)

theorem writeChar_form (c : Char) : CharForm c (writeChar c) := by
  unfold writeChar
  split
  · exact .mark (e := '"') (by decide) rfl
  · exact .mark (e := '\\') (by decide) rfl
  · exact .mark (e := 'b') (by decide) rfl
  · exact .mark (e := 'f') (by decide) rfl
  · exact .mark (e := 'n') (by decide) rfl
  · exact .mark (e := 'r') (by decide) rfl
  · exact .mark (e := 't') (by decide) rfl
  · next hquote hslash _ _ _ _ _ =>
    split
    · next hmarkup =>
      apply CharForm.number
      simp only [Bool.or_eq_true, decide_eq_true_eq] at hmarkup
      rcases hmarkup with ((((h | rfl) | rfl) | rfl) | h) | h
      · omega
      · decide
      · decide
      · decide
      · omega
      · omega
    · next hmarkup =>
      simp only [Bool.or_eq_true, decide_eq_true_eq, not_or] at hmarkup
      exact .plain (by omega) hquote hslash

theorem units_writeChar (c : Char) (rest : List Char) :
    units ((writeChar c).toList ++ rest) = c.toNat :: units rest := by
  have hform := writeChar_form c
  generalize writeChar c = form at hform ⊢
  cases hform with
  | mark he hc =>
    rw [String.toList_ofList, ← hc]
    simp only [List.mem_cons, List.not_mem_nil, or_false] at he
    rcases he with rfl | rfl | rfl | rfl | rfl | rfl | rfl <;> rfl
  | number hc =>
    rw [String.toList_append, Text.toList_hex_four hc]
    change hex4 _ _ _ _ :: units rest = _
    rw [hex4_digits hc]
  | plain hleast hquote hslash =>
    rw [String.toList_singleton, List.singleton_append, units]
    · exact fun _ _ _ _ _ h => absurd h hslash
    · exact fun _ _ h => absurd h hslash

/-- The numbers of characters stand for those characters: none is a surrogate. -/
theorem joinUnits_toNat (cs : List Char) : joinUnits (cs.map Char.toNat) = cs := by
  have hscalar (c : Char) : isHighSurrogate c.toNat = false ∧ isLowSurrogate c.toNat = false := by
    have hvalid : c.toNat < 0xD800 ∨ 0xDFFF < c.toNat ∧ c.toNat < 0x110000 := c.valid
    simp [isHighSurrogate, isLowSurrogate]
    omega
  have hchar (c : Char) : unitChar c.toNat = c := by
    simp [unitChar, hscalar]
  induction cs with
  | nil => rfl
  | cons c cs ih =>
    cases cs with
    | nil => simp [joinUnits, hchar]
    | cons d cs =>
      rw [List.map_cons, List.map_cons, joinUnits, (hscalar c).1, hchar]
      exact congrArg (c :: ·) ih

def inner (s : String) : List UInt8 := s.toList.flatMap fun c => Text.bytes (writeChar c)

theorem bytes_writeString (s : String) : Text.bytes (writeString s) = 0x22 :: (inner s ++ [0x22]) := by
  have hfold (cs : List Char) (acc : String) :
      Text.bytes (cs.foldl (fun acc c => acc ++ writeChar c) acc) =
        Text.bytes acc ++ cs.flatMap fun c => Text.bytes (writeChar c) := by
    induction cs generalizing acc with
    | nil => simp
    | cons c cs ih => rw [List.foldl_cons, ih, Text.bytes_append, List.flatMap_cons, List.append_assoc]
  rw [writeString, Text.bytes_append, Text.bytes_append, String.foldl_eq_foldl_toList, hfold]
  rfl

theorem stringOf_inner (s : String) : stringOf (inner s).reverse = s := by
  have hbytes : inner s = Text.bytes (String.ofList (s.toList.flatMap fun c => (writeChar c).toList)) := by
    rw [Text.bytes_eq, String.toList_ofList, List.flatMap_assoc]
    simp only [inner, Text.bytes_eq]
  have hunits (cs : List Char) : units (cs.flatMap fun c => (writeChar c).toList) = cs.map Char.toNat := by
    induction cs with
    | nil => rfl
    | cons c cs ih => rw [List.flatMap_cons, units_writeChar, ih, List.map_cons]
  rw [stringOf, List.reverse_reverse, hbytes, Text.chars_bytes, String.toList_ofList, hunits, joinUnits_toNat,
    String.ofList_toList]

/-- The bytes lead from one part of a string to another without closing it. -/
inductive Passes : StringPart → List UInt8 → StringPart → Prop
  | nil (part : StringPart) : Passes part [] part
  | cons {part next last : StringPart} {b : UInt8} {rest : List UInt8} (hopen : ¬ (part = .plain ∧ b = 0x22))
    (hnext : part.next? b = some next) (hrest : Passes next rest last) : Passes part (b :: rest) last

theorem Passes.append {part next last : StringPart} {l l' : List UInt8} (h : Passes part l next)
    (h' : Passes next l' last) : Passes part (l ++ l') last := by
  induction h with
  | nil part => exact h'
  | cons hopen hnext _ ih => exact .cons hopen hnext (ih h')

theorem passes_plain {l : List UInt8} (h : ∀ b ∈ l, 0x20 ≤ b.toNat ∧ b.toNat ≠ 0x22 ∧ b.toNat ≠ 0x5C) :
    Passes .plain l .plain := by
  induction l with
  | nil => exact .nil _
  | cons b l ih =>
    obtain ⟨hleast, hquote, hslash⟩ := h b List.mem_cons_self
    have hnext : StringPart.next? .plain b = some .plain := by
      simp [StringPart.next?, UInt8.lt_iff_toNat_lt, ← UInt8.toNat_inj, hleast, hslash]
    exact .cons (by simp [← UInt8.toNat_inj, hquote]) hnext (ih fun b hb => h b (List.mem_cons_of_mem _ hb))

theorem next?_hex_succ {b : UInt8} (h : isHex b = true) (more : Nat) :
    (StringPart.hex (more + 1)).next? b = some (.hex more) := by
  simp [StringPart.next?, h]

theorem next?_hex_zero {b : UInt8} (h : isHex b = true) : (StringPart.hex 0).next? b = some .plain := by
  simp [StringPart.next?, h]

theorem isHex_digitChar : ∀ n < 16, isHex (UInt8.ofNat (Nat.digitChar n).toNat) = true := by decide

theorem digitChar_ascii : ∀ n < 16, (Nat.digitChar n).toNat < 0x80 := by decide

theorem passes_hex {n : Nat} (h : n < 0x10000) : Passes (.hex 3) (Text.bytes (Text.hex 4 n)) .plain := by
  have digit (m : Nat) (hm : m < 16) :
      String.utf8EncodeChar (Nat.digitChar m) = [UInt8.ofNat (Nat.digitChar m).toNat] :=
    Text.utf8EncodeChar_ascii (digitChar_ascii m hm)
  rw [Text.bytes_eq, Text.toList_hex_four h]
  simp only [List.flatMap_cons, List.flatMap_nil, digit (n / 4096) (by omega), digit (n / 256 % 16) (by omega),
    digit (n / 16 % 16) (by omega), digit (n % 16) (by omega)]
  apply Passes.cons (by simp) (next?_hex_succ (isHex_digitChar _ (by omega)) 2)
  apply Passes.cons (by simp) (next?_hex_succ (isHex_digitChar _ (by omega)) 1)
  apply Passes.cons (by simp) (next?_hex_succ (isHex_digitChar _ (by omega)) 0)
  exact Passes.cons (by simp) (next?_hex_zero (isHex_digitChar _ (by omega))) (.nil _)

theorem passes_writeChar (c : Char) : Passes .plain (Text.bytes (writeChar c)) .plain := by
  have hform := writeChar_form c
  generalize writeChar c = form at hform ⊢
  cases hform with
  | mark he hc =>
    simp only [List.mem_cons, List.not_mem_nil, or_false] at he
    rcases he with rfl | rfl | rfl | rfl | rfl | rfl | rfl <;>
      exact .cons (by decide) rfl (.cons (by decide) rfl (.nil _))
  | number hc =>
    rw [Text.bytes_append]
    exact .cons (by decide) rfl (.cons (by decide) rfl (passes_hex hc))
  | plain hleast hquote hslash =>
    rw [Text.bytes_eq, String.toList_singleton, List.flatMap_singleton]
    apply passes_plain
    intro b hb
    by_cases hascii : c.toNat < 0x80
    · rw [Text.utf8EncodeChar_ascii hascii, List.mem_singleton] at hb
      rw [hb, Text.toNat_byte (by omega)]
      exact ⟨hleast, fun h => hquote (Char.toNat_inj.mp h), fun h => hslash (Char.toNat_inj.mp h)⟩
    · have hhigh := Text.le_of_mem_utf8EncodeChar (Nat.le_of_not_lt hascii) hb
      omega

theorem passes_inner (s : String) : Passes .plain (inner s) .plain := by
  unfold inner
  induction s.toList with
  | nil => exact .nil _
  | cons c cs ih => exact (passes_writeChar c).append ih

end TreeWalk.Json
