import TreeWalk.Proofs.Json.FirstValue
import TreeWalk.Proofs.Text.Number

/-!
# The spelling of numbers

A number is kept as the characters that it is written with, one for each of its bytes. Without a fraction and an
exponent these denote an integer in plain decimal; with either they denote none.
-/

namespace TreeWalk.Json

theorem toList_spellingOf (l : List UInt8) : (spellingOf l.reverse).toList = l.map fun b => Char.ofNat b.toNat := by
  simp [spellingOf]

theorem toNat_ofNat_byte (b : UInt8) : (Char.ofNat b.toNat).toNat = b.toNat := by
  have hlt := b.toNat_lt
  have hvalid : b.toNat.isValidChar := .inl (by omega)
  rw [Char.ofNat, dif_pos hvalid]
  rfl

theorem bytes_spellingOf {l : List UInt8} (h : ∀ b ∈ l, b.toNat < 0x80) : Text.bytes (spellingOf l.reverse) = l := by
  rw [Text.bytes_eq, toList_spellingOf]
  induction l with
  | nil => rfl
  | cons b l ih =>
    have hb : (Char.ofNat b.toNat).toNat < 0x80 := by
      rw [toNat_ofNat_byte]
      exact h b List.mem_cons_self
    rw [List.map_cons, List.flatMap_cons, Text.utf8EncodeChar_ascii hb, toNat_ofNat_byte,
      ih fun c hc => h c (List.mem_cons_of_mem _ hc)]
    simp

theorem isDigit_ofNat_byte {b : UInt8} (h : isDigit b = true) : (Char.ofNat b.toNat).isDigit = true := by
  rw [Text.isDigit_iff, toNat_ofNat_byte]
  simpa [isDigit, UInt8.le_iff_toNat_le] using h

variable {l : List UInt8}

theorem Whole.exists_digits (h : Whole l) :
    ∃ sign digits, (sign = [] ∨ sign = [0x2D]) ∧ Digits digits ∧ l = sign ++ digits := by
  obtain ⟨sign, digits, hsign, hdigits, rfl⟩ := h
  refine ⟨sign, digits, hsign, ?_, rfl⟩
  rcases hdigits with rfl | hdigits
  · exact ⟨by simp, by simp [isDigit]⟩
  · exact hdigits.1

theorem Digits.ascii (h : Digits l) : ∀ b ∈ l, b.toNat < 0x80 := by
  intro b hb
  have hrange : 48 ≤ b.toNat ∧ b.toNat ≤ 57 := by simpa [isDigit, UInt8.le_iff_toNat_le] using h.2 b hb
  omega

theorem Whole.ascii (h : Whole l) : ∀ b ∈ l, b.toNat < 0x80 := by
  obtain ⟨sign, digits, hsign, hdigits, rfl⟩ := h.exists_digits
  refine List.forall_mem_append.mpr ⟨?_, hdigits.ascii⟩
  rcases hsign with rfl | rfl <;> simp

theorem Fraction.ascii (h : Fraction l) : ∀ b ∈ l, b.toNat < 0x80 := by
  obtain ⟨digits, hdigits, rfl⟩ := h
  exact List.forall_mem_cons.mpr ⟨by decide, hdigits.ascii⟩

theorem Exponent.ascii (h : Exponent l) : ∀ b ∈ l, b.toNat < 0x80 := by
  obtain ⟨mark, sign, digits, hmark, hsign, hdigits, rfl⟩ := h
  refine List.forall_mem_cons.mpr ⟨?_, List.forall_mem_append.mpr ⟨?_, hdigits.ascii⟩⟩
  · rcases hmark with rfl | rfl <;> decide
  · rcases hsign with rfl | rfl | rfl <;> simp

/-- A number has a whole part, and may have a fraction and an exponent. -/
theorem number_iff : Number l ↔ ∃ whole fraction exponent, Whole whole ∧ (fraction = [] ∨ Fraction fraction) ∧
    (exponent = [] ∨ Exponent exponent) ∧ l = whole ++ fraction ++ exponent := by
  constructor
  · rintro ⟨_, exponent, ⟨whole, fraction, hwhole, hfraction, rfl⟩, hexponent, rfl⟩
    exact ⟨whole, fraction, exponent, hwhole, hfraction, hexponent, rfl⟩
  · rintro ⟨whole, fraction, exponent, hwhole, hfraction, hexponent, rfl⟩
    exact ⟨_, exponent, ⟨whole, fraction, hwhole, hfraction, rfl⟩, hexponent, rfl⟩

theorem Number.ascii (h : Number l) : ∀ b ∈ l, b.toNat < 0x80 := by
  obtain ⟨whole, fraction, exponent, hwhole, hfraction, hexponent, rfl⟩ := number_iff.mp h
  refine List.forall_mem_append.mpr ⟨List.forall_mem_append.mpr ⟨hwhole.ascii, ?_⟩, ?_⟩
  · rcases hfraction with rfl | hfraction
    · simp
    · exact hfraction.ascii
  · rcases hexponent with rfl | hexponent
    · simp
    · exact hexponent.ascii

theorem Number.head (h : Number l) : ∃ b tail, l = b :: tail ∧ (isDigit b = true ∨ b = 0x2D) := by
  obtain ⟨whole, fraction, exponent, hwhole, -, -, rfl⟩ := number_iff.mp h
  obtain ⟨sign, digits, hsign, hdigits, rfl⟩ := hwhole.exists_digits
  rcases hsign with rfl | rfl
  · obtain ⟨b, tail, rfl⟩ := List.exists_cons_of_ne_nil hdigits.1
    exact ⟨b, _, rfl, .inl (hdigits.2 b List.mem_cons_self)⟩
  · exact ⟨0x2D, _, rfl, .inr rfl⟩

theorem Number.read_append (h : Number l) {after : List UInt8} (hafter : Blanks after) :
    read (l ++ after) = .ok (.number (spellingOf l.reverse)) := by
  obtain ⟨part, hpart, -⟩ := NumberPart.exists_of?_of_number h
  have hstops : Stops l after := by
    rw [NumberPart.stops_iff hpart]
    intro b hb
    exact NumberPart.next?_eq_none (.inl (hafter b (List.mem_of_head? hb))) part
  rw [read_eq_ok_iff]
  exact ⟨by simp [depth], after, [], l, .nil, .number h, fun _ _ => hstops, rfl⟩

theorem Whole.denotes (h : Whole l) : ∃ x, Text.Denotes (spellingOf l.reverse).toList x := by
  obtain ⟨sign, digits, hsign, hdigits, rfl⟩ := h.exists_digits
  have hof : Text.DigitsOf (digits.map fun b => Char.ofNat b.toNat)
      (Nat.ofDigitChars 10 (digits.map fun b => Char.ofNat b.toNat) 0) := by
    refine ⟨by simpa using hdigits.1, fun d hd => ?_, rfl⟩
    obtain ⟨b, hb, rfl⟩ := List.mem_map.mp hd
    exact isDigit_ofNat_byte (hdigits.2 b hb)
  rw [toList_spellingOf]
  rcases hsign with rfl | rfl
  · exact ⟨_, .unsigned hof⟩
  · exact ⟨_, .negative hof⟩

theorem not_denotes_of_mem {b : UInt8} (hb : b ∈ l) (hmark : b ∈ [0x2E, 0x45, 0x65]) (x : Int) :
    ¬Text.Denotes (spellingOf l.reverse).toList x := by
  intro h
  have hmem : Char.ofNat b.toNat ∈ (spellingOf l.reverse).toList := by
    rw [toList_spellingOf]
    exact List.mem_map_of_mem hb
  have hchar := h.isDigit_or_sign hmem
  simp only [List.mem_cons, List.not_mem_nil, or_false] at hmark
  rcases hmark with rfl | rfl | rfl <;> exact absurd hchar (by decide)

/-- A number with a fraction or an exponent is not plain decimal. -/
theorem not_denotes {whole fraction exponent : List UInt8} (hfraction : fraction = [] ∨ Fraction fraction)
    (hexponent : exponent = [] ∨ Exponent exponent) (hmore : fraction ≠ [] ∨ exponent ≠ []) (x : Int) :
    ¬Text.Denotes (spellingOf (whole ++ fraction ++ exponent).reverse).toList x := by
  rcases hmore with hne | hne
  · obtain ⟨digits, -, rfl⟩ := hfraction.resolve_left hne
    apply not_denotes_of_mem (b := 0x2E) <;> simp
  · obtain ⟨mark, sign, digits, hmark, -, -, rfl⟩ := hexponent.resolve_left hne
    apply not_denotes_of_mem (b := mark)
    · simp
    · rcases hmark with rfl | rfl <;> simp

theorem Number.head?_ne_plus (h : Number l) : (spellingOf l.reverse).toList.head? ≠ some '+' := by
  obtain ⟨b, tail, rfl, hb⟩ := h.head
  rw [toList_spellingOf, List.map_cons, List.head?_cons]
  intro hplus
  have hcode : b.toNat = 0x2B := by
    rw [← toNat_ofNat_byte, Option.some.inj hplus]
    rfl
  obtain rfl : b = 0x2B := UInt8.toNat_inj.mp hcode
  revert hb
  decide

end TreeWalk.Json
