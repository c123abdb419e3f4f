import Mathlib.Data.List.Basic
import TreeWalk.Text.Number

/-!
# Reading decimal digits back

The decimal digits of a number start with a zero only if they are a single zero. The digits of a word, with its
sign, are read as that word. A text is read as a word exactly if it denotes the word in plain decimal; if it denotes a
number that is no word, it is refused for its range.
-/

namespace TreeWalk.Text

theorem isDigit_iff {c : Char} : c.isDigit = true ↔ 48 ≤ c.toNat ∧ c.toNat ≤ 57 := by
  simp [Char.isDigit, UInt32.le_iff_toNat_le]

theorem digitValue?_eq {c : Char} (h : c.isDigit = true) : digitValue? c = some (c.toNat - '0'.toNat) := by
  have hrange : ('0' ≤ c && c ≤ '9') = true := by
    simpa [Char.le_def, UInt32.le_iff_toNat_le] using isDigit_iff.mp h
  rw [digitValue?, if_pos hrange]

theorem le_ofDigitChars (ds : List Char) (acc : Nat) : acc ≤ Nat.ofDigitChars 10 ds acc := by
  induction ds generalizing acc with
  | nil => exact Nat.le_refl acc
  | cons d ds ih =>
    rw [Nat.ofDigitChars_cons]
    have hle := ih (10 * acc + (d.toNat - '0'.toNat))
    omega

theorem readDigits_eq {ds : List Char} (hdigits : ∀ d ∈ ds, d.isDigit = true) {acc : Nat}
    (hfits : Nat.ofDigitChars 10 ds acc < wordSpan) : readDigits 10 acc ds = .ok (Nat.ofDigitChars 10 ds acc) := by
  induction ds generalizing acc with
  | nil => rfl
  | cons d ds ih =>
    have hd := hdigits d (by simp)
    have hrange := isDigit_iff.mp hd
    have hzero : '0'.toNat = 48 := rfl
    rw [Nat.ofDigitChars_cons] at hfits ⊢
    have hle := le_ofDigitChars ds (10 * acc + (d.toNat - '0'.toNat))
    rw [readDigits, digitValue?_eq hd]
    dsimp only
    rw [if_neg (by omega), if_pos (by omega), Nat.mul_comm acc 10]
    exact ih (fun d hmem => hdigits d (by simp [hmem])) hfits

/-- Digits are taken up to the one that leads past the words. -/
theorem readDigits_eq_range {ds : List Char} (hdigits : ∀ d ∈ ds, d.isDigit = true) {acc : Nat} (hacc : acc < wordSpan)
    (hpast : wordSpan ≤ Nat.ofDigitChars 10 ds acc) : readDigits 10 acc ds = .error .range := by
  induction ds generalizing acc with
  | nil => exact absurd hpast (Nat.not_le.mpr hacc)
  | cons d ds ih =>
    have hd := hdigits d (by simp)
    have hrange := isDigit_iff.mp hd
    have hzero : '0'.toNat = 48 := rfl
    rw [Nat.ofDigitChars_cons] at hpast
    rw [readDigits, digitValue?_eq hd]
    dsimp only
    rw [if_neg (by omega), Nat.mul_comm acc 10]
    split
    · next hfits => exact ih (fun d hmem => hdigits d (by simp [hmem])) hfits hpast
    · rfl

theorem isDigit_of_mem {n : Nat} {d : Char} (h : d ∈ Nat.toDigits 10 n) : d.isDigit = true :=
  Nat.isDigit_of_mem_toDigits (by decide) (by decide) h

theorem exists_toDigits_eq_cons (n : Nat) :
    ∃ d ds, Nat.toDigits 10 n = d :: ds ∧ (d = '0' → n = 0 ∧ ds = []) := by
  induction n using Nat.strongRecOn with
  | _ n ih =>
    by_cases h : n < 10
    · have hzero : ∀ n < 10, n.digitChar = '0' → n = 0 := by decide
      exact ⟨n.digitChar, [], Nat.toDigits_of_lt_base h, fun hd => ⟨hzero n h hd, rfl⟩⟩
    · obtain ⟨d, ds, heq, hd⟩ := ih (n / 10) (by omega)
      refine ⟨d, ds ++ [Nat.digitChar (n % 10)], ?_, fun hzero => ?_⟩
      · rw [Nat.toDigits_of_base_le (by decide) (by omega), heq, List.cons_append]
      · have hsmall := (hd hzero).1
        omega

theorem readNat_toDigits {n : Nat} (h : n < wordSpan) : readNat 10 (Nat.toDigits 10 n) = .ok n := by
  obtain ⟨d, ds, heq, -⟩ := exists_toDigits_eq_cons n
  have hvalue : Nat.ofDigitChars 10 (Nat.toDigits 10 n) 0 = n := Nat.ofDigitChars_ten_toDigits
  have hread : readDigits 10 0 (Nat.toDigits 10 n) = _ := readDigits_eq (fun d hd => isDigit_of_mem hd) (hvalue.symm ▸ h)
  rw [hvalue] at hread
  rw [heq] at hread ⊢
  exact hread

theorem splitSign_toDigits (n : Nat) : splitSign (Nat.toDigits 10 n) = (false, Nat.toDigits 10 n) := by
  unfold splitSign
  split
  · next heq => exact absurd (isDigit_of_mem (heq ▸ List.mem_cons_self)) (by decide)
  · next heq => exact absurd (isDigit_of_mem (heq ▸ List.mem_cons_self)) (by decide)
  · rfl

theorem toList_decimal (n : Int64) :
    (decimal n).toList = (if n.toInt < 0 then ['-'] else []) ++ Nat.toDigits 10 n.toInt.natAbs := by
  rw [decimal, Int.toString_eq_repr]
  cases h : n.toInt with
  | ofNat m => simp [Int.repr]
  | negSucc m => simp [Int.repr, Int.negSucc_lt_zero]

theorem readInt64_decimal (n : Int64) : readInt64 (decimal n) = .ok n := by
  have hlow := Int64.le_toInt n
  have hhigh := Int64.toInt_lt n
  have hword : n.toInt.natAbs < wordSpan := by
    unfold wordSpan
    omega
  rw [readInt64, toList_decimal]
  by_cases h : n.toInt < 0
  · rw [if_pos h]
    change (readNat 10 (Nat.toDigits 10 n.toInt.natAbs) >>= signed64 true) = _
    rw [readNat_toDigits hword]
    change signed64 true n.toInt.natAbs = _
    have habs : -(n.toInt.natAbs : Int) = n.toInt := by omega
    rw [signed64, if_pos rfl, if_pos (by unfold halfSpan; omega), habs, Int64.ofInt_toInt]
  · rw [if_neg h, List.nil_append, splitSign_toDigits]
    dsimp only
    rw [readNat_toDigits hword]
    change signed64 false n.toInt.natAbs = _
    have habs : (n.toInt.natAbs : Int) = n.toInt := by omega
    rw [signed64, if_neg (by decide), if_pos (by unfold halfSpan; omega), habs, Int64.ofInt_toInt]

section Reading

/-- The characters are decimal digits, at least one, and stand for the number. -/
structure DigitsOf (ds : List Char) (n : Nat) : Prop where
  nonempty : ds ≠ []
  isDigit : ∀ d ∈ ds, d.isDigit = true
  value : Nat.ofDigitChars 10 ds 0 = n

/-- Plain decimal: an optional sign, then the digits of the number. -/
inductive Denotes : List Char → Int → Prop
  | unsigned {ds : List Char} {n : Nat} (h : DigitsOf ds n) : Denotes ds n
  | positive {ds : List Char} {n : Nat} (h : DigitsOf ds n) : Denotes ('+' :: ds) n
  | negative {ds : List Char} {n : Nat} (h : DigitsOf ds n) : Denotes ('-' :: ds) (-n)

theorem isDigit_of_digitValue? {c : Char} {d : Nat} (h : digitValue? c = some d) (hlt : d < 10) : c.isDigit = true := by
  unfold digitValue? at h
  split at h
  · next hrange =>
    rw [isDigit_iff]
    simpa [Char.le_def, UInt32.le_iff_toNat_le] using hrange
  · split at h
    · cases h
      omega
    · split at h
      · cases h
        omega
      · cases h

theorem readDigits_eq_ok {ds : List Char} {acc n : Nat} (hacc : acc < wordSpan) :
    readDigits 10 acc ds = .ok n ↔
      (∀ d ∈ ds, d.isDigit = true) ∧ Nat.ofDigitChars 10 ds acc = n ∧ n < wordSpan := by
  constructor
  · intro h
    induction ds generalizing acc with
    | nil =>
      cases h
      exact ⟨by simp, rfl, hacc⟩
    | cons c cs ih =>
      rw [readDigits] at h
      split at h
      · cases h
      · next d hd =>
        split at h
        · cases h
        · next hlt =>
          split at h
          · next hfits =>
            have hdigit := isDigit_of_digitValue? hd (by omega)
            obtain ⟨hrest, hvalue, hn⟩ := ih hfits h
            rw [digitValue?_eq hdigit, Option.some.injEq] at hd
            refine ⟨by simpa [hdigit] using hrest, ?_, hn⟩
            rw [Nat.ofDigitChars_cons, hd, Nat.mul_comm, hvalue]
          · cases h
  · rintro ⟨hdigits, rfl, hn⟩
    exact readDigits_eq hdigits hn

theorem readNat_eq_ok {ds : List Char} {n : Nat} : readNat 10 ds = .ok n ↔ DigitsOf ds n ∧ n < wordSpan := by
  cases ds with
  | nil => exact ⟨nofun, fun h => absurd rfl h.1.nonempty⟩
  | cons c cs =>
    rw [readNat.eq_2 _ _ (by simp), readDigits_eq_ok (by decide)]
    constructor
    · rintro ⟨hdigits, hvalue, hn⟩
      exact ⟨⟨by simp, hdigits, hvalue⟩, hn⟩
    · rintro ⟨h, hn⟩
      exact ⟨h.isDigit, h.value, hn⟩

theorem signed64_eq_ok {negative : Bool} {n : Nat} {v : Int64} :
    signed64 negative n = .ok v ↔ v.toInt = if negative then -(n : Int) else n := by
  have hlow := Int64.le_toInt v
  have hhigh := Int64.toInt_lt v
  unfold signed64 halfSpan
  cases negative with
  | false =>
    simp only [Bool.false_eq_true, if_false]
    split
    · next hn =>
      rw [Except.ok.injEq]
      constructor
      · rintro rfl
        exact Int64.toInt_ofInt_of_le (by omega) (by omega)
      · intro hv
        rw [← hv, Int64.ofInt_toInt]
    · exact ⟨nofun, fun hv => by omega⟩
  | true =>
    simp only [if_true]
    split
    · next hn =>
      rw [Except.ok.injEq]
      constructor
      · rintro rfl
        exact Int64.toInt_ofInt_of_le (by omega) (by omega)
      · intro hv
        rw [← hv, Int64.ofInt_toInt]
    · exact ⟨nofun, fun hv => by omega⟩

theorem DigitsOf.splitSign {ds : List Char} {n : Nat} (h : DigitsOf ds n) : splitSign ds = (false, ds) := by
  unfold Text.splitSign
  split
  · exact absurd (h.isDigit '+' (by simp)) (by decide)
  · exact absurd (h.isDigit '-' (by simp)) (by decide)
  · rfl

theorem denotes_iff {cs : List Char} {k : Int} :
    Denotes cs k ↔ ∃ n, DigitsOf (splitSign cs).2 n ∧ k = if (splitSign cs).1 then -(n : Int) else n := by
  constructor
  · intro h
    cases h with
    | @unsigned _ n h =>
      rw [h.splitSign]
      exact ⟨n, h, rfl⟩
    | @positive _ n h | @negative _ n h => exact ⟨n, h, rfl⟩
  · rintro ⟨n, h, rfl⟩
    unfold Text.splitSign at h ⊢
    split at h
    · exact .positive h
    · exact .negative h
    · exact .unsigned h

theorem readInt64_eq_ok {s : String} {v : Int64} : readInt64 s = .ok v ↔ Denotes s.toList v.toInt := by
  have hlow := Int64.le_toInt v
  have hhigh := Int64.toInt_lt v
  rw [denotes_iff, readInt64]
  constructor
  · intro h
    dsimp only at h
    cases hn : readNat 10 (splitSign s.toList).2 with
    | error e =>
      rw [hn] at h
      cases h
    | ok n =>
      rw [hn] at h
      exact ⟨n, (readNat_eq_ok.mp hn).1, signed64_eq_ok.mp h⟩
  · rintro ⟨n, hn, hv⟩
    have hword : n < wordSpan := by
      unfold wordSpan
      split at hv <;> omega
    dsimp only
    rw [readNat_eq_ok.mpr ⟨hn, hword⟩]
    exact signed64_eq_ok.mpr hv

theorem signed64_eq_range {negative : Bool} {n : Nat}
    (h : ∀ v : Int64, v.toInt ≠ if negative then -(n : Int) else n) : signed64 negative n = .error .range := by
  cases hword : signed64 negative n with
  | ok v => exact absurd (signed64_eq_ok.mp hword) (h v)
  | error e =>
    unfold signed64 at hword
    split at hword <;> split at hword <;> cases hword <;> rfl

theorem Denotes.readInt64_eq_range {s : String} {k : Int} (h : Denotes s.toList k) (hk : ∀ v : Int64, v.toInt ≠ k) :
    readInt64 s = .error .range := by
  obtain ⟨n, hn, rfl⟩ := denotes_iff.mp h
  rw [readInt64]
  dsimp only
  by_cases hword : n < wordSpan
  · rw [readNat_eq_ok.mpr ⟨hn, hword⟩]
    exact signed64_eq_range hk
  · have hread : readNat 10 (splitSign s.toList).2 = .error .range := by
      rw [readNat.eq_2 _ _ hn.nonempty]
      exact readDigits_eq_range hn.isDigit (by decide) (by rw [hn.value]; omega)
    rw [hread]
    rfl

theorem Denotes.isDigit_or_sign {cs : List Char} {k : Int} (h : Denotes cs k) {c : Char} (hc : c ∈ cs) :
    c.isDigit = true ∨ c = '+' ∨ c = '-' := by
  cases h with
  | unsigned h => exact .inl (h.isDigit c hc)
  | positive h =>
    rcases List.mem_cons.mp hc with rfl | hc
    · exact .inr (.inl rfl)
    · exact .inl (h.isDigit c hc)
  | negative h =>
    rcases List.mem_cons.mp hc with rfl | hc
    · exact .inr (.inr rfl)
    · exact .inl (h.isDigit c hc)

end Reading

end TreeWalk.Text
