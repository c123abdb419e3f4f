import Mathlib.Algebra.Group.Int.Defs
import TreeWalk.Proofs.Eval.Visit
import TreeWalk.Proofs.Json.Number
import TreeWalk.Proofs.Syntax.Grammar
import TreeWalk.Proofs.Syntax.RoundTrip
import TreeWalk.Syntax.Render

/-!
# Integer literals

An integer literal is given as a JSON number or as a text. It is read as the integer that its digits denote, or it is
refused: nothing is rounded and nothing wraps around. The digits that a word is written with are read as that word.
-/

namespace TreeWalk

def FitsWord (x : Int) : Prop := -2 ^ 63 ≤ x ∧ x ≤ 2 ^ 63 - 1

theorem fitsWord_toInt (n : Int64) : FitsWord n.toInt := by
  have hlow := Int64.le_toInt n
  have hhigh := Int64.toInt_lt n
  exact ⟨hlow, by omega⟩

theorem FitsWord.exists_toInt {x : Int} (h : FitsWord x) : ∃ n : Int64, n.toInt = x :=
  ⟨.ofInt x, Int64.toInt_ofInt_of_le h.1 (by have := h.2; omega)⟩

def Json.Gives (j : Json) (x : Int) : Prop := ∃ n : Int64, decodeInt (some j) = .ok n ∧ n.toInt = x

theorem decodeInt_eq_ok_iff {j : Json} {s : String} (hj : j = .number s ∨ j = .string s) {n : Int64} :
    decodeInt (some j) = .ok n ↔ Text.Denotes s.toList n.toInt := by
  rw [Grammar.decodeInt_eq_ok]
  rcases hj with rfl | rfl
  · constructor
    · rintro ⟨_, ⟨⟩, hinteger⟩
      cases hinteger with
      | number h => exact h
    · exact fun h => ⟨_, rfl, .number h⟩
  · constructor
    · rintro ⟨_, ⟨⟩, hinteger⟩
      cases hinteger with
      | string h => exact h
    · exact fun h => ⟨_, rfl, .string h⟩

theorem Json.gives_iff {j : Json} {s : String} (hj : j = .number s ∨ j = .string s) {x : Int} :
    j.Gives x ↔ Text.Denotes s.toList x ∧ FitsWord x := by
  constructor
  · rintro ⟨n, hn, rfl⟩
    exact ⟨(decodeInt_eq_ok_iff hj).mp hn, fitsWord_toInt n⟩
  · rintro ⟨hdenotes, hword⟩
    obtain ⟨n, rfl⟩ := hword.exists_toInt
    exact ⟨n, (decodeInt_eq_ok_iff hj).mpr hdenotes, rfl⟩

theorem decodeInt_eq_outOfRange {s : String} {x : Int} (h : Text.Denotes s.toList x) (hx : ¬FitsWord x) :
    decodeInt (some (.number s)) = .error (.outOfRange s) := by
  have hread : Text.readInt64 s = .error .range := by
    apply h.readInt64_eq_range
    rintro v rfl
    exact hx (fitsWord_toInt v)
  simp only [decodeInt, hread]

theorem exists_refusal {s : String} (h : ∀ x, ¬Text.Denotes s.toList x) :
    ∃ e, decodeInt (some (.number s)) = .error e := by
  cases hdecode : decodeInt (some (.number s)) with
  | error e => exact ⟨e, rfl⟩
  | ok n => exact absurd ((decodeInt_eq_ok_iff (.inl rfl)).mp hdecode) (h _)

/-- What becomes of the number `s` that is written as the bytes `l`. -/
structure Json.NumberLiteral (s : String) (l : List UInt8) : Prop where
  bytes : Text.bytes s = l
  read : Json.read l = .ok (.number s)
  gives_iff : ∀ x, (Json.number s).Gives x ↔ (Text.Denotes s.toList x ∧ s.toList.head? ≠ some '+') ∧ FitsWord x
  refused : ∀ whole fraction exponent, Whole whole → (fraction = [] ∨ Fraction fraction) →
    (exponent = [] ∨ Exponent exponent) → l = whole ++ fraction ++ exponent → fraction ≠ [] ∨ exponent ≠ [] →
    ∃ e, decodeInt (some (.number s)) = .error e
  plain : Whole l → ∃ x, Text.Denotes s.toList x
  outOfRange : ∀ x, Text.Denotes s.toList x → ¬FitsWord x → decodeInt (some (.number s)) = .error (.outOfRange s)

theorem Json.Number.literal {l : List UInt8} (h : Number l) : NumberLiteral (spellingOf l.reverse) l where
  bytes := bytes_spellingOf h.ascii
  read := by simpa using h.read_append .nil
  gives_iff x := by
    rw [Json.gives_iff (.inl rfl)]
    simp [h.head?_ne_plus]
  refused whole fraction exponent _ hfraction hexponent hl hmore := by
    subst hl
    exact exists_refusal (not_denotes hfraction hexponent hmore)
  plain := Whole.denotes
  outOfRange _ := decodeInt_eq_outOfRange

/-- The text is a number of JSON, and both as a number and in quotes it is read as the word `n`. -/
structure Regained (n : Int64) (s : String) : Prop where
  written : Json.Written (.value (.number s)) (Text.bytes s)
  number : decodeInt (some (.number s)) = .ok n
  string : decodeInt (some (.string s)) = .ok n

theorem regained_decimal (n : Int64) : Regained n (Text.decimal n) where
  written := by
    have hwritten := Json.Written.number (Json.number_decimal n)
    rwa [Json.spellingOf_decimal] at hwritten
  number := decodeInt_decimal n
  string := by simp only [decodeInt, Text.readInt64_decimal]

open Json in
/-- An integer literal is read exactly or refused. A text gives the integer that it denotes in plain decimal, if that is
a word; a number does so too, but has no plus in front. A number with a fraction or an exponent is refused, and one with
neither whose integer is no word is refused for its range. So the digits that a word is written, printed and rendered
with are read as that word. -/
theorem integer_literals_exact :
    (∀ (text : String) (x : Int), (Json.string text).Gives x ↔ Text.Denotes text.toList x ∧ FitsWord x) ∧
    (∀ (s : String) (l : List UInt8), Written (.value (.number s)) l → NumberLiteral s l) ∧
    (∀ s, (IntegerError.outOfRange s).message = "integer literal " ++ s ++ " out of range") ∧
    ∀ n : Int64, Regained n (Text.decimal n) ∧ (∀ loc, Regained n (Term.render (.int loc n))) ∧
      (∀ s : String, s.toUTF8 = (Value.int n).format → Regained n s) ∧
      ∀ levels scope m m₁ t loc, Point.result ⟨levels, t, scope, m⟩ = (.ok (.int n), m₁) → m₁.output.room ≠ some 0 →
        ∃ m' s, Point.result ⟨levels, .print loc t, scope, m⟩ = (.ok (.int n), m') ∧
          m'.output.writes = (s ++ "\n").toUTF8 :: m₁.output.writes ∧ Regained n s ∧
          Json.read (Text.bytes (s ++ "\n")) = .ok (.number s) := by
  refine ⟨fun text x => gives_iff (.inr rfl), fun s l h => ?_, fun s => ?_, fun n => ?_⟩
  · cases h with
    | number h => exact h.literal
  · rfl
  · refine ⟨regained_decimal n, fun loc => regained_decimal n, fun s hs => ?_, ?_⟩
    · obtain rfl : s = Text.decimal n := String.toByteArray_inj.mp hs
      exact regained_decimal n
    · intro levels scope m m₁ t loc ht hroom
      obtain ⟨m', hresult, hwrites⟩ := Point.result_print ht hroom loc
      refine ⟨m', Text.decimal n, hresult, ?_, regained_decimal n, ?_⟩
      · rw [hwrites, String.toUTF8_eq_toByteArray (s := Text.decimal n ++ "\n"), String.toByteArray_append]
        rfl
      · have hbreak : Blanks (Text.bytes "\n") := by simp [Blanks, Text.bytes_eq, Text.utf8EncodeChar_ascii, isBlank]
        rw [Text.bytes_append, (number_decimal n).read_append hbreak, spellingOf_decimal]

open Json in
theorem integer_literals_exact_at_limits :
    decodeInt (some (.number "9223372036854775808")) = .error (.outOfRange "9223372036854775808") ∧
    (∃ e, decodeInt (some (.number "1e3")) = .error e) ∧ (Json.string "+007").Gives 7 ∧
    ∃ m' s, Point.result ⟨0, .print .unknown (.int .unknown Int64.minValue), 0, Machine.mk .empty .unlimited 0 0⟩ =
        (.ok (.int Int64.minValue), m') ∧
      m'.output.writes = [(s ++ "\n").toUTF8] ∧ decodeInt (some (.number s)) = .ok Int64.minValue := by
  obtain ⟨htext, hnumber, -, hback⟩ := integer_literals_exact
  have hpast : Whole [0x39, 0x32, 0x32, 0x33, 0x33, 0x37, 0x32, 0x30, 0x33, 0x36, 0x38, 0x35, 0x34, 0x37, 0x37, 0x35,
      0x38, 0x30, 0x38] := ⟨[], _, .inl rfl, .inr ⟨⟨by simp, by simp [isDigit]⟩, by simp⟩, rfl⟩
  have hone : Whole [0x31] := ⟨[], _, .inl rfl, .inr ⟨⟨by simp, by simp [isDigit]⟩, by simp⟩, rfl⟩
  have hexponent : Exponent [0x65, 0x33] :=
    ⟨0x65, [], [0x33], .inl rfl, .inl rfl, ⟨by simp, by simp [isDigit]⟩, rfl⟩
  have hthousand : Number [0x31, 0x65, 0x33] := number_iff.mpr ⟨[0x31], [], _, hone, .inl rfl, .inr hexponent, rfl⟩
  refine ⟨?_, ?_, ?_, ?_⟩
  · have hwritten := Written.number (number_iff.mpr ⟨_, [], [], hpast, .inl rfl, .inl rfl, rfl⟩)
    apply (hnumber "9223372036854775808" _ hwritten).outOfRange 9223372036854775808
    · exact .unsigned ⟨by simp, by simp, by simp [Nat.ofDigitChars_cons]⟩
    · simp [FitsWord]
  · exact (hnumber "1e3" _ (.number hthousand)).refused _ _ _ hone (.inl rfl) (.inr hexponent) rfl (.inr (by simp))
  · have hseven : Text.DigitsOf ['0', '0', '7'] 7 := ⟨by simp, by simp, by simp [Nat.ofDigitChars_cons]⟩
    exact (htext "+007" 7).mpr ⟨.positive hseven, by simp [FitsWord]⟩
  · obtain ⟨m', s, hresult, hwrites, hs, -⟩ :=
      (hback Int64.minValue).2.2.2 0 0 (Machine.mk .empty .unlimited 0 0) _ (.int .unknown Int64.minValue) .unknown rfl
        (by rintro ⟨⟩)
    exact ⟨m', s, hresult, hwrites, hs.number⟩

end TreeWalk
