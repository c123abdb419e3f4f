import Mathlib.Data.Int.ModEq
import Mathlib.Data.Rat.Floor
import Mathlib.Tactic.FinCases
import Mathlib.Tactic.Positivity
import TreeWalk.Proofs.Eval.Visit

/-!
# Integer arithmetic

Integers are signed words of 64 bits. The way from exact integers to words respects sums, differences and products, so
that a term of any shape comes to the word of its exact value, whatever wrapped around on the way. Division goes toward
zero, with one quotient that is no word.
-/

namespace TreeWalk

/-- What an operator makes of two exact integers, if it does not divide. -/
def Operator.exact? : Operator → Option (Int → Int → Int)
  | .add => some (· + ·)
  | .sub => some (· - ·)
  | .mul => some (· * ·)
  | _ => none

def Operator.relation? : Operator → Option (Int → Int → Bool)
  | .lt => some fun x y => x < y
  | .gt => some fun x y => x > y
  | .lte => some fun x y => x ≤ y
  | .gte => some fun x y => x ≥ y
  | .eq => some fun x y => x = y
  | .neq => some fun x y => x ≠ y
  | _ => none

/-- A term of integers and of operators that do not divide, with the value it has without wrapping around. -/
inductive Term.Exact : Term → Int → Prop
  | literal (loc : Location) (n : Int64) : Exact (.int loc n) n.toInt
  | binary {lhs rhs : Term} {op : Operator} {f : Int → Int → Int} {x y : Int} (loc : Location)
    (hop : op.exact? = some f) (hl : Exact lhs x) (hr : Exact rhs y) : Exact (.binary loc lhs op rhs) (f x y)

/-- The integer `z` is a word, and it differs from `x` by a multiple of `2 ^ 64`. -/
def IsWord (x z : Int) : Prop := -2 ^ 63 ≤ z ∧ z < 2 ^ 63 ∧ z ≡ x [ZMOD 2 ^ 64]

theorem isWord_iff {x z : Int} : IsWord x z ↔ z = (Int64.ofInt x).toInt := by
  have hword : (Int64.ofInt x).toInt = x.bmod (2 ^ 64) := Int64.toInt_ofInt
  rw [hword, Int.bmod_def, IsWord, Int.ModEq]
  push_cast
  split <;> omega

theorem operate_exact {op : Operator} {f : Int → Int → Int} (hop : op.exact? = some f) (loc : Location) (x y : Int) :
    operate loc op (.int (.ofInt x)) (.int (.ofInt y)) = .ok (.int (.ofInt (f x y))) := by
  cases op with
  | add | sub | mul =>
    cases hop
    simp [operate, Int64.ofInt_add, Int64.ofInt_sub, Int64.ofInt_mul]
  | _ => cases hop

theorem operate_relation {op : Operator} {r : Int → Int → Bool} (hop : op.relation? = some r) (loc : Location)
    (a b : Int64) : operate loc op (.int a) (.int b) = .ok (.bool (r a.toInt b.toInt)) := by
  cases op with
  | lt | gt | lte | gte | eq | neq =>
    cases hop
    simp [operate, Value.scalarEq?, Int64.lt_iff_toInt_lt, Int64.le_iff_toInt_le, Int64.toInt_inj]
  | _ => cases hop

/-- Wherever it is evaluated, the term comes to `v`, and the machine stays as it is. -/
def Term.Always (t : Term) (v : Value) : Prop :=
  ∀ levels scope m, Point.result ⟨levels, t, scope, m⟩ = (.ok v, m)

namespace Term

variable {t u : Term} {x y : Int}

/-- A term comes to the word of its exact value: the way from integers to words respects each operator. -/
theorem Exact.always (h : t.Exact x) : t.Always (.int (.ofInt x)) := by
  intro levels scope m
  induction h with
  | literal loc n =>
    rw [Point.result, eval_eq, evalWith, Int64.ofInt_toInt]
    rfl
  | binary loc hop _ _ ihl ihr =>
    -- The operands may have wrapped around already: the operator meets the words of their exact values.
    rw [Point.result_binary ihl ihr, operate_exact hop]

theorem Exact.always_relation (ht : t.Exact x) (hu : u.Exact y) {op : Operator} {r : Int → Int → Bool}
    (hop : op.relation? = some r) (loc : Location) :
    (Term.binary loc t op u).Always (.bool (r (Int64.ofInt x).toInt (Int64.ofInt y).toInt)) := by
  intro levels scope m
  rw [Point.result_binary (ht.always levels scope m) (hu.always levels scope m), operate_relation hop]

end Term

theorem existsUnique_relation (a b : Int) :
    ∃! op, op ∈ [Operator.lt, .eq, .gt] ∧ ∃ r, op.relation? = some r ∧ r a b = true := by
  have hholds (op : Operator) : (op ∈ [Operator.lt, .eq, .gt] ∧ ∃ r, op.relation? = some r ∧ r a b = true) ↔
      op = .lt ∧ a < b ∨ op = .eq ∧ a = b ∨ op = .gt ∧ b < a := by
    cases op <;> simp [Operator.relation?]
  simp only [hholds]
  rcases lt_trichotomy a b with h | h | h
  · exact ⟨.lt, by simp [h], by grind⟩
  · exact ⟨.eq, by simp [h], by grind⟩
  · exact ⟨.gt, by simp [h], by grind⟩

/-- A term without division comes to the one word that is congruent to its exact value, wherever it is evaluated, and
does nothing else. Comparisons of two such terms compare these words as signed integers, and of less, equal and greater
exactly one is true. -/
theorem arithmetic_wraps :
    (∀ (t : Term) (x : Int), t.Exact x →
      ∃ a : Int64, (∀ z, IsWord x z ↔ z = a.toInt) ∧ t.Always (.int a)) ∧
    ∀ (t u : Term) (x y : Int), t.Exact x → u.Exact y → ∀ loc,
      (∀ op r, op.relation? = some r → ∀ a b, IsWord x a → IsWord y b →
        (Term.binary loc t op u).Always (.bool (r a b))) ∧
      ∀ levels scope m, ∃! op, op ∈ [Operator.lt, .eq, .gt] ∧
        Point.result ⟨levels, .binary loc t op u, scope, m⟩ = (.ok (.bool true), m) := by
  constructor
  · intro t x ht
    exact ⟨.ofInt x, fun z => isWord_iff, ht.always⟩
  · intro t u x y ht hu loc
    constructor
    · intro op r hop a b ha hb
      rw [isWord_iff.mp ha, isWord_iff.mp hb]
      exact ht.always_relation hu hop loc
    · intro levels scope m
      have htrue (op : Operator) (hop : op ∈ [Operator.lt, .eq, .gt]) :
          Point.result ⟨levels, .binary loc t op u, scope, m⟩ = (.ok (.bool true), m) ↔
            ∃ r, op.relation? = some r ∧ r (Int64.ofInt x).toInt (Int64.ofInt y).toInt = true := by
        have hsome : op.relation?.isSome := by
          revert hop
          cases op <;> simp [Operator.relation?]
        have ⟨r, hr⟩ := Option.isSome_iff_exists.mp hsome
        rw [ht.always_relation hu hr]
        simp [hr]
      exact (existsUnique_congr fun op => and_congr_right (htrue op)).mpr (existsUnique_relation _ _)

def thereAndBack : Term :=
  .binary .unknown (.binary .unknown (.int .unknown Int64.maxValue) .add (.int .unknown Int64.maxValue)) .sub
    (.int .unknown Int64.maxValue)

theorem thereAndBack_exact : thereAndBack.Exact (2 ^ 63 - 1) := by
  have hexact : thereAndBack.Exact (Int64.maxValue.toInt + Int64.maxValue.toInt - Int64.maxValue.toInt) :=
    .binary (f := (· - ·)) _ rfl (.binary (f := (· + ·)) _ rfl (.literal _ _) (.literal _ _)) (.literal _ _)
  exact hexact

def pastLargest : Term := .binary .unknown (.int .unknown Int64.maxValue) .add (.int .unknown 1)

theorem pastLargest_exact : pastLargest.Exact (2 ^ 63) := by
  have hexact : pastLargest.Exact (Int64.maxValue.toInt + (1 : Int64).toInt) :=
    .binary (f := (· + ·)) _ rfl (.literal _ _) (.literal _ _)
  exact hexact

theorem arithmetic_wraps_pastLargest :
    thereAndBack.Always (.int Int64.maxValue) ∧ pastLargest.Always (.int Int64.minValue) ∧
      (Term.binary .unknown pastLargest .lt thereAndBack).Always (.bool true) := by
  have hback : IsWord (2 ^ 63 - 1) (2 ^ 63 - 1) := by simp [IsWord]
  have hpast : IsWord (2 ^ 63) (-2 ^ 63) := by simp [IsWord, Int.ModEq]
  obtain ⟨a, ha, halways⟩ := arithmetic_wraps.1 _ _ thereAndBack_exact
  obtain ⟨b, hb, hbalways⟩ := arithmetic_wraps.1 _ _ pastLargest_exact
  have hlargest : a = Int64.maxValue := Int64.toInt_inj.mp ((ha _).mp hback).symm
  have hleast : b = Int64.minValue := Int64.toInt_inj.mp ((hb _).mp hpast).symm
  subst hlargest hleast
  have hcompare := (arithmetic_wraps.2 _ _ _ _ pastLargest_exact thereAndBack_exact .unknown).1
  exact ⟨halways, hbalways, hcompare .lt _ rfl _ _ hpast hback⟩

/-- The integer next to `x` on the side of zero. -/
def towardZero (x : ℚ) : Int := if 0 ≤ x then ⌊x⌋ else ⌈x⌉

theorem towardZero_neg (x : ℚ) : towardZero (-x) = -towardZero x := by
  rcases lt_trichotomy x 0 with h | rfl | h
  · simp [towardZero, h.le, h.not_ge, Int.floor_neg]
  · simp [towardZero]
  · simp [towardZero, h.le, h.not_ge, Int.ceil_neg]

theorem towardZero_div (a b : Int) : towardZero (a / b) = a.tdiv b := by
  have hnat (m n : Nat) : towardZero (m / n) = (m : Int).tdiv n := by
    have hfloor : ⌊((m : Int) / n : ℚ)⌋ = (m : Int) / n := Rat.floor_intCast_div_natCast m n
    have hnonneg : (0 : ℚ) ≤ m / n := by positivity
    rw [towardZero, if_pos hnonneg, Int.tdiv_eq_ediv_of_nonneg m.cast_nonneg]
    simpa only [Int.cast_natCast] using hfloor
  -- Both sides change their sign with each operand, which leaves the natural numbers.
  obtain ⟨m, rfl | rfl⟩ := a.eq_nat_or_neg
  all_goals obtain ⟨n, rfl | rfl⟩ := b.eq_nat_or_neg
  all_goals simp [neg_div, div_neg, towardZero_neg, hnat, Int.neg_tdiv, Int.tdiv_neg]

/-- The quotient and the remainder of two words. One quotient is no word: the opposite of the least word. -/
structure DivRem (a b q r : Int64) : Prop where
  small : |r.toInt| < |b.toInt|
  sign : r = 0 ∨ r.toInt.sign = a.toInt.sign
  exact : ¬(a = Int64.minValue ∧ b = -1) → q.toInt * b.toInt + r.toInt = a.toInt
  least : a = Int64.minValue ∧ b = -1 → q = Int64.minValue ∧ r = 0
  rounded : -2 ^ 63 ≤ towardZero (a.toInt / b.toInt) ∧ towardZero (a.toInt / b.toInt) < 2 ^ 63 →
    q.toInt = towardZero (a.toInt / b.toInt)

theorem divRem {a b : Int64} (hb : b ≠ 0) : DivRem a b (a / b) (a % b) where
  small := by
    have hpos : 0 < b.toInt.natAbs := Int.natAbs_pos.mpr (by simpa [← Int64.toInt_inj] using hb)
    rw [Int64.toInt_mod, Int.abs_eq_natAbs, Int.abs_eq_natAbs, Int.natAbs_tmod]
    exact_mod_cast Nat.mod_lt _ hpos
  sign := by
    rw [← Int64.toInt_inj, Int64.toInt_mod, Int.sign_tmod]
    by_cases hdvd : b.toInt ∣ a.toInt
    · exact .inl (Int.tmod_eq_zero_of_dvd hdvd)
    · exact .inr (if_neg hdvd)
  exact h := by
    have hquot : (a / b).toInt = a.toInt.tdiv b.toInt := by
      rcases not_and_or.mp h with ha | hb
      · exact Int64.toInt_div_of_ne_left a b ha
      · exact Int64.toInt_div_of_ne_right a b hb
    rw [hquot, Int64.toInt_mod, Int.tdiv_mul_add_tmod]
  least := by
    rintro ⟨rfl, rfl⟩
    decide
  rounded := by
    rw [towardZero_div, Int64.toInt_div]
    rintro ⟨hlow, hhigh⟩
    exact Int.bmod_eq_of_le hlow hhigh

/-- The quotient and the product both wrap around, so that the identity of the integers is one of the words. -/
theorem div_mul_add_mod (a b : Int64) : a / b * b + a % b = a := by
  have hdiv : a / b = .ofInt (a.toInt.tdiv b.toInt) := by
    rw [← Int64.toInt_inj, Int64.toInt_div, Int64.toInt_ofInt]
  have hmod : a % b = .ofInt (a.toInt.tmod b.toInt) := by
    rw [← Int64.toInt_mod, Int64.ofInt_toInt]
  calc a / b * b + a % b
    _ = .ofInt (a.toInt.tdiv b.toInt) * .ofInt b.toInt + .ofInt (a.toInt.tmod b.toInt) := by
      rw [hdiv, hmod, Int64.ofInt_toInt]
    _ = .ofInt (a.toInt.tdiv b.toInt * b.toInt + a.toInt.tmod b.toInt) := by
      rw [Int64.ofInt_add, Int64.ofInt_mul]
    _ = a := by rw [Int.tdiv_mul_add_tmod, Int64.ofInt_toInt]

/-- Division and remainder fail when the divisor is zero, and only then. Otherwise they give the quotient toward zero
and what it leaves of the dividend, and the quotient times the divisor plus the remainder gives the dividend back, also
where the quotient wraps around. -/
theorem division_truncates {levels : Nat} {scope : ScopeId} {m : Machine} {lhs rhs : Term} {a b : Int64}
    (ha : Point.result ⟨levels, lhs, scope, m⟩ = (.ok (.int a), m))
    (hb : Point.result ⟨levels, rhs, scope, m⟩ = (.ok (.int b), m)) :
    (∀ op ∈ [Operator.div, .rem], ∀ loc,
      (∃ f : Fault, Point.result ⟨levels, .binary loc lhs op rhs, scope, m⟩ = (.error (.fault f), m) ∧
        f.kind = .divisionByZero) ↔ b = 0) ∧
    (b ≠ 0 → ∃ q r, DivRem a b q r ∧
      (∀ loc, Point.result ⟨levels, .binary loc lhs .div rhs, scope, m⟩ = (.ok (.int q), m)) ∧
      (∀ loc, Point.result ⟨levels, .binary loc lhs .rem rhs, scope, m⟩ = (.ok (.int r), m)) ∧
      ∀ loc₁ loc₂ loc₃ loc₄, Point.result ⟨levels, .binary loc₁ (.binary loc₂ (.binary loc₃ lhs .div rhs) .mul rhs)
        .add (.binary loc₄ lhs .rem rhs), scope, m⟩ = (.ok (.int a), m)) := by
  have hbinary := Point.result_binary ha hb
  constructor
  · intro op hop loc
    rw [hbinary]
    fin_cases hop
    all_goals
      by_cases hzero : b = 0
      · simp [operate, hzero, Fault.kind]
      · simp [operate, hzero]
  · intro hne
    have hdiv (loc : Location) : operate loc .div (.int a) (.int b) = .ok (.int (a / b)) := by simp [operate, hne]
    have hrem (loc : Location) : operate loc .rem (.int a) (.int b) = .ok (.int (a % b)) := by simp [operate, hne]
    refine ⟨a / b, a % b, divRem hne, fun loc => ?_, fun loc => ?_, fun loc₁ loc₂ loc₃ loc₄ => ?_⟩
    · rw [hbinary, hdiv]
    · rw [hbinary, hrem]
    · have hquotient := hbinary loc₃ .div
      have hremainder := hbinary loc₄ .rem
      rw [hdiv] at hquotient
      rw [hrem] at hremainder
      rw [Point.result_binary (Point.result_binary hquotient hb loc₂ .mul) hremainder]
      simp [operate, div_mul_add_mod]

def leastByMinusOne (op : Operator) : Term := .binary .unknown (.int .unknown Int64.minValue) op (.int .unknown (-1))

theorem division_truncates_least :
    (leastByMinusOne .div).Always (.int Int64.minValue) ∧ (leastByMinusOne .rem).Always (.int 0) ∧
      (Term.binary .unknown (.binary .unknown (leastByMinusOne .div) .mul (.int .unknown (-1))) .add
        (leastByMinusOne .rem)).Always (.int Int64.minValue) := by
  have hliteral (n : Int64) : (Term.int .unknown n).Always (.int n) := by
    simpa only [Int64.ofInt_toInt] using (Term.Exact.literal .unknown n).always
  have hpoint levels scope m := (division_truncates (hliteral Int64.minValue levels scope m)
    (hliteral (-1) levels scope m)).2 (by decide)
  refine ⟨fun levels scope m => ?_, fun levels scope m => ?_, fun levels scope m => ?_⟩
  all_goals
    obtain ⟨q, r, hqr, hdiv, hrem, hback⟩ := hpoint levels scope m
    obtain ⟨rfl, rfl⟩ := hqr.least ⟨rfl, rfl⟩
  · exact hdiv .unknown
  · exact hrem .unknown
  · exact hback ..

end TreeWalk
