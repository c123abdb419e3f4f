import Mathlib.Data.List.Basic
import Mathlib.Data.List.Induction
import TreeWalk.Proofs.Json.Quotes

/-!
# The grammar of JSON

Which bytes spell a value, without regard to how they are read. The strings and numbers of the grammar are those that the
reader's states for them accept. No bound is put on how deeply values are nested.
-/

namespace TreeWalk.Json

def Blanks (l : List UInt8) : Prop := ∀ b ∈ l, isBlank b = true

/-- What may stand between quotes. -/
inductive Inside : List UInt8 → Prop
  | nil : Inside []
  | plain {b : UInt8} {l : List UInt8} (hleast : 0x20 ≤ b) (hquote : b ≠ 0x22) (hslash : b ≠ 0x5C) (h : Inside l) :
    Inside (b :: l)
  | mark {b : UInt8} {l : List UInt8} (hb : b ∈ [0x22, 0x5C, 0x2F, 0x62, 0x66, 0x6E, 0x72, 0x74]) (h : Inside l) :
    Inside (0x5C :: b :: l)
  | number {b c d e : UInt8} {l : List UInt8} (hb : isHex b = true) (hc : isHex c = true) (hd : isHex d = true)
    (he : isHex e = true) (h : Inside l) : Inside (0x5C :: 0x75 :: b :: c :: d :: e :: l)

def Digits (l : List UInt8) : Prop := l ≠ [] ∧ ∀ b ∈ l, isDigit b = true

def Whole (l : List UInt8) : Prop :=
  ∃ sign digits, (sign = [] ∨ sign = [0x2D]) ∧ (digits = [0x30] ∨ Digits digits ∧ digits.head? ≠ some 0x30) ∧
    l = sign ++ digits

def Fraction (l : List UInt8) : Prop := ∃ digits, Digits digits ∧ l = 0x2E :: digits

def Exponent (l : List UInt8) : Prop :=
  ∃ mark sign digits, (mark = 0x65 ∨ mark = 0x45) ∧ (sign = [] ∨ sign = [0x2B] ∨ sign = [0x2D]) ∧ Digits digits ∧
    l = mark :: (sign ++ digits)

def Mantissa (l : List UInt8) : Prop :=
  ∃ whole fraction, Whole whole ∧ (fraction = [] ∨ Fraction fraction) ∧ l = whole ++ fraction

def Number (l : List UInt8) : Prop :=
  ∃ mantissa exponent, Mantissa mantissa ∧ (exponent = [] ∨ Exponent exponent) ∧ l = mantissa ++ exponent

/-- What a part of a text spells. Padding is blanks on both sides of a value; items and members are what stands in the
brackets of an array or object that is not empty. -/
inductive Phrase where
  | value (j : Json)
  | padded (j : Json)
  | items (items : List Json)
  | member (m : String × Json)
  | members (members : List (String × Json))

/-- The texts of phrases. -/
inductive Written : Phrase → List UInt8 → Prop
  | nullWord : Written (.value .null) [0x6E, 0x75, 0x6C, 0x6C]
  | trueWord : Written (.value (.bool true)) [0x74, 0x72, 0x75, 0x65]
  | falseWord : Written (.value (.bool false)) [0x66, 0x61, 0x6C, 0x73, 0x65]
  | number {l : List UInt8} (h : Number l) : Written (.value (.number (spellingOf l.reverse))) l
  | string {l : List UInt8} (h : Inside l) : Written (.value (.string (stringOf l.reverse))) (0x22 :: (l ++ [0x22]))
  | emptyArray {blanks : List UInt8} (h : Blanks blanks) : Written (.value (.array [])) (0x5B :: (blanks ++ [0x5D]))
  | array {items : List Json} {l : List UInt8} (h : Written (.items items) l) :
    Written (.value (.array items)) (0x5B :: (l ++ [0x5D]))
  | emptyObject {blanks : List UInt8} (h : Blanks blanks) : Written (.value (.object [])) (0x7B :: (blanks ++ [0x7D]))
  | object {members : List (String × Json)} {l : List UInt8} (h : Written (.members members) l) :
    Written (.value (.object members)) (0x7B :: (l ++ [0x7D]))
  | padded {j : Json} {before l after : List UInt8} (hbefore : Blanks before) (h : Written (.value j) l)
    (hafter : Blanks after) : Written (.padded j) (before ++ (l ++ after))
  | firstItem {j : Json} {l : List UInt8} (h : Written (.padded j) l) : Written (.items [j]) l
  | nextItem {items : List Json} {j : Json} {start l : List UInt8} (hstart : Written (.items items) start)
    (h : Written (.padded j) l) : Written (.items (items ++ [j])) (start ++ 0x2C :: l)
  | member {j : Json} {before key after l : List UInt8} (hbefore : Blanks before) (hkey : Inside key)
    (hafter : Blanks after) (h : Written (.padded j) l) :
    Written (.member (stringOf key.reverse, j)) (before ++ 0x22 :: (key ++ 0x22 :: (after ++ 0x3A :: l)))
  | firstMember {m : String × Json} {l : List UInt8} (h : Written (.member m) l) : Written (.members [m]) l
  | nextMember {members : List (String × Json)} {m : String × Json} {start l : List UInt8}
    (hstart : Written (.members members) start) (h : Written (.member m) l) :
    Written (.members (members ++ [m])) (start ++ 0x2C :: l)

/-- No number is longer than `l` where `rest` follows it. -/
def Stops (l rest : List UInt8) : Prop := ∀ b more, rest.head? = some b → ¬Number (l ++ b :: more)

section Strings

theorem Inside.passes {l : List UInt8} (h : Inside l) : Passes .plain l .plain := by
  induction h with
  | nil => exact .nil _
  | @plain b l hleast hquote hslash _ ih =>
    have hnext : StringPart.next? .plain b = some .plain := by
      have hnot : ¬b < 0x20 := UInt8.not_lt.mpr hleast
      simp [StringPart.next?, hnot, hslash]
    exact .cons (by simp [hquote]) hnext ih
  | @mark b l hb _ ih =>
    have hnext : StringPart.next? .escape b = some .plain := by
      simp only [List.mem_cons, List.not_mem_nil, or_false] at hb
      rcases hb with rfl | rfl | rfl | rfl | rfl | rfl | rfl | rfl <;> rfl
    exact .cons (by decide) rfl (.cons (by simp) hnext ih)
  | number hb hc hd he _ ih =>
    refine .cons (by decide) rfl (.cons (by simp) rfl ?_)
    refine .cons (by simp) (next?_hex_succ hb 2) (.cons (by simp) (next?_hex_succ hc 1) ?_)
    exact .cons (by simp) (next?_hex_succ hd 0) (.cons (by simp) (next?_hex_zero he) ih)

/-- What has been read of an escape, together with what follows it, stands between quotes. -/
def Continues : StringPart → List UInt8 → Prop
  | .plain, l => Inside l
  | .escape, l => Inside (0x5C :: l)
  | .hex more, l => ∀ digits : List UInt8, digits.length + more = 3 → (∀ b ∈ digits, isHex b = true) →
      Inside (0x5C :: 0x75 :: (digits ++ l))

theorem Continues.cons {part next : StringPart} {b : UInt8} {l : List UInt8} (hopen : ¬(part = .plain ∧ b = 0x22))
    (hnext : part.next? b = some next) (h : Continues next l) : Continues part (b :: l) := by
  cases part with
  | plain =>
    simp only [StringPart.next?] at hnext
    split at hnext
    · cases hnext
    · next hleast =>
      split at hnext
      · next hslash =>
        obtain rfl := Option.some.inj hnext
        exact hslash ▸ h
      · next hslash =>
        obtain rfl := Option.some.inj hnext
        exact .plain (UInt8.not_lt.mp hleast) (fun hquote => hopen ⟨rfl, hquote⟩) hslash h
  | escape =>
    simp only [StringPart.next?] at hnext
    split at hnext
    · next hu =>
      obtain rfl := Option.some.inj hnext
      exact hu ▸ h [] rfl (by simp)
    · split at hnext
      · next hmark =>
        obtain rfl := Option.some.inj hnext
        exact .mark hmark h
      · cases hnext
  | hex more =>
    simp only [StringPart.next?] at hnext
    split at hnext
    · next hb =>
      intro digits hlength hdigits
      have hmore : ∀ c ∈ digits ++ [b], isHex c = true := by
        intro c hc
        rcases List.mem_append.mp hc with hc | hc
        · exact hdigits c hc
        · exact List.mem_singleton.mp hc ▸ hb
      cases more with
      | zero =>
        obtain rfl := Option.some.inj hnext
        obtain ⟨c, d, e, rfl⟩ := List.length_eq_three.mp hlength
        exact .number (hdigits c (by simp)) (hdigits d (by simp)) (hdigits e (by simp)) hb h
      | succ more =>
        obtain rfl := Option.some.inj hnext
        have hinside := h (digits ++ [b]) (by simp; omega) hmore
        simpa using hinside
    · cases hnext

theorem Passes.inside {l : List UInt8} (h : Passes .plain l .plain) : Inside l := by
  have hcontinues : ∀ {part last : StringPart} {l : List UInt8}, Passes part l last → last = .plain → Continues part l := by
    intro part last l h
    induction h with
    | nil part =>
      rintro rfl
      exact .nil
    | cons hopen hnext _ ih => exact fun hlast => .cons hopen hnext (ih hlast)
  exact hcontinues h rfl

end Strings

theorem Digits.concat {l : List UInt8} (h : Digits l) {b : UInt8} (hb : isDigit b = true) : Digits (l ++ [b]) := by
  refine ⟨by simp, fun c hc => ?_⟩
  rcases List.mem_append.mp hc with hc | hc
  · exact h.2 c hc
  · exact List.mem_singleton.mp hc ▸ hb

theorem Digits.one {b : UInt8} (hb : isDigit b = true) : Digits [b] := by simpa [Digits] using hb

namespace NumberPart

def first? (b : UInt8) : Option NumberPart :=
  if b = 0x2D then some minus else if b = 0x30 then some zero else if isDigit b then some whole else none

def of? : List UInt8 → Option NumberPart
  | [] => none
  | b :: l => (first? b).bind fun part => l.foldlM next? part

theorem of?_append {l l' : List UInt8} {part : NumberPart} (h : of? l = some part) :
    of? (l ++ l') = l'.foldlM next? part := by
  cases l with
  | nil => cases h
  | cons b l =>
    obtain ⟨start, hstart, hl⟩ := Option.bind_eq_some_iff.mp h
    simp only [List.cons_append, of?, hstart, Option.bind_some, List.foldlM_append]
    rw [hl]
    rfl

theorem exists_of?_append {l l' : List UInt8} {part : NumberPart} (hne : l ≠ []) (h : of? (l ++ l') = some part) :
    ∃ middle, of? l = some middle ∧ l'.foldlM next? middle = some part := by
  cases l with
  | nil => exact absurd rfl hne
  | cons b l =>
    rw [List.cons_append] at h
    obtain ⟨start, hstart, hl⟩ := Option.bind_eq_some_iff.mp h
    rw [List.foldlM_append] at hl
    obtain ⟨middle, hmiddle, hl'⟩ := Option.bind_eq_some_iff.mp hl
    exact ⟨middle, by simp [of?, hstart, hmiddle], hl'⟩

theorem digit_ne {b : UInt8} (h : isDigit b = true) : b ≠ 0x2E ∧ b ≠ 0x65 ∧ b ≠ 0x45 ∧ b ≠ 0x2B ∧ b ≠ 0x2D := by
  refine ⟨?_, ?_, ?_, ?_, ?_⟩ <;> (rintro rfl; cases h)

theorem foldlM_digits {part : NumberPart} (hpart : part ∈ [whole, fraction, exponent]) {l : List UInt8}
    (h : ∀ b ∈ l, isDigit b = true) : l.foldlM next? part = some part := by
  induction l with
  | nil => rfl
  | cons b l ih =>
    have hb := h b List.mem_cons_self
    have hnext : part.next? b = some part := by
      simp only [List.mem_cons, List.not_mem_nil, or_false] at hpart
      rcases hpart with rfl | rfl | rfl <;> simp [next?, hb]
    rw [List.foldlM_cons, hnext]
    exact ih fun b hb => h b (List.mem_cons_of_mem _ hb)

theorem foldlM_first {part next : NumberPart} (hnext : ∀ b, isDigit b = true → part.next? b = some next)
    (hstays : next ∈ [whole, fraction, exponent]) {l : List UInt8} (h : Digits l) : l.foldlM next? part = some next := by
  obtain ⟨hne, hdigits⟩ := h
  obtain ⟨b, l, rfl⟩ := List.exists_cons_of_ne_nil hne
  rw [List.foldlM_cons, hnext b (hdigits b List.mem_cons_self)]
  exact foldlM_digits hstays fun b hb => hdigits b (List.mem_cons_of_mem _ hb)

theorem of?_whole {l : List UInt8} (h : Whole l) : of? l = some zero ∨ of? l = some whole := by
  obtain ⟨sign, digits, hsign, hdigits, rfl⟩ := h
  rcases hdigits with rfl | ⟨⟨hne, hdigits⟩, hhead⟩
  · left
    rcases hsign with rfl | rfl <;> rfl
  · right
    obtain ⟨b, digits, rfl⟩ := List.exists_cons_of_ne_nil hne
    have hb := hdigits b List.mem_cons_self
    have hzero : b ≠ 0x30 := fun heq => hhead (by rw [heq]; rfl)
    have hrest : digits.foldlM next? whole = some whole :=
      foldlM_digits (by simp) fun c hc => hdigits c (List.mem_cons_of_mem b hc)
    rcases hsign with rfl | rfl
    · simpa [of?, first?, (digit_ne hb), hzero, hb] using hrest
    · simpa [of?, first?, next?, hzero, hb] using hrest

theorem of?_mantissa {l : List UInt8} (h : Mantissa l) : ∃ part ∈ [zero, whole, fraction], of? l = some part := by
  obtain ⟨start, tail, hstart, htail, rfl⟩ := h
  obtain ⟨part, hpart, hof⟩ : ∃ part, (part = zero ∨ part = whole) ∧ of? start = some part := by
    rcases of?_whole hstart with h | h
    · exact ⟨zero, .inl rfl, h⟩
    · exact ⟨whole, .inr rfl, h⟩
  rcases htail with rfl | ⟨digits, hdigits, rfl⟩
  · rw [List.append_nil]
    exact ⟨part, by rcases hpart with rfl | rfl <;> simp, hof⟩
  · refine ⟨fraction, by simp, ?_⟩
    have hpoint : part.next? 0x2E = some point := by rcases hpart with rfl | rfl <;> rfl
    rw [of?_append hof, List.foldlM_cons, hpoint]
    exact foldlM_first (fun b hb => by simp [next?, hb]) (by simp) hdigits

theorem exists_of?_of_number {l : List UInt8} (h : Number l) : ∃ part, of? l = some part ∧ part.complete = true := by
  obtain ⟨start, tail, hstart, htail, rfl⟩ := h
  obtain ⟨part, hpart, hof⟩ := of?_mantissa hstart
  simp only [List.mem_cons, List.not_mem_nil, or_false] at hpart
  rcases htail with rfl | ⟨e, sign, digits, he, hsign, hdigits, rfl⟩
  · rw [List.append_nil]
    exact ⟨part, hof, by rcases hpart with rfl | rfl | rfl <;> rfl⟩
  · refine ⟨exponent, ?_, rfl⟩
    have hmark : part.next? e = some mark := by
      rcases hpart with rfl | rfl | rfl <;> rcases he with rfl | rfl <;> rfl
    have hsigned : digits.foldlM next? markSign = some exponent :=
      foldlM_first (fun b hb => by simp [next?, hb]) (by simp) hdigits
    rw [of?_append hof, List.foldlM_cons, hmark]
    rcases hsign with rfl | rfl | rfl
    · exact foldlM_first (fun b hb => by simp [next?, hb, digit_ne hb]) (by simp) hdigits
    · exact hsigned
    · exact hsigned

/-- What bytes look like that lead to a part. -/
def Shape : NumberPart → List UInt8 → Prop
  | minus, l => l = [0x2D]
  | zero, l => Whole l
  | whole, l => ∃ sign digits, (sign = [] ∨ sign = [0x2D]) ∧ Digits digits ∧ digits.head? ≠ some 0x30 ∧ l = sign ++ digits
  | point, l => ∃ start, Whole start ∧ l = start ++ [0x2E]
  | fraction, l => ∃ start digits, Whole start ∧ Digits digits ∧ l = start ++ 0x2E :: digits
  | mark, l => ∃ start e, Mantissa start ∧ (e = 0x65 ∨ e = 0x45) ∧ l = start ++ [e]
  | markSign, l => ∃ start e sign, Mantissa start ∧ (e = 0x65 ∨ e = 0x45) ∧ (sign = 0x2B ∨ sign = 0x2D) ∧
      l = start ++ [e, sign]
  | exponent, l => ∃ start tail, Mantissa start ∧ Exponent tail ∧ l = start ++ tail

theorem Shape.mantissa_of_whole {l : List UInt8} (h : Whole l) : Mantissa l := ⟨l, [], h, .inl rfl, by simp⟩

theorem Shape.mantissa {part : NumberPart} {l : List UInt8} (h : Shape part l) (hpart : part ∈ [zero, whole, fraction]) :
    Mantissa l := by
  simp only [List.mem_cons, List.not_mem_nil, or_false] at hpart
  rcases hpart with rfl | rfl | rfl
  · exact mantissa_of_whole h
  · obtain ⟨sign, digits, hsign, hdigits, hhead, rfl⟩ := h
    exact mantissa_of_whole ⟨sign, digits, hsign, .inr ⟨hdigits, hhead⟩, rfl⟩
  · obtain ⟨start, digits, hstart, hdigits, rfl⟩ := h
    exact ⟨start, _, hstart, .inr ⟨digits, hdigits, rfl⟩, rfl⟩

theorem Shape.step {part next : NumberPart} {l : List UInt8} (h : Shape part l) {b : UInt8}
    (hnext : part.next? b = some next) : Shape next (l ++ [b]) := by
  have hmark (hm : Mantissa l) (he : (decide (b = 0x65) || decide (b = 0x45)) = true) : Shape mark (l ++ [b]) :=
    ⟨l, b, hm, by simpa using he, rfl⟩
  cases part with
  | minus =>
    obtain rfl := h
    simp only [next?] at hnext
    split at hnext
    · next hzero =>
      obtain rfl := Option.some.inj hnext
      exact ⟨[0x2D], [b], .inr rfl, .inl (by rw [hzero]), rfl⟩
    · next hzero =>
      split at hnext
      · next hb =>
        obtain rfl := Option.some.inj hnext
        exact ⟨[0x2D], [b], .inr rfl, .one hb, by simpa using hzero, rfl⟩
      · cases hnext
  | zero =>
    simp only [next?] at hnext
    split at hnext
    · next hpoint =>
      obtain rfl := Option.some.inj hnext
      exact ⟨l, h, by rw [hpoint]⟩
    · split at hnext
      · next he =>
        obtain rfl := Option.some.inj hnext
        exact hmark (h.mantissa (by simp)) he
      · cases hnext
  | whole =>
    have hmantissa := h.mantissa (by simp)
    obtain ⟨sign, digits, hsign, hdigits, hhead, rfl⟩ := h
    simp only [next?] at hnext
    split at hnext
    · next hb =>
      obtain rfl := Option.some.inj hnext
      refine ⟨sign, digits ++ [b], hsign, hdigits.concat hb, ?_, by simp⟩
      rwa [List.head?_append_of_ne_nil _ hdigits.1]
    · split at hnext
      · next hpoint =>
        obtain rfl := Option.some.inj hnext
        exact ⟨_, ⟨sign, digits, hsign, .inr ⟨hdigits, hhead⟩, rfl⟩, by rw [hpoint]⟩
      · split at hnext
        · next he =>
          obtain rfl := Option.some.inj hnext
          exact hmark hmantissa he
        · cases hnext
  | point =>
    obtain ⟨start, hstart, rfl⟩ := h
    simp only [next?] at hnext
    split at hnext
    · next hb =>
      obtain rfl := Option.some.inj hnext
      exact ⟨start, [b], hstart, .one hb, by simp⟩
    · cases hnext
  | fraction =>
    have hmantissa := h.mantissa (by simp)
    obtain ⟨start, digits, hstart, hdigits, rfl⟩ := h
    simp only [next?] at hnext
    split at hnext
    · next hb =>
      obtain rfl := Option.some.inj hnext
      exact ⟨start, digits ++ [b], hstart, hdigits.concat hb, by simp⟩
    · split at hnext
      · next he =>
        obtain rfl := Option.some.inj hnext
        exact hmark hmantissa he
      · cases hnext
  | mark =>
    obtain ⟨start, e, hstart, he, rfl⟩ := h
    simp only [next?] at hnext
    split at hnext
    · next hsign =>
      obtain rfl := Option.some.inj hnext
      exact ⟨start, e, b, hstart, he, by simpa using hsign, by simp⟩
    · split at hnext
      · next hb =>
        obtain rfl := Option.some.inj hnext
        exact ⟨start, [e, b], hstart, ⟨e, [], [b], he, .inl rfl, .one hb, rfl⟩, by simp⟩
      · cases hnext
  | markSign =>
    obtain ⟨start, e, sign, hstart, he, hsign, rfl⟩ := h
    simp only [next?] at hnext
    split at hnext
    · next hb =>
      obtain rfl := Option.some.inj hnext
      exact ⟨start, [e, sign, b], hstart, ⟨e, [sign], [b], he, by simpa using hsign, .one hb, rfl⟩, by simp⟩
    · cases hnext
  | exponent =>
    obtain ⟨start, tail, hstart, ⟨e, sign, digits, he, hsign, hdigits, rfl⟩, rfl⟩ := h
    simp only [next?] at hnext
    split at hnext
    · next hb =>
      obtain rfl := Option.some.inj hnext
      exact ⟨start, _, hstart, ⟨e, sign, digits ++ [b], he, hsign, hdigits.concat hb, rfl⟩, by simp⟩
    · cases hnext

theorem shape_first {b : UInt8} {part : NumberPart} (h : first? b = some part) : Shape part [b] := by
  unfold first? at h
  split at h
  · next hb =>
    obtain rfl := Option.some.inj h
    exact hb ▸ rfl
  · split at h
    · next hb =>
      obtain rfl := Option.some.inj h
      exact ⟨[], [b], .inl rfl, .inl (by rw [hb]), rfl⟩
    · next hzero =>
      split at h
      · next hb =>
        obtain rfl := Option.some.inj h
        exact ⟨[], [b], .inl rfl, .one hb, by simpa using hzero, rfl⟩
      · cases h

theorem shape_of? {l : List UInt8} {part : NumberPart} (h : of? l = some part) : Shape part l := by
  induction l using List.reverseRecOn generalizing part with
  | nil => cases h
  | append_singleton l b ih =>
    by_cases hl : l = []
    · subst hl
      obtain ⟨start, hstart, hrest⟩ := Option.bind_eq_some_iff.mp h
      exact Option.some.inj hrest ▸ shape_first hstart
    · obtain ⟨middle, hmiddle, hb⟩ := exists_of?_append hl h
      simp only [List.foldlM_cons, List.foldlM_nil, bind_pure] at hb
      exact (ih hmiddle).step hb

theorem number_of_shape {l : List UInt8} {part : NumberPart} (h : Shape part l) (hcomplete : part.complete = true) :
    Number l := by
  cases part with
  | exponent =>
    obtain ⟨start, tail, hstart, htail, rfl⟩ := h
    exact ⟨start, tail, hstart, .inr htail, rfl⟩
  | zero => exact ⟨l, [], h.mantissa (by simp), .inl rfl, by simp⟩
  | whole => exact ⟨l, [], h.mantissa (by simp), .inl rfl, by simp⟩
  | fraction => exact ⟨l, [], h.mantissa (by simp), .inl rfl, by simp⟩
  | minus | point | mark | markSign => cases hcomplete

/-- Whatever leads to a part can be made a number: it lacks a digit at most. -/
theorem exists_number_of_shape {l : List UInt8} {part : NumberPart} (h : Shape part l) : ∃ more, Number (l ++ more) := by
  by_cases hcomplete : part.complete = true
  · exact ⟨[], by simpa using number_of_shape h hcomplete⟩
  · have hnext : ∃ next, part.next? 0x30 = some next ∧ next.complete = true := by
      cases part <;> first | exact absurd rfl hcomplete | exact ⟨_, rfl, rfl⟩
    obtain ⟨next, hnext, hcomplete⟩ := hnext
    exact ⟨[0x30], number_of_shape (h.step hnext) hcomplete⟩

/-- A number stops where its part has no next one. -/
theorem stops_iff {l rest : List UInt8} {part : NumberPart} (h : of? l = some part) :
    Stops l rest ↔ ∀ b, rest.head? = some b → part.next? b = none := by
  constructor
  · intro hstops b hb
    by_contra hnext
    obtain ⟨next, hnext⟩ := Option.ne_none_iff_exists'.mp hnext
    obtain ⟨more, hmore⟩ := exists_number_of_shape ((shape_of? h).step hnext)
    exact hstops b more hb (by simpa using hmore)
  · intro hnone b more hb hnumber
    obtain ⟨last, hlast, -⟩ := exists_of?_of_number hnumber
    rw [of?_append h, List.foldlM_cons, hnone b hb] at hlast
    cases hlast

end NumberPart

end TreeWalk.Json
