import TreeWalk.Proofs.Json.Reading

/-!
# The first value of a text

Whatever the reader has taken up to a byte is the start of a text of the grammar, and its state tells which one. So the
values that it reads are exactly the first values of texts, up to the depth that it has room for.
-/

namespace TreeWalk.Json

/-- The value `j` is the first of a text, and `rest` follows it. -/
def FirstValue (text : List UInt8) (j : Json) (rest : List UInt8) : Prop :=
  ∃ blanks l, Blanks blanks ∧ Written (.value j) l ∧ (∀ spelling, j = .number spelling → Stops l rest) ∧
    text = blanks ++ (l ++ rest)

theorem Blanks.concat {l : List UInt8} (h : Blanks l) {b : UInt8} (hb : isBlank b = true) : Blanks (l ++ [b]) := by
  intro c hc
  rcases List.mem_append.mp hc with hc | hc
  · exact h c hc
  · exact List.mem_singleton.mp hc ▸ hb

theorem Blanks.nil : Blanks [] := by simp [Blanks]

/-- An object that is open, up to where a name may stand. -/
inductive Keyed : List (String × Json) → List UInt8 → Prop
  | first {blanks : List UInt8} (h : Blanks blanks) : Keyed [] (0x7B :: blanks)
  | next {members : List (String × Json)} {l blanks : List UInt8} (hl : Written (.members members.reverse) l)
    (h : Blanks blanks) : Keyed members (0x7B :: (l ++ 0x2C :: blanks))

/-- An array or object that is open, up to where a value may stand. -/
inductive Opened : Frame → List UInt8 → Prop
  | first : Opened (.array []) [0x5B]
  | next {items : List Json} {l : List UInt8} (hl : Written (.items items.reverse) l) :
    Opened (.array items) (0x5B :: (l ++ [0x2C]))
  | member {members : List (String × Json)} {start key after : List UInt8} (hstart : Keyed members start)
    (hkey : Inside key) (hafter : Blanks after) :
    Opened (.member members (stringOf key.reverse)) (start ++ 0x22 :: (key ++ 0x22 :: (after ++ [0x3A])))

/-- What stands before a value in open arrays and objects, other than the blanks right before it. -/
inductive Before : List Frame → List UInt8 → Prop
  | top : Before [] []
  | inside {frame : Frame} {frames : List Frame} {start blanks l : List UInt8} (hstart : Before frames start)
    (hblanks : Blanks blanks) (hl : Opened frame l) : Before (frame :: frames) (start ++ (blanks ++ l))

/-- The bytes `taken` end in `l`, which stands where a value may stand. -/
def EndsIn (frames : List Frame) (l taken : List UInt8) : Prop :=
  ∃ start blanks, Before frames start ∧ Blanks blanks ∧ taken = start ++ (blanks ++ l)

theorem EndsIn.append {frames : List Frame} {l taken : List UInt8} (h : EndsIn frames l taken) (l' : List UInt8) :
    EndsIn frames (l ++ l') (taken ++ l') := by
  obtain ⟨start, blanks, hstart, hblanks, rfl⟩ := h
  exact ⟨start, blanks, hstart, hblanks, by simp⟩

theorem EndsIn.blank {frames : List Frame} {taken : List UInt8} (h : EndsIn frames [] taken) {b : UInt8}
    (hb : isBlank b = true) : EndsIn frames [] (taken ++ [b]) := by
  obtain ⟨start, blanks, hstart, hblanks, rfl⟩ := h
  exact ⟨start, blanks ++ [b], hstart, hblanks.concat hb, by simp⟩

theorem EndsIn.inside {frame : Frame} {frames : List Frame} {l blanks taken : List UInt8}
    (h : EndsIn frames (l ++ blanks) taken) (hl : Opened frame l) (hblanks : Blanks blanks) :
    EndsIn (frame :: frames) [] taken := by
  obtain ⟨start, before, hstart, hbefore, rfl⟩ := h
  exact ⟨_, blanks, .inside hstart hbefore hl, hblanks, by simp⟩

/-- What the bytes taken so far are, by the place that the reader stands at. -/
inductive Reached : Reader → List UInt8 → Prop
  | value {frames : List Frame} {room : Nat} {taken : List UInt8} (h : EndsIn frames [] taken) :
    Reached ⟨.value, frames, room⟩ taken
  | firstItem {frames : List Frame} {room : Nat} {taken blanks : List UInt8} (h : EndsIn frames (0x5B :: blanks) taken)
    (hblanks : Blanks blanks) : Reached ⟨.firstItem, .array [] :: frames, room⟩ taken
  | firstKey {frames : List Frame} {room : Nat} {taken blanks : List UInt8} (h : EndsIn frames (0x7B :: blanks) taken)
    (hblanks : Blanks blanks) : Reached ⟨.firstKey, .object [] :: frames, room⟩ taken
  | nextKey {members : List (String × Json)} {frames : List Frame} {room : Nat} {taken l blanks : List UInt8}
    (h : EndsIn frames (0x7B :: (l ++ 0x2C :: blanks)) taken) (hl : Written (.members members.reverse) l)
    (hblanks : Blanks blanks) : Reached ⟨.nextKey, .object members :: frames, room⟩ taken
  | key {members : List (String × Json)} {frames : List Frame} {room : Nat} {taken start seen : List UInt8}
    {part : StringPart} (h : EndsIn frames (start ++ 0x22 :: seen.reverse) taken) (hstart : Keyed members start)
    (hseen : Passes .plain seen.reverse part) : Reached ⟨.key part seen, .object members :: frames, room⟩ taken
  | colon {members : List (String × Json)} {frames : List Frame} {room : Nat} {taken start key after : List UInt8}
    (h : EndsIn frames (start ++ 0x22 :: (key ++ 0x22 :: after)) taken) (hstart : Keyed members start)
    (hkey : Inside key) (hafter : Blanks after) :
    Reached ⟨.colon, .member members (stringOf key.reverse) :: frames, room⟩ taken
  | string {frames : List Frame} {room : Nat} {taken seen : List UInt8} {part : StringPart}
    (h : EndsIn frames (0x22 :: seen.reverse) taken) (hseen : Passes .plain seen.reverse part) :
    Reached ⟨.string part seen, frames, room⟩ taken
  | number {frames : List Frame} {room : Nat} {taken seen : List UInt8} {part : NumberPart}
    (h : EndsIn frames seen.reverse taken) (hseen : NumberPart.of? seen.reverse = some part) :
    Reached ⟨.number part seen, frames, room⟩ taken
  | word {frames : List Frame} {room : Nat} {taken l left : List UInt8} {meaning : Json} (h : EndsIn frames l taken)
    (hl : Written (.value meaning) (l ++ left)) (hmeaning : ∀ spelling, meaning ≠ .number spelling) :
    Reached ⟨.word left meaning, frames, room⟩ taken
  | items {items : List Json} {frames : List Frame} {room : Nat} {taken l : List UInt8}
    (h : EndsIn frames (0x5B :: l) taken) (hl : Written (.items items.reverse) l) :
    Reached ⟨.separator, .array items :: frames, room⟩ taken
  | members {members : List (String × Json)} {frames : List Frame} {room : Nat} {taken l : List UInt8}
    (h : EndsIn frames (0x7B :: l) taken) (hl : Written (.members members.reverse) l) :
    Reached ⟨.separator, .object members :: frames, room⟩ taken

/-- What the bytes taken so far are after a step. A number is not done by a byte of its own. -/
def Progress.Fits (progress : Progress) (taken : List UInt8) : Prop :=
  match progress with
  | .more r => Reached r taken
  | .done j => (∀ spelling, j ≠ .number spelling) ∧ ∃ blanks l, Blanks blanks ∧ Written (.value j) l ∧ taken = blanks ++ l
  | .bad => True

section Blank

variable {l : List UInt8} {b : UInt8}

theorem Written.concat_blank_padded {j : Json} (h : Written (.padded j) l) (hb : isBlank b = true) :
    Written (.padded j) (l ++ [b]) := by
  cases h with
  | @padded _ before l after hbefore h hafter =>
    have hmore := Written.padded hbefore h (hafter.concat hb)
    simpa using hmore

theorem Written.concat_blank_items {items : List Json} (h : Written (.items items) l) (hb : isBlank b = true) :
    Written (.items items) (l ++ [b]) := by
  cases h with
  | firstItem h => exact .firstItem (h.concat_blank_padded hb)
  | nextItem hstart h =>
    have hmore := Written.nextItem hstart (h.concat_blank_padded hb)
    simpa using hmore

theorem Written.concat_blank_member {m : String × Json} (h : Written (.member m) l) (hb : isBlank b = true) :
    Written (.member m) (l ++ [b]) := by
  cases h with
  | member hbefore hkey hafter h =>
    have hmore := Written.member hbefore hkey hafter (h.concat_blank_padded hb)
    simpa using hmore

theorem Written.concat_blank_members {members : List (String × Json)} (h : Written (.members members) l)
    (hb : isBlank b = true) : Written (.members members) (l ++ [b]) := by
  cases h with
  | firstMember h => exact .firstMember (h.concat_blank_member hb)
  | nextMember hstart h =>
    have hmore := Written.nextMember hstart (h.concat_blank_member hb)
    simpa using hmore

end Blank

theorem Keyed.written {members : List (String × Json)} {start key after l : List UInt8} {j : Json} (h : Keyed members start)
    (hkey : Inside key) (hafter : Blanks after) (hl : Written (.padded j) l) :
    ∃ l', start ++ 0x22 :: (key ++ 0x22 :: (after ++ 0x3A :: l)) = 0x7B :: l' ∧
      Written (.members ((stringOf key.reverse, j) :: members).reverse) l' := by
  cases h with
  | first hblanks => exact ⟨_, rfl, .firstMember (.member hblanks hkey hafter hl)⟩
  | @next _ start blanks hstart hblanks =>
    refine ⟨start ++ 0x2C :: (blanks ++ 0x22 :: (key ++ 0x22 :: (after ++ 0x3A :: l))), by simp, ?_⟩
    rw [List.reverse_cons]
    exact .nextMember hstart (.member hblanks hkey hafter hl)

namespace Reader

variable {place : Place} {frames : List Frame} {room : Nat} {taken l : List UInt8} {b : UInt8} {j : Json}

theorem fits_complete (h : EndsIn frames l taken) (hl : Written (.value j) l)
    (hj : frames = [] → ∀ spelling, j ≠ .number spelling) : (complete ⟨place, frames, room⟩ j).Fits taken := by
  obtain ⟨_, blanks, hbefore, hblanks, rfl⟩ := h
  have hpadded : Written (.padded j) (blanks ++ l) := by
    have := Written.padded hblanks hl .nil
    rwa [List.append_nil] at this
  cases hbefore with
  | top => exact ⟨hj rfl, blanks, l, hblanks, hl, rfl⟩
  | @inside _ _ start before _ hstart hbefore hopened =>
    cases hopened with
    | first =>
      apply Reached.items (l := blanks ++ l) ⟨start, before, hstart, hbefore, by simp⟩
      exact .firstItem hpadded
    | @next items l' hl' =>
      apply Reached.items (l := l' ++ 0x2C :: (blanks ++ l)) ⟨start, before, hstart, hbefore, by simp⟩
      rw [List.reverse_cons]
      exact .nextItem hl' hpadded
    | member hkeyed hkey hafter =>
      obtain ⟨l', heq, hl'⟩ := hkeyed.written hkey hafter hpadded
      exact .members ⟨start, before, hstart, hbefore, by simp [← heq]⟩ hl'

theorem fits_begin (h : EndsIn frames [] taken) (hb : isBlank b = false) :
    (begin ⟨place, frames, room⟩ b).Fits (taken ++ [b]) := by
  have hmore : EndsIn frames [b] (taken ++ [b]) := h.append [b]
  have henter (place' : Place) (frame : Frame) (hreached : ∀ room, Reached ⟨place', frame :: frames, room⟩ (taken ++ [b])) :
      (enter ⟨place, frames, room⟩ place' frame).Fits (taken ++ [b]) := by
    cases room with
    | zero => trivial
    | succ room => exact hreached room
  have hnumber {part : NumberPart} (hpart : NumberPart.first? b = some part) :
      Reached ⟨.number part [b], frames, room⟩ (taken ++ [b]) :=
    .number hmore (by simp [NumberPart.of?, hpart])
  have hword {left : List UInt8} {meaning : Json} (hl : Written (.value meaning) (b :: left))
      (hmeaning : ∀ spelling, meaning ≠ .number spelling) : Reached ⟨.word left meaning, frames, room⟩ (taken ++ [b]) :=
    .word hmore hl hmeaning
  unfold begin
  rw [hb, if_neg (by simp)]
  split
  · next hbrace => exact henter _ _ fun room => .firstKey (hbrace ▸ hmore) .nil
  split
  · next hbracket => exact henter _ _ fun room => .firstItem (hbracket ▸ hmore) .nil
  split
  · next hquote => exact .string (hquote ▸ hmore) (.nil _)
  split
  · next hminus => exact hnumber (by simp [NumberPart.first?, hminus])
  split
  · next hzero => exact hnumber (by simp [NumberPart.first?, hzero])
  split
  · next hminus hzero hdigit => exact hnumber (by simp [NumberPart.first?, hminus, hzero, hdigit])
  split
  · next ht => exact hword (ht ▸ .trueWord) (by simp)
  split
  · next hf => exact hword (hf ▸ .falseWord) (by simp)
  split
  · next hn => exact hword (hn ▸ .nullWord) (by simp)
  · trivial

theorem fits_separate (h : Reached ⟨.separator, frames, room⟩ taken) :
    (separate ⟨place, frames, room⟩ b).Fits (taken ++ [b]) := by
  cases h with
  | @items items frames _ _ l h hl =>
    unfold separate
    split
    · next hb =>
      exact .items (by simpa using h.append [b]) (hl.concat_blank_items hb)
    dsimp only
    split
    · next hcomma =>
      have hopen : EndsIn frames (0x5B :: (l ++ [0x2C]) ++ []) (taken ++ [b]) := by simpa [hcomma] using h.append [b]
      exact .value (hopen.inside (.next hl) .nil)
    split
    · next hclose =>
      have hmore : EndsIn frames (0x5B :: (l ++ [0x5D])) (taken ++ [b]) := by simpa [hclose] using h.append [b]
      exact fits_complete hmore (.array hl) (by simp)
    · trivial
  | @members members frames _ _ l h hl =>
    unfold separate
    split
    · next hb =>
      exact .members (by simpa using h.append [b]) (hl.concat_blank_members hb)
    dsimp only
    split
    · next hcomma =>
      exact .nextKey (by simpa [hcomma] using h.append [b]) hl .nil
    split
    · next hclose =>
      have hmore : EndsIn frames (0x7B :: (l ++ [0x7D])) (taken ++ [b]) := by simpa [hclose] using h.append [b]
      exact fits_complete hmore (.object hl) (by simp)
    · trivial

theorem fits_number {frame : Frame} {seen : List UInt8} {part : NumberPart}
    (h : EndsIn (frame :: frames) seen.reverse taken) (hseen : NumberPart.of? seen.reverse = some part)
    (hnext : part.next? b = none) : (step ⟨.number part seen, frame :: frames, room⟩ b).Fits (taken ++ [b]) := by
  simp only [step, hnext]
  split
  · next hcomplete =>
    have hwritten : Written (.value (.number (spellingOf seen))) seen.reverse := by
      have := Written.number (NumberPart.number_of_shape (NumberPart.shape_of? hseen) hcomplete)
      rwa [List.reverse_reverse] at this
    have hfits : (complete ⟨.number part seen, frame :: frames, room⟩ (.number (spellingOf seen))).Fits taken :=
      fits_complete h hwritten (by simp)
    cases frame with
    | array items => exact fits_separate hfits
    | member members key => exact fits_separate hfits
    | object members => trivial
  · trivial

theorem fits_step {r : Reader} (h : Reached r taken) (hnumber : r.inNumber = false) :
    (r.step b).Fits (taken ++ [b]) := by
  cases h with
  | @value frames room _ h =>
    by_cases hb : isBlank b = true
    · rw [step_blank rfl hb]
      exact .value (h.blank hb)
    · exact fits_begin h (by simpa using hb)
  | @firstItem frames room _ blanks h hblanks =>
    by_cases hb : isBlank b = true
    · rw [step_blank rfl hb]
      exact .firstItem (by simpa using h.append [b]) (hblanks.concat hb)
    by_cases hclose : b = 0x5D
    · have hmore : EndsIn frames (0x5B :: (blanks ++ [0x5D])) (taken ++ [b]) := by simpa [hclose] using h.append [b]
      simp only [step, hclose, if_true]
      exact hclose ▸ fits_complete hmore (.emptyArray hblanks) (by simp)
    · rw [step_opens (.inr rfl) hclose]
      exact fits_begin (EndsIn.inside h .first hblanks) (by simpa using hb)
  | @firstKey frames room _ blanks h hblanks =>
    by_cases hb : isBlank b = true
    · rw [step_blank rfl hb]
      exact .firstKey (by simpa using h.append [b]) (hblanks.concat hb)
    simp only [step, hb, Bool.false_eq_true, if_false]
    split
    · next hquote => exact .key (hquote ▸ h.append [b]) (.first hblanks) (.nil _)
    split
    · next hclose =>
      have hmore : EndsIn frames (0x7B :: (blanks ++ [0x7D])) (taken ++ [b]) := by simpa [hclose] using h.append [b]
      exact fits_complete hmore (.emptyObject hblanks) (by simp)
    · trivial
  | @nextKey members frames room _ l blanks h hl hblanks =>
    by_cases hb : isBlank b = true
    · rw [step_blank rfl hb]
      exact .nextKey (by simpa using h.append [b]) hl (hblanks.concat hb)
    simp only [step, hb, Bool.false_eq_true, if_false]
    split
    · next hquote => exact .key (by simpa [hquote] using h.append [b]) (.next hl hblanks) (.nil _)
    · trivial
  | @key members frames room _ start seen part h hstart hseen =>
    simp only [step]
    split
    · next hclose =>
      obtain ⟨rfl, rfl⟩ : part = .plain ∧ b = 0x22 := by simpa using hclose
      have hcolon : Reached ⟨.colon, .member members (stringOf seen.reverse.reverse) :: frames, room⟩ (taken ++ [0x22]) :=
        .colon (by simpa using h.append [0x22]) hstart hseen.inside .nil
      rwa [List.reverse_reverse] at hcolon
    · next hopen =>
      split
      · next part' hnext =>
        have hmore : Passes .plain (b :: seen).reverse part' := by
          rw [List.reverse_cons]
          exact hseen.append (.cons (by simpa using hopen) hnext (.nil _))
        exact .key (by simpa using h.append [b]) hstart hmore
      · trivial
  | @colon members frames room _ start key after h hstart hkey hafter =>
    by_cases hb : isBlank b = true
    · rw [step_blank rfl hb]
      exact .colon (by simpa using h.append [b]) hstart hkey (hafter.concat hb)
    simp only [step, hb, Bool.false_eq_true, if_false]
    split
    · next hcolon =>
      have hopen : EndsIn frames (start ++ 0x22 :: (key ++ 0x22 :: (after ++ [0x3A])) ++ []) (taken ++ [b]) := by
        simpa [hcolon] using h.append [b]
      exact .value (hopen.inside (.member hstart hkey hafter) .nil)
    · trivial
  | @string frames room _ seen part h hseen =>
    simp only [step]
    split
    · next hclose =>
      obtain ⟨rfl, rfl⟩ : part = .plain ∧ b = 0x22 := by simpa using hclose
      have hwritten := Written.string hseen.inside
      rw [List.reverse_reverse] at hwritten
      exact fits_complete (by simpa using h.append [0x22]) hwritten (by simp)
    · next hopen =>
      split
      · next part' hnext =>
        have hmore : Passes .plain (b :: seen).reverse part' := by
          rw [List.reverse_cons]
          exact hseen.append (.cons (by simpa using hopen) hnext (.nil _))
        exact .string (by simpa using h.append [b]) hmore
      · trivial
  | @number frames room _ seen part h hseen =>
    cases frames with
    | nil => cases hnumber
    | cons frame frames =>
      cases hnext : part.next? b with
      | none => exact fits_number h hseen hnext
      | some part' =>
        simp only [step, hnext]
        refine .number (by simpa using h.append [b]) ?_
        rw [List.reverse_cons, NumberPart.of?_append hseen, List.foldlM_cons, hnext]
        rfl
  | @word frames room _ l left meaning h hl hmeaning =>
    cases left with
    | nil => trivial
    | cons c left =>
      cases left with
      | nil =>
        simp only [step]
        split
        · next hb => exact fits_complete (h.append [b]) (hb ▸ hl) fun _ => hmeaning
        · trivial
      | cons d left =>
        simp only [step]
        split
        · next hb => exact .word (h.append [b]) (by simpa [hb] using hl) hmeaning
        · trivial
  | items h hl => exact fits_separate (.items h hl)
  | members h hl => exact fits_separate (.members h hl)

theorem firstValue_number {seen rest : List UInt8} {part : NumberPart} (h : EndsIn [] seen.reverse taken)
    (hseen : NumberPart.of? seen.reverse = some part) (hcomplete : part.complete = true)
    (hstop : ∀ b, rest.head? = some b → part.next? b = none) :
    FirstValue (taken ++ rest) (.number (spellingOf seen)) rest := by
  have hwritten := Written.number (NumberPart.number_of_shape (NumberPart.shape_of? hseen) hcomplete)
  rw [List.reverse_reverse] at hwritten
  obtain ⟨_, blanks, hbefore, hblanks, rfl⟩ := h
  cases hbefore with
  | top => exact ⟨blanks, _, hblanks, hwritten, fun _ _ => (NumberPart.stops_iff hseen).mpr hstop, by simp⟩

/-- A value that is read is the first of the text. The induction is on what is left of the text. -/
theorem firstValue_of_scan {r : Reader} (h : Reached r taken) {left rest : List UInt8}
    (hscan : r.scan left = .ok (j, rest)) : FirstValue (taken ++ left) j rest := by
  induction left generalizing r taken with
  | nil =>
    cases h with
    | @number frames room _ seen part h hseen =>
      cases frames with
      | nil =>
        by_cases hcomplete : part.complete = true
        · rw [scan_numberEnd hcomplete (by simp) (fun _ => rfl)] at hscan
          obtain ⟨rfl, rfl⟩ := Prod.mk.inj (Except.ok.inj hscan)
          exact firstValue_number h hseen hcomplete (by simp)
        · simp [scan, finish, hcomplete, Except.map] at hscan
      | cons frame frames => cases hscan
    | @value frames => cases frames <;> cases hscan
    | firstItem | firstKey | nextKey | key | colon | string | word | items | members => cases hscan
  | cons b left ih =>
    by_cases hnumber : r.inNumber = true
    · cases h with
      | @number frames room _ seen part h hseen =>
        obtain rfl : frames = [] := by simpa [inNumber] using hnumber
        cases hnext : part.next? b with
        | none =>
          by_cases hcomplete : part.complete = true
          · have hstop : ∀ c, (b :: left).head? = some c → part.next? c = none := by
              intro c hc
              obtain rfl : b = c := by simpa using hc
              exact hnext
            rw [scan_numberEnd hcomplete hstop (fun _ => rfl)] at hscan
            obtain ⟨rfl, rfl⟩ := Prod.mk.inj (Except.ok.inj hscan)
            exact firstValue_number h hseen hcomplete hstop
          · simp [scan, step, hnext, hcomplete] at hscan
        | some part' =>
          have hmore : NumberPart.of? (b :: seen).reverse = some part' := by
            rw [List.reverse_cons, NumberPart.of?_append hseen, List.foldlM_cons, hnext]
            rfl
          have hstep : step ⟨.number part seen, [], room⟩ b = .more ⟨.number part' (b :: seen), [], room⟩ := by
            simp [step, hnext]
          rw [scan_of_step hstep] at hscan
          have hreached : Reached ⟨.number part' (b :: seen), [], room⟩ (taken ++ [b]) :=
            .number (by simpa using h.append [b]) hmore
          simpa using ih hreached hscan
      | value | firstItem | firstKey | nextKey | key | colon | string | word | items | members => cases hnumber
    · have hfits := fits_step (b := b) h (by simpa using hnumber)
      rw [scan_cons (by simpa using hnumber)] at hscan
      cases hstep : r.step b with
      | more r' =>
        rw [hstep] at hfits hscan
        simpa using ih hfits hscan
      | done j' =>
        rw [hstep] at hfits hscan
        obtain ⟨hj, blanks, l, hblanks, hl, htaken⟩ := hfits
        obtain ⟨rfl, rfl⟩ := Prod.mk.inj (Except.ok.inj hscan)
        refine ⟨blanks, l, hblanks, hl, fun spelling heq => absurd heq (hj spelling), ?_⟩
        rw [← List.append_assoc, ← htaken]
        simp
      | bad =>
        rw [hstep] at hscan
        cases hscan

end Reader

/-- Reading finds the first value of a text exactly if the value is not nested deeper than there is room for. -/
theorem scan_eq_ok_iff {text : List UInt8} {room : Nat} {j : Json} {rest : List UInt8} :
    Reader.scan ⟨.value, [], room⟩ text = .ok (j, rest) ↔ j.depth ≤ room ∧ FirstValue text j rest := by
  have hread (blanks l : List UInt8) (hblanks : Blanks blanks) (hl : Written (.value j) l)
      (hstops : ∀ spelling, j = .number spelling → Stops l rest) :
      Reader.scan ⟨.value, [], room⟩ (blanks ++ (l ++ rest)) =
        if j.depth ≤ room then .ok (j, rest) else .error .malformed := by
    rw [Reader.scan_blanks rfl hblanks,
      hl.reads .value [] room rest (.inl rfl) fun spelling heq => ⟨hstops spelling heq, fun _ => rfl⟩]
    rfl
  constructor
  · intro hscan
    have hreached : Reached ⟨.value, [], room⟩ [] := .value ⟨[], [], .top, .nil, rfl⟩
    have hfirst := Reader.firstValue_of_scan hreached hscan
    obtain ⟨blanks, l, hblanks, hl, hstops, rfl⟩ := hfirst
    refine ⟨?_, blanks, l, hblanks, hl, hstops, rfl⟩
    rw [hread blanks l hblanks hl hstops] at hscan
    by_contra hdepth
    rw [if_neg hdepth] at hscan
    cases hscan
  · rintro ⟨hdepth, blanks, l, hblanks, hl, hstops, rfl⟩
    rw [hread blanks l hblanks hl hstops, if_pos hdepth]

theorem FirstValue.unique {text rest rest' : List UInt8} {j j' : Json} (h : FirstValue text j rest)
    (h' : FirstValue text j' rest') : j = j' ∧ rest = rest' := by
  have hscan := scan_eq_ok_iff.mpr ⟨Nat.le_max_left j.depth j'.depth, h⟩
  have hscan' := scan_eq_ok_iff.mpr ⟨Nat.le_max_right j.depth j'.depth, h'⟩
  exact Prod.mk.inj (Except.ok.inj (hscan.symm.trans hscan'))

theorem read_eq_ok_iff {text : List UInt8} {j : Json} :
    read text = .ok j ↔ j.depth ≤ maxDepth ∧ ∃ rest, FirstValue text j rest := by
  rw [read, Reader.run_eq_scan]
  constructor
  · intro h
    cases hscan : Reader.start.scan text with
    | error cause =>
      rw [hscan] at h
      cases h
    | ok found =>
      obtain ⟨j', rest⟩ := found
      rw [hscan] at h
      obtain rfl : j' = j := Except.ok.inj h
      obtain ⟨hdepth, hfirst⟩ := scan_eq_ok_iff.mp hscan
      exact ⟨hdepth, rest, hfirst⟩
  · rintro ⟨hdepth, rest, hfirst⟩
    have hscan : Reader.start.scan text = .ok (j, rest) := scan_eq_ok_iff.mpr ⟨hdepth, hfirst⟩
    rw [hscan]
    rfl

end TreeWalk.Json
