import TreeWalk.Proofs.Json.Grammar

/-!
# Reading what the grammar allows

Where a value may stand, the reader takes its text for that value, whatever follows, if there is room for the arrays and
objects that the value opens. If there is not, the text is malformed.
-/

namespace TreeWalk.Json

def Place.Opens (place : Place) : Prop := place = .value ∨ place = .firstItem

def Place.isResting : Place → Bool
  | .value | .firstItem | .firstKey | .nextKey | .colon | .separator => true
  | _ => false

/-- Whether the reader is in a number outside any array or object. Its end only shows in the byte after it. -/
def Reader.inNumber (r : Reader) : Bool :=
  match r.place with
  | .number .. => r.frames.isEmpty
  | _ => false

/-- Reads a value and tells what follows it. -/
def Reader.scan (r : Reader) : List UInt8 → Except ReadError (Json × List UInt8)
  | [] => r.finish.map fun j => (j, [])
  | b :: rest =>
    match r.step b with
    | .more r' => r'.scan rest
    | .done j => .ok (j, if r.inNumber then b :: rest else rest)
    | .bad => .error .malformed

def Progress.onward (progress : Progress) (rest : List UInt8) : Except ReadError (Json × List UInt8) :=
  match progress with
  | .more r => r.scan rest
  | .done j => .ok (j, rest)
  | .bad => .error .malformed

/-- The bytes after which an item or a member is complete. -/
def Closed (rest : List UInt8) : Prop := ∃ b ∈ [0x2C, 0x5D, 0x7D], ∃ tail, rest = b :: tail

theorem NumberPart.next?_eq_none {b : UInt8} (hb : isBlank b = true ∨ b ∈ [0x2C, 0x5D, 0x7D]) (part : NumberPart) :
    part.next? b = none := by
  have hcases : b ∈ [0x20, 0x09, 0x0A, 0x0D, 0x2C, 0x5D, 0x7D] := by
    simp only [isBlank, Bool.or_eq_true, decide_eq_true_eq, List.mem_cons, List.not_mem_nil, or_false] at hb ⊢
    tauto
  simp only [List.mem_cons, List.not_mem_nil, or_false] at hcases
  rcases hcases with rfl | rfl | rfl | rfl | rfl | rfl | rfl <;> cases part <;> rfl

theorem Stops.of_closed {l after rest : List UInt8} (h : Number l) (hafter : Blanks after) (hrest : Closed rest) :
    Stops l (after ++ rest) := by
  obtain ⟨part, hpart, -⟩ := NumberPart.exists_of?_of_number h
  rw [NumberPart.stops_iff hpart]
  intro b hb
  apply NumberPart.next?_eq_none
  cases after with
  | nil =>
    obtain ⟨c, hc, tail, rfl⟩ := hrest
    obtain rfl : c = b := by simpa using hb
    exact .inr hc
  | cons c after =>
    obtain rfl : c = b := by simpa using hb
    exact .inl (hafter c List.mem_cons_self)

namespace Reader

variable {r r' : Reader} {place : Place} {frames : List Frame} {room : Nat} {b : UInt8} {l rest : List UInt8}

theorem run_eq_scan (r : Reader) (l : List UInt8) : r.run l = (r.scan l).map Prod.fst := by
  induction l generalizing r with
  | nil =>
    rw [run, scan]
    cases r.finish <;> rfl
  | cons b l ih =>
    rw [run, scan]
    cases r.step b with
    | more r' => exact ih r'
    | done j => rfl
    | bad => rfl

theorem scan_cons (h : r.inNumber = false) (b : UInt8) (rest : List UInt8) :
    r.scan (b :: rest) = (r.step b).onward rest := by
  rw [scan, h]
  cases r.step b <;> rfl

theorem scan_of_step (h : r.step b = .more r') (rest : List UInt8) : r.scan (b :: rest) = r'.scan rest := by
  rw [scan, h]

theorem complete_place (place place' : Place) (j : Json) :
    complete ⟨place, frames, room⟩ j = complete ⟨place', frames, room⟩ j := by
  cases frames with
  | nil => rfl
  | cons frame frames => cases frame <;> rfl

theorem step_opens (h : place.Opens) (hb : b ≠ 0x5D) :
    step ⟨place, frames, room⟩ b = begin ⟨place, frames, room⟩ b := by
  rcases h with rfl | rfl
  · rfl
  · exact if_neg hb

theorem step_blank (h : place.isResting = true) (hb : isBlank b = true) :
    step ⟨place, frames, room⟩ b = .more ⟨place, frames, room⟩ := by
  have hne : b ≠ 0x5D := by
    rintro rfl
    cases hb
  cases place with
  | firstItem =>
    rw [step_opens (.inr rfl) hne, begin, if_pos hb]
  | value | firstKey | nextKey | colon | separator => simp [step, begin, separate, hb]
  | string | key | number | word => cases h

theorem scan_blanks (h : place.isResting = true) (hl : Blanks l) :
    scan ⟨place, frames, room⟩ (l ++ rest) = scan ⟨place, frames, room⟩ rest := by
  induction l with
  | nil => rfl
  | cons b l ih =>
    rw [List.cons_append, scan_of_step (step_blank h (hl b List.mem_cons_self))]
    exact ih fun c hc => hl c (List.mem_cons_of_mem b hc)

theorem onward_blanks (j : Json) {frame : Frame} (hl : Blanks l) :
    (complete ⟨.value, frame :: frames, room⟩ j).onward (l ++ rest) =
      (complete ⟨.value, frame :: frames, room⟩ j).onward rest := by
  cases frame with
  | array items => exact scan_blanks rfl hl
  | member members key => exact scan_blanks rfl hl
  | object members => rfl

section Tokens

theorem scan_passes (text : StringPart → List UInt8 → Place)
    (hstep : ∀ {part next seen b}, ¬ (part = .plain ∧ b = 0x22) → part.next? b = some next →
      step ⟨text part seen, frames, room⟩ b = .more ⟨text next (b :: seen), frames, room⟩)
    {part last : StringPart} (h : Passes part l last) (seen : List UInt8) :
    scan ⟨text part seen, frames, room⟩ (l ++ rest) = scan ⟨text last (l.reverse ++ seen), frames, room⟩ rest := by
  induction h generalizing seen with
  | nil part => rfl
  | cons hopen hnext _ ih =>
    rw [List.cons_append, scan_of_step (hstep hopen hnext), ih, List.reverse_cons, List.append_assoc,
      List.singleton_append]

theorem scan_string (h : Inside l) :
    scan ⟨.string .plain [], frames, room⟩ (l ++ 0x22 :: rest) =
      (complete ⟨.value, frames, room⟩ (.string (stringOf l.reverse))).onward rest := by
  have hpass : scan ⟨.string .plain [], frames, room⟩ (l ++ 0x22 :: rest) = _ :=
    scan_passes .string (fun hopen hnext => by simp [step, hnext, hopen]) h.passes []
  rw [hpass, List.append_nil, scan_cons rfl, ← complete_place (.string .plain l.reverse) .value]
  rfl

theorem scan_key (members : List (String × Json)) (h : Inside l) {after : List UInt8} (hafter : Blanks after) :
    scan ⟨.key .plain [], .object members :: frames, room⟩ (l ++ 0x22 :: (after ++ 0x3A :: rest)) =
      scan ⟨.value, .member members (stringOf l.reverse) :: frames, room⟩ rest := by
  have hpass : scan ⟨.key .plain [], .object members :: frames, room⟩ (l ++ 0x22 :: (after ++ 0x3A :: rest)) = _ :=
    scan_passes .key (fun hopen hnext => by simp [step, hnext, hopen]) h.passes []
  rw [hpass, List.append_nil, scan_cons rfl]
  change scan ⟨.colon, .member members (stringOf l.reverse) :: frames, room⟩ (after ++ 0x3A :: rest) = _
  rw [scan_blanks rfl hafter]
  exact scan_of_step rfl rest

theorem scan_word (meaning : Json) (b : UInt8) (left : List UInt8) :
    scan ⟨.word (b :: left) meaning, frames, room⟩ (b :: left ++ rest) =
      (complete ⟨.value, frames, room⟩ meaning).onward rest := by
  induction left generalizing b with
  | nil =>
    have hstep : step ⟨.word [b] meaning, frames, room⟩ b = complete ⟨.word [b] meaning, frames, room⟩ meaning :=
      if_pos rfl
    rw [List.cons_append, scan_cons rfl, hstep, complete_place _ .value]
    rfl
  | cons c left ih =>
    have hstep : step ⟨.word (b :: c :: left) meaning, frames, room⟩ b =
        .more ⟨.word (c :: left) meaning, frames, room⟩ := if_pos rfl
    rw [List.cons_append, scan_of_step hstep, ih]

theorem scan_digits {part last : NumberPart} (h : l.foldlM NumberPart.next? part = some last) (seen : List UInt8) :
    scan ⟨.number part seen, frames, room⟩ (l ++ rest) = scan ⟨.number last (l.reverse ++ seen), frames, room⟩ rest := by
  induction l generalizing part seen with
  | nil => exact Option.some.inj h ▸ rfl
  | cons b l ih =>
    obtain ⟨next, hnext, hl⟩ := Option.bind_eq_some_iff.mp h
    have hstep : step ⟨.number part seen, frames, room⟩ b = .more ⟨.number next (b :: seen), frames, room⟩ := by
      simp [step, hnext]
    rw [List.cons_append, scan_of_step hstep, ih hl, List.reverse_cons, List.append_assoc, List.singleton_append]

/-- A number is complete where nothing more belongs to it. The byte after it is then read once more, in the place that
follows the number. -/
theorem scan_numberEnd {part : NumberPart} (hcomplete : part.complete = true)
    (hstop : ∀ b, rest.head? = some b → part.next? b = none) (hrest : rest = [] → frames = []) (seen : List UInt8) :
    scan ⟨.number part seen, frames, room⟩ rest =
      (complete ⟨.value, frames, room⟩ (.number (spellingOf seen))).onward rest := by
  cases rest with
  | nil =>
    obtain rfl := hrest rfl
    simp [scan, finish, hcomplete, complete, Progress.onward, Except.map]
  | cons b rest =>
    have hnext := hstop b rfl
    cases frames with
    | nil => simp [scan, step, hnext, hcomplete, complete, Progress.onward, inNumber]
    | cons frame frames =>
      cases frame with
      | array items =>
        have hstep : step ⟨.number part seen, .array items :: frames, room⟩ b =
            step ⟨.separator, .array (.number (spellingOf seen) :: items) :: frames, room⟩ b := by
          simp [step, hnext, hcomplete, complete]
        rw [scan_cons rfl, hstep]
        exact (scan_cons rfl b rest).symm
      | member members key =>
        have hstep : step ⟨.number part seen, .member members key :: frames, room⟩ b =
            step ⟨.separator, .object ((key, .number (spellingOf seen)) :: members) :: frames, room⟩ b := by
          simp [step, hnext, hcomplete, complete]
        rw [scan_cons rfl, hstep]
        exact (scan_cons rfl b rest).symm
      | object members => simp [scan, step, hnext, hcomplete, complete, Progress.onward]

theorem begin_number {part : NumberPart} (h : NumberPart.first? b = some part) :
    begin ⟨place, frames, room⟩ b = .more ⟨.number part [b], frames, room⟩ := by
  unfold NumberPart.first? at h
  split at h
  · next hb =>
    obtain rfl := Option.some.inj h
    subst hb
    rfl
  · next hminus =>
    split at h
    · next hb =>
      obtain rfl := Option.some.inj h
      subst hb
      rfl
    · next hzero =>
      split at h
      · next hb =>
        obtain rfl := Option.some.inj h
        have hne (c : UInt8) (hc : Json.isDigit c = false) : b ≠ c := by
          rintro rfl
          simp [hb] at hc
        have hblank : isBlank b = false := by
          simp [isBlank, hne 0x20 rfl, hne 0x09 rfl, hne 0x0A rfl, hne 0x0D rfl]
        simp [begin, hblank, hne 0x7B rfl, hne 0x5B rfl, hne 0x22 rfl, hminus, hzero, hb]
      · cases h

theorem scan_number (hplace : place.Opens) (h : Number l) (hstops : Stops l rest) (hrest : rest = [] → frames = []) :
    scan ⟨place, frames, room⟩ (l ++ rest) =
      (complete ⟨.value, frames, room⟩ (.number (spellingOf l.reverse))).onward rest := by
  obtain ⟨part, hpart, hcomplete⟩ := NumberPart.exists_of?_of_number h
  have hstop := (NumberPart.stops_iff hpart).mp hstops
  cases l with
  | nil => cases hpart
  | cons b l =>
    obtain ⟨start, hstart, hl⟩ := Option.bind_eq_some_iff.mp hpart
    have hne : b ≠ 0x5D := by
      rintro rfl
      cases hstart
    have hstep : step ⟨place, frames, room⟩ b = .more ⟨.number start [b], frames, room⟩ := by
      rw [step_opens hplace hne, begin_number hstart]
    rw [List.cons_append, scan_of_step hstep, scan_digits hl, scan_numberEnd hcomplete hstop hrest, List.reverse_cons]

end Tokens

end Reader

theorem depthItems_append (items : List Json) (j : Json) : depthItems (items ++ [j]) = max (depthItems items) j.depth := by
  induction items with
  | nil => simp [depthItems]
  | cons i items ih => rw [List.cons_append, depthItems, depthItems, ih, Nat.max_assoc]

theorem depthMembers_append (members : List (String × Json)) (m : String × Json) :
    depthMembers (members ++ [m]) = max (depthMembers members) m.2.depth := by
  induction members with
  | nil => simp [depthMembers]
  | cons n members ih =>
    obtain ⟨key, j⟩ := n
    rw [List.cons_append, depthMembers, depthMembers, ih, Nat.max_assoc]

open Reader (scan complete)

/-- What the reader makes of the text of a phrase, with `rest` after it. -/
def Phrase.Reads : Phrase → List UInt8 → Prop
  | .value j, l => ∀ place frames room rest, place.Opens →
      (∀ spelling, j = .number spelling → Stops l rest ∧ (rest = [] → frames = [])) →
      scan ⟨place, frames, room⟩ (l ++ rest) =
        if j.depth ≤ room then (complete ⟨.value, frames, room⟩ j).onward rest else .error .malformed
  | .padded j, l => ∀ place frame frames room rest, place.Opens → Closed rest →
      scan ⟨place, frame :: frames, room⟩ (l ++ rest) =
        if j.depth ≤ room then (complete ⟨.value, frame :: frames, room⟩ j).onward rest else .error .malformed
  | .items js, l => ∀ frames room rest, Closed rest →
      scan ⟨.firstItem, .array [] :: frames, room⟩ (l ++ rest) =
        if depthItems js ≤ room then scan ⟨.separator, .array js.reverse :: frames, room⟩ rest
        else .error .malformed
  | .member m, l => ∀ place before frames room rest, place = .firstKey ∨ place = .nextKey → Closed rest →
      scan ⟨place, .object before :: frames, room⟩ (l ++ rest) =
        if m.2.depth ≤ room then scan ⟨.separator, .object (m :: before) :: frames, room⟩ rest else .error .malformed
  | .members ms, l => ∀ frames room rest, Closed rest →
      scan ⟨.firstKey, .object [] :: frames, room⟩ (l ++ rest) =
        if depthMembers ms ≤ room then scan ⟨.separator, .object ms.reverse :: frames, room⟩ rest
        else .error .malformed

namespace Phrase.Reads

open Reader

theorem flat {j : Json} (hdepth : j.depth = 0) {l : List UInt8}
    (h : ∀ place frames room rest, place.Opens →
      (∀ spelling, j = .number spelling → Stops l rest ∧ (rest = [] → frames = [])) →
      scan ⟨place, frames, room⟩ (l ++ rest) = (complete ⟨.value, frames, room⟩ j).onward rest) : (value j).Reads l := by
  intro place frames room rest hplace hstops
  rw [if_pos (by omega)]
  exact h place frames room rest hplace hstops

theorem word {meaning : Json} (hdepth : meaning.depth = 0) {b c : UInt8} {left : List UInt8} (hb : b ≠ 0x5D)
    (hbegin : ∀ place frames room, begin ⟨place, frames, room⟩ b = .more ⟨.word (c :: left) meaning, frames, room⟩) :
    (value meaning).Reads (b :: c :: left) := by
  apply flat hdepth
  intro place frames room rest hplace _
  rw [List.cons_append, scan_of_step ((step_opens hplace hb).trans (hbegin place frames room))]
  exact scan_word meaning c left

/-- An array or object is read by opening its frame, which takes room, reading what stands in it and closing it. -/
theorem bracketed {j : Json} {inner : Nat} (hdepth : j.depth = inner + 1) {first : UInt8} (hfirst : first ≠ 0x5D)
    {place' : Place} {frame : Frame}
    (hbegin : ∀ r : Reader, r.begin first = r.enter place' frame) {l : List UInt8}
    (hread : ∀ frames room rest, scan ⟨place', frame :: frames, room⟩ (l ++ rest) =
      if inner ≤ room then (complete ⟨.value, frames, room + 1⟩ j).onward rest else .error .malformed) :
    (value j).Reads (first :: l) := by
  intro place frames room rest hplace _
  have hfree : inNumber ⟨place, frames, room⟩ = false := by rcases hplace with rfl | rfl <;> rfl
  rw [List.cons_append, scan_cons hfree, step_opens hplace hfirst, hbegin, hdepth]
  cases room with
  | zero => rfl
  | succ room =>
    have hopen := hread frames room rest
    simp only [Nat.add_le_add_iff_right]
    exact hopen

theorem emptyArray {blanks : List UInt8} (h : Blanks blanks) : (value (.array [])).Reads (0x5B :: (blanks ++ [0x5D])) := by
  apply bracketed (by rfl) (by decide) (fun _ => rfl)
  intro frames room rest
  rw [List.append_assoc, scan_blanks rfl h, depthItems, if_pos (Nat.zero_le room), ← complete_place .firstItem .value]
  exact scan_cons rfl _ _

theorem emptyObject {blanks : List UInt8} (h : Blanks blanks) :
    (value (.object [])).Reads (0x7B :: (blanks ++ [0x7D])) := by
  apply bracketed (by rfl) (by decide) (fun _ => rfl)
  intro frames room rest
  rw [List.append_assoc, scan_blanks rfl h, depthMembers, if_pos (Nat.zero_le room), ← complete_place .firstKey .value]
  exact scan_cons rfl _ _

theorem array {js : List Json} {l : List UInt8} (h : (Phrase.items js).Reads l) :
    (value (.array js)).Reads (0x5B :: (l ++ [0x5D])) := by
  apply bracketed (by rw [depth]) (by decide) (fun _ => rfl)
  intro frames room rest
  rw [List.append_assoc, List.singleton_append, h frames room _ ⟨0x5D, by decide, rest, rfl⟩]
  congr 1
  rw [← complete_place .separator .value, scan_cons rfl]
  simp [step, separate, close, isBlank]

theorem object {ms : List (String × Json)} {l : List UInt8} (h : (Phrase.members ms).Reads l) :
    (value (.object ms)).Reads (0x7B :: (l ++ [0x7D])) := by
  apply bracketed (by rw [depth]) (by decide) (fun _ => rfl)
  intro frames room rest
  rw [List.append_assoc, List.singleton_append, h frames room _ ⟨0x7D, by decide, rest, rfl⟩]
  congr 1
  rw [← complete_place .separator .value, scan_cons rfl]
  simp [step, separate, close, isBlank]

theorem padded {j : Json} {before l after : List UInt8} (hbefore : Blanks before) (hl : Written (.value j) l)
    (h : (value j).Reads l) (hafter : Blanks after) : (Phrase.padded j).Reads (before ++ (l ++ after)) := by
  intro place frame frames room rest hplace hrest
  have hrests : place.isResting = true := by rcases hplace with rfl | rfl <;> rfl
  have hne : after ++ rest ≠ [] := by
    obtain ⟨b, -, tail, rfl⟩ := hrest
    simp
  rw [List.append_assoc, List.append_assoc, scan_blanks hrests hbefore, h place _ room _ hplace, onward_blanks j hafter]
  rintro spelling rfl
  cases hl with
  | number hnumber => exact ⟨.of_closed hnumber hafter hrest, fun hnil => absurd hnil hne⟩

theorem firstItem {j : Json} {l : List UInt8} (h : (Phrase.padded j).Reads l) : (Phrase.items [j]).Reads l := by
  intro frames room rest hrest
  rw [h .firstItem (.array []) frames room rest (.inr rfl) hrest, depthItems, depthItems, Nat.max_zero]
  rfl

theorem nextItem {js : List Json} {j : Json} {start l : List UInt8} (hstart : (Phrase.items js).Reads start)
    (h : (Phrase.padded j).Reads l) : (Phrase.items (js ++ [j])).Reads (start ++ 0x2C :: l) := by
  intro frames room rest hrest
  have hcomma : step ⟨.separator, .array js.reverse :: frames, room⟩ 0x2C =
      .more ⟨.value, .array js.reverse :: frames, room⟩ := rfl
  rw [List.append_assoc, List.cons_append, hstart frames room _ ⟨0x2C, by decide, l ++ rest, rfl⟩, scan_of_step hcomma,
    h .value (.array js.reverse) frames room rest (.inl rfl) hrest, depthItems_append, List.reverse_concat]
  simp only [Nat.max_le, ite_and]
  rfl

theorem member {j : Json} {before key after l : List UInt8} (hbefore : Blanks before) (hkey : Inside key)
    (hafter : Blanks after) (h : (Phrase.padded j).Reads l) :
    (Phrase.member (stringOf key.reverse, j)).Reads (before ++ 0x22 :: (key ++ 0x22 :: (after ++ 0x3A :: l))) := by
  intro place done frames room rest hplace hrest
  have hrests : place.isResting = true := by rcases hplace with rfl | rfl <;> rfl
  have hquote : step ⟨place, .object done :: frames, room⟩ 0x22 = .more ⟨.key .plain [], .object done :: frames, room⟩ := by
    rcases hplace with rfl | rfl <;> rfl
  simp only [List.append_assoc, List.cons_append]
  rw [scan_blanks hrests hbefore, scan_of_step hquote, scan_key done hkey hafter,
    h .value (.member done _) frames room rest (.inl rfl) hrest]
  rfl

theorem firstMember {m : String × Json} {l : List UInt8} (h : (Phrase.member m).Reads l) :
    (Phrase.members [m]).Reads l := by
  intro frames room rest hrest
  rw [h .firstKey [] frames room rest (.inl rfl) hrest, depthMembers, depthMembers, Nat.max_zero]
  rfl

theorem nextMember {ms : List (String × Json)} {m : String × Json} {start l : List UInt8}
    (hstart : (Phrase.members ms).Reads start) (h : (Phrase.member m).Reads l) :
    (Phrase.members (ms ++ [m])).Reads (start ++ 0x2C :: l) := by
  intro frames room rest hrest
  have hcomma : step ⟨.separator, .object ms.reverse :: frames, room⟩ 0x2C =
      .more ⟨.nextKey, .object ms.reverse :: frames, room⟩ := rfl
  rw [List.append_assoc, List.cons_append, hstart frames room _ ⟨0x2C, by decide, l ++ rest, rfl⟩, scan_of_step hcomma,
    h .nextKey ms.reverse frames room rest (.inr rfl) hrest, depthMembers_append, List.reverse_concat]
  simp only [Nat.max_le, ite_and]

end Phrase.Reads

/-- The reader takes the text of a phrase for that phrase. -/
theorem Written.reads {phrase : Phrase} {l : List UInt8} (h : Written phrase l) : phrase.Reads l := by
  induction h with
  | nullWord => exact .word rfl (by decide) fun _ _ _ => rfl
  | trueWord => exact .word rfl (by decide) fun _ _ _ => rfl
  | falseWord => exact .word rfl (by decide) fun _ _ _ => rfl
  | number h =>
    apply Phrase.Reads.flat rfl
    intro place frames room rest hplace hstops
    obtain ⟨hstops, hrest⟩ := hstops _ rfl
    exact Reader.scan_number hplace h hstops hrest
  | @string l h =>
    apply Phrase.Reads.flat rfl
    intro place frames room rest hplace _
    have hquote : Reader.step ⟨place, frames, room⟩ 0x22 = .more ⟨.string .plain [], frames, room⟩ := by
      rcases hplace with rfl | rfl <;> rfl
    rw [List.cons_append, Reader.scan_of_step hquote, List.append_assoc]
    exact Reader.scan_string h
  | emptyArray h => exact .emptyArray h
  | array _ ih => exact .array ih
  | emptyObject h => exact .emptyObject h
  | object _ ih => exact .object ih
  | padded hbefore h hafter ih => exact .padded hbefore h ih hafter
  | firstItem _ ih => exact .firstItem ih
  | nextItem _ _ ihstart ih => exact .nextItem ihstart ih
  | member hbefore hkey hafter _ ih => exact .member hbefore hkey hafter ih
  | firstMember _ ih => exact .firstMember ih
  | nextMember _ _ ihstart ih => exact .nextMember ihstart ih

end TreeWalk.Json
