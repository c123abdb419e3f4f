import TreeWalk.Proofs.Json.Number

/-!
# Reading back what was written

The compact form of a value is one of the texts that the grammar has for it, so it is read as that value.
-/

namespace TreeWalk.Json

theorem digit_byte {d : Char} (h : d.isDigit = true) :
    String.utf8EncodeChar d = [UInt8.ofNat d.toNat] ∧ isDigit (UInt8.ofNat d.toNat) = true := by
  have hrange := Text.isDigit_iff.mp h
  have hbyte : (UInt8.ofNat d.toNat).toNat = d.toNat := Text.toNat_byte (by omega)
  refine ⟨Text.utf8EncodeChar_ascii (by omega), ?_⟩
  simpa [isDigit, UInt8.le_iff_toNat_le, hbyte, -UInt8.toNat_ofNat'] using hrange

mutual

theorem writeTo_eq (acc : String) (j : Json) : writeTo acc j = acc ++ writeTo "" j := by
  cases j with
  | array items =>
    rw [writeTo, writeTo, writeItems_eq (acc ++ "["), writeItems_eq ("" ++ "[")]
    simp only [String.append_assoc, String.empty_append]
  | object members =>
    rw [writeTo, writeTo, writeMembers_eq (acc ++ "\x7b"), writeMembers_eq ("" ++ "\x7b")]
    simp only [String.append_assoc, String.empty_append]
  | _ => simp only [writeTo, String.empty_append]

theorem writeItems_eq (acc : String) (first : Bool) (items : List Json) :
    writeItems acc first items = acc ++ writeItems "" first items := by
  cases items with
  | nil => simp [writeItems]
  | cons j items =>
    have htail (acc : String) :
        writeItems (writeTo acc j) false items = acc ++ (writeTo "" j ++ writeItems "" false items) := by
      rw [writeItems_eq, writeTo_eq, String.append_assoc]
    rw [writeItems, writeItems, htail, htail]
    cases first <;> simp [String.append_assoc]

theorem writeMembers_eq (acc : String) (first : Bool) (members : List (String × Json)) :
    writeMembers acc first members = acc ++ writeMembers "" first members := by
  cases members with
  | nil => simp [writeMembers]
  | cons m members =>
    obtain ⟨k, j⟩ := m
    have htail (acc : String) :
        writeMembers (writeTo acc j) false members = acc ++ (writeTo "" j ++ writeMembers "" false members) := by
      rw [writeMembers_eq, writeTo_eq, String.append_assoc]
    rw [writeMembers, writeMembers, htail, htail]
    cases first <;> simp [String.append_assoc]

end

open Text (bytes)

theorem bytes_writeItems_cons (first : Bool) (j : Json) (items : List Json) :
    bytes (writeItems "" first (j :: items)) =
      (if first then [] else [0x2C]) ++ (bytes j.write ++ bytes (writeItems "" false items)) := by
  rw [writeItems, writeItems_eq, writeTo_eq, Text.bytes_append, Text.bytes_append, List.append_assoc]
  cases first <;> rfl

theorem bytes_writeMembers_cons (first : Bool) (k : String) (j : Json) (members : List (String × Json)) :
    bytes (writeMembers "" first ((k, j) :: members)) =
      (if first then [] else [0x2C]) ++
        0x22 :: (inner k ++ 0x22 :: 0x3A :: (bytes j.write ++ bytes (writeMembers "" false members))) := by
  have hcolon : bytes ":" = [0x3A] := rfl
  have hcomma : bytes (if first then "" else "" ++ ",") = if first then [] else [0x2C] := by
    cases first <;> rfl
  rw [writeMembers, writeMembers_eq, writeTo_eq]
  simp only [Text.bytes_append, bytes_writeString, hcolon, hcomma, List.append_assoc, List.cons_append, List.nil_append,
    write]

theorem bytes_write_array (items : List Json) :
    bytes (Json.array items).write = 0x5B :: (bytes (writeItems "" true items) ++ [0x5D]) := by
  rw [write, writeTo, writeItems_eq, Text.bytes_append, Text.bytes_append]
  rfl

theorem bytes_write_object (members : List (String × Json)) :
    bytes (Json.object members).write = 0x7B :: (bytes (writeMembers "" true members) ++ [0x7D]) := by
  rw [write, writeTo, writeMembers_eq, Text.bytes_append, Text.bytes_append]
  rfl

/-- The numbers of the value are decimal words. -/
inductive Plain : Json → Prop
  | null : Plain .null
  | bool (b : Bool) : Plain (.bool b)
  | number (n : Int64) : Plain (.number (Text.decimal n))
  | string (s : String) : Plain (.string s)
  | array {items : List Json} (h : ∀ j ∈ items, Plain j) : Plain (.array items)
  | object {members : List (String × Json)} (h : ∀ m ∈ members, Plain m.2) : Plain (.object members)

section Forms

theorem padded_of_value {j : Json} {l : List UInt8} (h : Written (.value j) l) : Written (.padded j) l := by
  have hpadded := Written.padded .nil h .nil
  simpa using hpadded

theorem whole_digits (n : Nat) {sign : List UInt8} (hsign : sign = [] ∨ sign = [0x2D]) :
    Whole (sign ++ bytes (String.ofList (Nat.toDigits 10 n))) := by
  obtain ⟨d, ds, heq, hzero⟩ := Text.exists_toDigits_eq_cons n
  have hdigits : ∀ c ∈ d :: ds, c.isDigit = true := fun c hc => Text.isDigit_of_mem (heq ▸ hc)
  have hbytes (cs : List Char) (hcs : ∀ c ∈ cs, c.isDigit = true) :
      bytes (String.ofList cs) = cs.map fun c => UInt8.ofNat c.toNat := by
    rw [Text.bytes_eq, String.toList_ofList]
    induction cs with
    | nil => rfl
    | cons c cs ih =>
      rw [List.flatMap_cons, (digit_byte (hcs c List.mem_cons_self)).1, ih fun c hc => hcs c (List.mem_cons_of_mem _ hc)]
      rfl
  refine ⟨sign, _, hsign, ?_, rfl⟩
  rw [heq, hbytes _ hdigits]
  by_cases hd : UInt8.ofNat d.toNat = 0x30
  · have hnumber : d.toNat = 48 := by
      have hrange := Text.isDigit_iff.mp (hdigits d List.mem_cons_self)
      rw [← Text.toNat_byte (n := d.toNat) (by omega), hd]
      rfl
    obtain rfl := (hzero (Char.toNat_inj.mp hnumber)).2
    exact .inl (by rw [List.map_singleton, hd])
  · refine .inr ⟨⟨by simp, fun b hb => ?_⟩, by simpa using hd⟩
    obtain ⟨c, hc, rfl⟩ := List.mem_map.mp hb
    exact (digit_byte (hdigits c hc)).2

theorem number_decimal (n : Int64) : Number (bytes (Text.decimal n)) := by
  have hspelling : Text.decimal n =
      String.ofList ((if n.toInt < 0 then ['-'] else []) ++ Nat.toDigits 10 n.toInt.natAbs) := by
    rw [← Text.toList_decimal, String.ofList_toList]
  have hwhole : Whole (bytes (Text.decimal n)) := by
    rw [hspelling, String.ofList_append, Text.bytes_append]
    apply whole_digits
    split
    · exact .inr rfl
    · exact .inl rfl
  exact ⟨_, [], NumberPart.Shape.mantissa_of_whole hwhole, .inl rfl, by simp⟩

theorem spellingOf_decimal (n : Int64) : spellingOf (bytes (Text.decimal n)).reverse = Text.decimal n := by
  have hbytes := bytes_spellingOf (number_decimal n).ascii
  rw [← String.toList_inj, ← Text.chars_bytes, hbytes, Text.chars_bytes]

theorem written_items {done items : List Json} {l : List UInt8} (hdone : Written (.items done) l)
    (h : ∀ j ∈ items, Written (.value j) (bytes j.write)) :
    Written (.items (done ++ items)) (l ++ bytes (writeItems "" false items)) := by
  induction items generalizing done l with
  | nil => simpa [writeItems, Text.bytes_eq] using hdone
  | cons j items ih =>
    have hmore := ih (.nextItem hdone (padded_of_value (h j List.mem_cons_self)))
      fun i hi => h i (List.mem_cons_of_mem j hi)
    rw [bytes_writeItems_cons]
    simpa using hmore

theorem written_member (key : String) {j : Json} (h : Written (.value j) (bytes j.write)) :
    Written (.member (key, j)) (0x22 :: (inner key ++ 0x22 :: 0x3A :: bytes j.write)) := by
  have hmember := Written.member .nil (passes_inner key).inside .nil (padded_of_value h)
  rwa [stringOf_inner] at hmember

theorem written_members {done members : List (String × Json)} {l : List UInt8} (hdone : Written (.members done) l)
    (h : ∀ m ∈ members, Written (.value m.2) (bytes m.2.write)) :
    Written (.members (done ++ members)) (l ++ bytes (writeMembers "" false members)) := by
  induction members generalizing done l with
  | nil => simpa [writeMembers, Text.bytes_eq] using hdone
  | cons m members ih =>
    obtain ⟨key, j⟩ := m
    have hmore := ih (.nextMember hdone (written_member key (h (key, j) List.mem_cons_self)))
      fun m hm => h m (List.mem_cons_of_mem _ hm)
    rw [bytes_writeMembers_cons]
    simpa using hmore

end Forms

theorem Plain.written {j : Json} (h : Plain j) : Written (.value j) (bytes j.write) := by
  induction h with
  | null => exact .nullWord
  | bool b => cases b with
    | false => exact .falseWord
    | true => exact .trueWord
  | number n =>
    have hnumber := Written.number (number_decimal n)
    rwa [spellingOf_decimal] at hnumber
  | string s =>
    have hstring := Written.string (passes_inner s).inside
    rw [stringOf_inner] at hstring
    rwa [write, writeTo, String.empty_append, bytes_writeString]
  | @array items _ ih =>
    rw [bytes_write_array]
    cases items with
    | nil => exact .emptyArray .nil
    | cons j items =>
      rw [bytes_writeItems_cons]
      exact .array (written_items (.firstItem (padded_of_value (ih j List.mem_cons_self)))
        fun i hi => ih i (List.mem_cons_of_mem j hi))
  | @object members _ ih =>
    rw [bytes_write_object]
    cases members with
    | nil => exact .emptyObject .nil
    | cons m members =>
      obtain ⟨key, j⟩ := m
      have hmembers := written_members (.firstMember (written_member key (ih (key, j) List.mem_cons_self)))
        fun m hm => ih m (List.mem_cons_of_mem _ hm)
      rw [bytes_writeMembers_cons]
      exact .object (by simpa using hmembers)

theorem Plain.firstValue {j : Json} (h : Plain j) : FirstValue (bytes j.write) j [] :=
  ⟨[], _, .nil, h.written, by simp [Stops], by simp⟩

/-- A plain value that is not nested too deeply is read from its compact form. -/
theorem read_write {j : Json} (hplain : Plain j) (hdepth : j.depth ≤ maxDepth) : read (bytes j.write) = .ok j :=
  read_eq_ok_iff.mpr ⟨hdepth, [], hplain.firstValue⟩

end TreeWalk.Json
