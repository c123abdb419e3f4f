import Mathlib.Data.List.Basic
import TreeWalk.Proofs.Json.FirstValue
import TreeWalk.Proofs.Syntax.Reading

/-!
# Programs are read from one value

A program is read from the first value of a text, which is an object and so shows its own end. Nothing after that end
matters, and no part of the text that stops before it is a program.
-/

namespace TreeWalk

/-- The first value of a text ends before byte `n`. -/
def Json.EndsAt (text : List UInt8) (n : Nat) : Prop := n ≤ text.length ∧ ∃ j, FirstValue text j (text.drop n)

/-- Reading is decided by the first value: it does not depend on what follows, and fails without the whole of it. -/
def DecidedByFirstValue {ε α : Type} (decode : ByteArray → Except ε α) (data : ByteArray) : Prop :=
  ∃ n, Json.EndsAt data.data.toList n ∧ (∀ n', Json.EndsAt data.data.toList n' → n' = n) ∧
    (∀ s, decode (data.extract 0 n ++ s) = decode data) ∧ ∀ m < n, ∃ e, decode (data.extract 0 m) = .error e

namespace Json

variable {text rest : List UInt8} {j : Json}

/-- Up to the end of its first value, a text has the same first value whatever follows. -/
theorem FirstValue.exists_start (h : FirstValue text j rest) (hj : ∀ spelling, j ≠ .number spelling) :
    ∃ start, text = start ++ rest ∧ ∀ more, FirstValue (start ++ more) j more := by
  obtain ⟨blanks, l, hblanks, hl, -, rfl⟩ := h
  refine ⟨blanks ++ l, by simp, fun more => ?_⟩
  exact ⟨blanks, l, hblanks, hl, fun spelling heq => absurd heq (hj spelling), by simp⟩

theorem endsAt_iff {start : List UInt8} (h : FirstValue (start ++ rest) j rest) (n : Nat) :
    EndsAt (start ++ rest) n ↔ n = start.length := by
  constructor
  · rintro ⟨hle, j', h'⟩
    have hlength := congrArg List.length (h'.unique h).2
    rw [List.length_drop] at hlength
    rw [List.length_append] at hle hlength
    omega
  · rintro rfl
    refine ⟨by simp, j, ?_⟩
    rwa [List.drop_left]

end Json

section Objects

variable {kind : SourceKind} {data : ByteArray} {members : List (String × Json)}

theorem decodeObject_eq_ok_iff : decodeObject kind data = .ok members ↔
    (Json.object members).depth ≤ Json.maxDepth ∧ ∃ rest, Json.FirstValue data.data.toList (.object members) rest := by
  rw [← Json.read_eq_ok_iff, decodeObject]
  cases Json.read data.data.toList with
  | error cause => simp
  | ok j => cases j <;> simp

theorem toList_extract_append (data s : ByteArray) (n : Nat) :
    (data.extract 0 n ++ s).data.toList = data.data.toList.take n ++ s.data.toList := by
  simp

theorem decodeObject_decided (h : decodeObject kind data = .ok members) :
    DecidedByFirstValue (decodeObject kind) data := by
  obtain ⟨hdepth, rest, hfirst⟩ := decodeObject_eq_ok_iff.mp h
  obtain ⟨start, hdata, hsame⟩ := hfirst.exists_start (by simp)
  have hends (n : Nat) : Json.EndsAt data.data.toList n ↔ n = start.length := by
    rw [hdata]
    exact Json.endsAt_iff (hsame rest) n
  refine ⟨start.length, (hends _).mpr rfl, fun n => (hends n).mp, fun s => ?_, fun m hm => ?_⟩
  · rw [h, decodeObject_eq_ok_iff]
    refine ⟨hdepth, s.data.toList, ?_⟩
    rw [toList_extract_append, hdata, List.take_left]
    exact hsame s.data.toList
  · cases hshort : decodeObject kind (data.extract 0 m) with
    | error e => exact ⟨e, rfl⟩
    | ok short =>
      -- what is read from the short text would be the first value of the whole, and would end too early
      obtain ⟨-, rest', hfirst'⟩ := decodeObject_eq_ok_iff.mp hshort
      obtain ⟨start', htake, hsame'⟩ := hfirst'.exists_start (by simp)
      have hlength : start'.length ≤ m := by
        have := congrArg List.length htake
        simp at this
        omega
      have hwhole : data.data.toList = start' ++ (rest' ++ data.data.toList.drop m) := by
        rw [← List.append_assoc, ← htake]
        simp
      have hearly := (hends start'.length).mp (hwhole ▸ (Json.endsAt_iff (hsame' _) _).mpr rfl)
      omega

theorem DecidedByFirstValue.bind {ε α β : Type} {read : ByteArray → Except ε α} (h : DecidedByFirstValue read data)
    (f : α → Except ε β) : DecidedByFirstValue (fun data => read data >>= f) data := by
  obtain ⟨n, hends, hunique, hsame, hfails⟩ := h
  refine ⟨n, hends, hunique, fun s => ?_, fun m hm => ?_⟩
  · exact congrArg (· >>= f) (hsame s)
  · obtain ⟨e, he⟩ := hfails m hm
    exact ⟨e, congrArg (· >>= f) he⟩

end Objects

/-- Programs and terms are read from exactly one value of a text. -/
theorem decode_decided_by_first_value (data : ByteArray) :
    (∀ p, Program.decode data = .ok p → DecidedByFirstValue Program.decode data) ∧
    ∀ t, Term.decode data = .ok t → DecidedByFirstValue Term.decode data := by
  constructor
  · intro p hp
    obtain ⟨members, hmembers, -⟩ := bind_eq_ok.mp hp
    exact (decodeObject_decided hmembers).bind _
  · intro t ht
    obtain ⟨members, hmembers, -⟩ := bind_eq_ok.mp ht
    exact (decodeObject_decided hmembers).bind _

theorem decode_decided_by_first_value_trailing :
    let data := "\x7b\"kind\":\"Var\",\"text\":\"x\"\x7d ]".toUTF8
    (∃ t, Term.decode data = .ok t) ∧ DecidedByFirstValue Term.decode data := by
  intro data
  have hread : (Term.decode data).toOption.isSome = true := by decide +kernel
  cases ht : Term.decode data with
  | error e => simp [ht, Except.toOption] at hread
  | ok t => exact ⟨⟨t, rfl⟩, (decode_decided_by_first_value data).2 t ht⟩

end TreeWalk
