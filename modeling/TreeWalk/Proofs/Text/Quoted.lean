import Mathlib.Algebra.Group.Nat.Defs
import Mathlib.Order.Filter.AtTopBot.Basic
import TreeWalk.Proofs.Json.Quotes
import TreeWalk.Text.Quoted

/-!
# Reading quoted text back

Every byte string is the bytes of its pieces. What stands between double quotes for a piece is read as the bytes of that
piece whatever follows, so a quoted byte string is read as the bytes that it stands for.
-/

namespace TreeWalk.Text

open Filter

def Piece.bytes : Piece → List UInt8
  | .char c => String.utf8EncodeChar c
  | .stray b => [b]

section Pieces

variable {a b c d : UInt8} {n : Nat}

theorem byte_eq (h : n = a.toNat) : UInt8.ofNat n = a := by rw [h, UInt8.ofNat_toNat]

theorem toNat_scalar (h : n < 0xD800 ∨ 0xDFFF < n ∧ n < 0x110000) : (Char.ofNat n).toNat = n := by
  rw [Char.ofNat, dif_pos h]
  rfl

theorem utf8EncodeChar_eq (c : Char) : String.utf8EncodeChar c =
    if c.toNat ≤ 0x7f then [UInt8.ofNat c.toNat]
    else if c.toNat ≤ 0x7ff then [UInt8.ofNat (c.toNat / 64 % 0x20 + 0xc0), UInt8.ofNat (c.toNat % 0x40 + 0x80)]
    else if c.toNat ≤ 0xffff then [UInt8.ofNat (c.toNat / 4096 % 0x10 + 0xe0),
      UInt8.ofNat (c.toNat / 64 % 0x40 + 0x80), UInt8.ofNat (c.toNat % 0x40 + 0x80)]
    else [UInt8.ofNat (c.toNat / 262144 % 0x8 + 0xf0), UInt8.ofNat (c.toNat / 4096 % 0x40 + 0x80),
      UInt8.ofNat (c.toNat / 64 % 0x40 + 0x80), UInt8.ofNat (c.toNat % 0x40 + 0x80)] := rfl

theorem utf8EncodeChar_two (hn : n = (a.toNat - 0xC0) * 64 + (b.toNat - 0x80)) (ha : 0xC2 ≤ a.toNat ∧ a.toNat ≤ 0xDF)
    (hb : 0x80 ≤ b.toNat ∧ b.toNat ≤ 0xBF) : String.utf8EncodeChar (Char.ofNat n) = [a, b] := by
  have hfirst : UInt8.ofNat (n / 64 % 0x20 + 0xc0) = a := byte_eq (by omega)
  have hsecond : UInt8.ofNat (n % 0x40 + 0x80) = b := byte_eq (by omega)
  rw [utf8EncodeChar_eq, toNat_scalar (by omega), if_neg (by omega), if_pos (by omega), hfirst, hsecond]

theorem utf8EncodeChar_three (hn : n = (a.toNat - 0xE0) * 4096 + (b.toNat - 0x80) * 64 + (c.toNat - 0x80))
    (ha : 0xE0 ≤ a.toNat ∧ a.toNat ≤ 0xEF) (hb : 0x80 ≤ b.toNat ∧ b.toNat ≤ 0xBF) (hc : 0x80 ≤ c.toNat ∧ c.toNat ≤ 0xBF)
    (hleast : 0x800 ≤ n) (hscalar : ¬(0xD800 ≤ n ∧ n ≤ 0xDFFF)) :
    String.utf8EncodeChar (Char.ofNat n) = [a, b, c] := by
  have hfirst : UInt8.ofNat (n / 4096 % 0x10 + 0xe0) = a := byte_eq (by omega)
  have hsecond : UInt8.ofNat (n / 64 % 0x40 + 0x80) = b := byte_eq (by omega)
  have hthird : UInt8.ofNat (n % 0x40 + 0x80) = c := byte_eq (by omega)
  rw [utf8EncodeChar_eq, toNat_scalar (by omega), if_neg (by omega), if_neg (by omega), if_pos (by omega), hfirst,
    hsecond, hthird]

theorem utf8EncodeChar_four
    (hn : n = (a.toNat - 0xF0) * 262144 + (b.toNat - 0x80) * 4096 + (c.toNat - 0x80) * 64 + (d.toNat - 0x80))
    (ha : 0xF0 ≤ a.toNat ∧ a.toNat ≤ 0xF4) (hb : 0x80 ≤ b.toNat ∧ b.toNat ≤ 0xBF) (hc : 0x80 ≤ c.toNat ∧ c.toNat ≤ 0xBF)
    (hd : 0x80 ≤ d.toNat ∧ d.toNat ≤ 0xBF) (hleast : 0x10000 ≤ n) (hmost : n ≤ 0x10FFFF) :
    String.utf8EncodeChar (Char.ofNat n) = [a, b, c, d] := by
  have hfirst : UInt8.ofNat (n / 262144 % 0x8 + 0xf0) = a := byte_eq (by omega)
  have hsecond : UInt8.ofNat (n / 4096 % 0x40 + 0x80) = b := byte_eq (by omega)
  have hthird : UInt8.ofNat (n / 64 % 0x40 + 0x80) = c := byte_eq (by omega)
  have hfourth : UInt8.ofNat (n % 0x40 + 0x80) = d := byte_eq (by omega)
  rw [utf8EncodeChar_eq, toNat_scalar (by omega), if_neg (by omega), if_neg (by omega), if_neg (by omega), hfirst,
    hsecond, hthird, hfourth]

theorem utf8EncodeChar_of_leadChar? {rest : List UInt8} {x : Char} {k : Nat} (h : leadChar? a rest = some (x, k)) :
    String.utf8EncodeChar x = a :: rest.take k := by
  unfold leadChar? at h
  split at h
  · next hlead =>
    obtain ⟨rfl, rfl⟩ := Prod.mk.inj (Option.some.inj h)
    have hlead : a.toNat < 0x80 := UInt8.lt_iff_toNat_lt.mp hlead
    have hnumber : (Char.ofNat a.toNat).toNat = a.toNat := toNat_scalar (by omega)
    rw [utf8EncodeChar_ascii (by omega), hnumber, UInt8.ofNat_toNat, List.take_zero]
  split at h
  · next hlead =>
    have hlead : 0xC2 ≤ a.toNat ∧ a.toNat ≤ 0xDF := by simpa [UInt8.le_iff_toNat_le] using hlead
    split at h
    · next b rest =>
      split at h
      · next hb =>
        obtain ⟨rfl, rfl⟩ := Prod.mk.inj (Option.some.inj h)
        exact utf8EncodeChar_two rfl hlead ((isTail_iff b).mp hb)
      · cases h
    · cases h
  split at h
  · next hlead =>
    have hlead : 0xE0 ≤ a.toNat ∧ a.toNat ≤ 0xEF := by simpa [UInt8.le_iff_toNat_le] using hlead
    split at h
    · next b c rest =>
      dsimp only at h
      split at h
      · next hok =>
        obtain ⟨rfl, rfl⟩ := Prod.mk.inj (Option.some.inj h)
        simp only [Bool.and_eq_true, isTail_iff, decide_eq_true_eq, Bool.not_eq_true', Bool.and_eq_false_iff,
          decide_eq_false_iff_not] at hok
        obtain ⟨⟨⟨hb, hc⟩, hleast⟩, hscalar⟩ := hok
        exact utf8EncodeChar_three rfl hlead hb hc hleast (fun hno => hscalar.elim (· hno.1) (· hno.2))
      · cases h
    · cases h
  split at h
  · next hlead =>
    have hlead : 0xF0 ≤ a.toNat ∧ a.toNat ≤ 0xF4 := by simpa [UInt8.le_iff_toNat_le] using hlead
    split at h
    · next b c d rest =>
      dsimp only at h
      split at h
      · next hok =>
        obtain ⟨rfl, rfl⟩ := Prod.mk.inj (Option.some.inj h)
        simp only [Bool.and_eq_true, isTail_iff, decide_eq_true_eq] at hok
        obtain ⟨⟨⟨⟨hb, hc⟩, hd⟩, hleast⟩, hmost⟩ := hok
        exact utf8EncodeChar_four rfl hlead hb hc hd hleast hmost
      · cases h
    · cases h
  · cases h

theorem flatMap_piecesFrom (skip : Nat) (bytes : List UInt8) :
    (piecesFrom skip bytes).flatMap Piece.bytes = bytes.drop skip := by
  induction bytes generalizing skip with
  | nil => cases skip <;> rfl
  | cons a rest ih =>
    cases skip with
    | succ skip => exact ih skip
    | zero =>
      unfold piecesFrom
      split
      · next x k hlead =>
        rw [List.flatMap_cons, ih, Piece.bytes, utf8EncodeChar_of_leadChar? hlead, List.cons_append,
          List.take_append_drop, List.drop_zero]
      · rw [List.flatMap_cons, ih]
        rfl

theorem flatMap_pieces (bytes : List UInt8) : (pieces bytes).flatMap Piece.bytes = bytes := flatMap_piecesFrom 0 bytes

end Pieces

section Reading

def hexNumber? (digits : List Char) : Option Nat :=
  digits.foldlM (fun n c => (Json.hexValue? c).map (n * 16 + ·)) 0

def marks : List (Char × Char) :=
  [('"', '"'), ('\\', '\\'), ('a', '\x07'), ('b', '\x08'), ('t', '\t'), ('n', '\n'), ('v', '\x0b'), ('f', '\x0c'),
    ('r', '\r')]

def readEscape (mark : Char) (cs : List Char) : Option (List UInt8 × List Char) :=
  if mark = 'x' then (hexNumber? (cs.take 2)).map fun n => ([UInt8.ofNat n], cs.drop 2)
  else if mark = 'u' then (hexNumber? (cs.take 4)).map fun n => (String.utf8EncodeChar (Char.ofNat n), cs.drop 4)
  else if mark = 'U' then (hexNumber? (cs.take 8)).map fun n => (String.utf8EncodeChar (Char.ofNat n), cs.drop 8)
  else (marks.lookup mark).map fun c => (String.utf8EncodeChar c, cs)

def readPiece : List Char → Option (List UInt8 × List Char)
  | '\\' :: mark :: cs => readEscape mark cs
  | c :: cs => some (String.utf8EncodeChar c, cs)
  | [] => none

/-- Reads the pieces up to a closing quote; gives their bytes and the text after the quote. Fuel bounds the number of
pieces. -/
def readQuoted : Nat → List Char → Option (List UInt8 × List Char)
  | 0, _ => none
  | fuel + 1, cs => do
    if cs.head? = some '"' then return ([], cs.tail)
    let (first, cs) ← readPiece cs
    let (rest, cs) ← readQuoted fuel cs
    return (first ++ rest, cs)

theorem eventually_of_succ {p : Nat → Prop} (h : ∀ᶠ fuel in atTop, p (fuel + 1)) : ∀ᶠ fuel in atTop, p fuel := by
  rwa [← map_add_atTop_eq_nat 1, eventually_map]

theorem eventually_of_forall_succ {p : Nat → Prop} (h : ∀ fuel, p (fuel + 1)) : ∀ᶠ fuel in atTop, p fuel :=
  eventually_of_succ (.of_forall h)

theorem length_hex {width n : Nat} (h : n < 16 ^ (width + 1)) : (hex (width + 1) n).toList.length = width + 1 := by
  induction width generalizing n with
  | zero =>
    simp only [hex, String.toList_ofList]
    rw [Nat.toDigits_of_lt_base (by omega)]
    rfl
  | succ width ih =>
    rw [toList_hex_succ, List.length_append, ih (by omega), List.length_singleton]

theorem hexNumber?_hex {width n : Nat} (h : n < 16 ^ (width + 1)) : hexNumber? (hex (width + 1) n).toList = some n := by
  induction width generalizing n with
  | zero =>
    have hdigit : (hex 1 n).toList = [Nat.digitChar n] := by
      simp only [hex, String.toList_ofList]
      rw [Nat.toDigits_of_lt_base (by omega)]
      rfl
    rw [hdigit, hexNumber?]
    simp [Json.hexValue?_digitChar n (by omega)]
  | succ width ih =>
    have hrest : hexNumber? (hex (width + 1) (n / 16)).toList = some (n / 16) := ih (by omega)
    rw [toList_hex_succ, hexNumber?, List.foldlM_append]
    rw [hexNumber?] at hrest
    rw [hrest]
    simp [Json.hexValue?_digitChar (n % 16) (by omega)]
    omega

theorem readEscape_mark {mark c : Char} (h : (mark, c) ∈ marks) (rest : List Char) :
    readPiece ('\\' :: mark :: rest) = some (String.utf8EncodeChar c, rest) := by
  have hmarks : (marks.all fun p => p.1 ≠ 'x' ∧ p.1 ≠ 'u' ∧ p.1 ≠ 'U' ∧ marks.lookup p.1 = some p.2) = true := by decide
  obtain ⟨hx, hu, hU, hlookup⟩ := of_decide_eq_true (List.all_eq_true.mp hmarks _ h)
  rw [readPiece, readEscape, if_neg hx, if_neg hu, if_neg hU, hlookup]
  rfl

theorem hexNumber?_take (width : Nat) {n : Nat} (h : n < 16 ^ (width + 1)) (rest : List Char) :
    hexNumber? (((hex (width + 1) n).toList ++ rest).take (width + 1)) = some n ∧
      ((hex (width + 1) n).toList ++ rest).drop (width + 1) = rest := by
  rw [List.take_left' (length_hex h), List.drop_left' (length_hex h)]
  exact ⟨hexNumber?_hex h, rfl⟩

theorem readPiece_byte {n : Nat} (h : n < 256) (rest : List Char) :
    readPiece (("\\x" ++ hex 2 n).toList ++ rest) = some ([UInt8.ofNat n], rest) := by
  obtain ⟨htake, hdrop⟩ := hexNumber?_take 1 h rest
  have hsplit : ("\\x" ++ hex 2 n).toList ++ rest = '\\' :: 'x' :: ((hex 2 n).toList ++ rest) := by simp
  rw [hsplit, readPiece, readEscape, if_pos rfl, htake, hdrop, Option.map_some]

theorem readPiece_quoteChar (c : Char) (rest : List Char) :
    readPiece ((quoteChar c).toList ++ rest) = some (String.utf8EncodeChar c, rest) := by
  have hvalid : c.toNat < 0x110000 := by
    have hscalar : c.toNat < 0xD800 ∨ 0xDFFF < c.toNat ∧ c.toNat < 0x110000 := c.valid
    omega
  unfold quoteChar
  split
  · next h => exact h ▸ readEscape_mark (by decide) rest
  split
  · next h => exact h ▸ readEscape_mark (by decide) rest
  split
  · next hquote hslash _ =>
    rw [String.toList_singleton, List.singleton_append]
    unfold readPiece
    split
    · next heq => exact absurd (List.cons.inj heq).1 hslash
    · next heq =>
      obtain ⟨rfl, rfl⟩ := List.cons.inj heq
      rfl
    · next heq => cases heq
  have hof {n : Nat} (h : c.toNat = n) : c = Char.ofNat n := by rw [← h, Char.ofNat_toNat]
  split
  · next h => exact hof h ▸ readEscape_mark (c := Char.ofNat 7) (by decide) rest
  · next h => exact hof h ▸ readEscape_mark (c := Char.ofNat 8) (by decide) rest
  · next h => exact hof h ▸ readEscape_mark (c := Char.ofNat 9) (by decide) rest
  · next h => exact hof h ▸ readEscape_mark (c := Char.ofNat 10) (by decide) rest
  · next h => exact hof h ▸ readEscape_mark (c := Char.ofNat 11) (by decide) rest
  · next h => exact hof h ▸ readEscape_mark (c := Char.ofNat 12) (by decide) rest
  · next h => exact hof h ▸ readEscape_mark (c := Char.ofNat 13) (by decide) rest
  · split
    · next hascii =>
      rw [utf8EncodeChar_ascii hascii]
      exact readPiece_byte (by omega) rest
    split
    · next hshort =>
      obtain ⟨htake, hdrop⟩ := hexNumber?_take 3 hshort rest
      have hsplit : ("\\u" ++ hex 4 c.toNat).toList ++ rest = '\\' :: 'u' :: ((hex 4 c.toNat).toList ++ rest) := by simp
      rw [hsplit, readPiece, readEscape, if_neg (by decide), if_pos rfl, htake, hdrop, Option.map_some, Char.ofNat_toNat]
    · have hlong : c.toNat < 16 ^ 8 := by omega
      obtain ⟨htake, hdrop⟩ := hexNumber?_take 7 hlong rest
      have hsplit : ("\\U" ++ hex 8 c.toNat).toList ++ rest = '\\' :: 'U' :: ((hex 8 c.toNat).toList ++ rest) := by simp
      rw [hsplit, readPiece, readEscape, if_neg (by decide), if_neg (by decide), if_pos rfl, htake, hdrop,
        Option.map_some, Char.ofNat_toNat]

theorem readPiece_quote (p : Piece) (rest : List Char) : readPiece (p.quote.toList ++ rest) = some (p.bytes, rest) := by
  cases p with
  | char c => exact readPiece_quoteChar c rest
  | stray b =>
    have hread := readPiece_byte (UInt8.toNat_lt b) rest
    rwa [UInt8.ofNat_toNat] at hread

theorem head?_quoteChar (c : Char) : (quoteChar c).toList.head? ≠ some '"' := by
  unfold quoteChar
  split
  · decide
  split
  · decide
  split
  · next h _ _ => simpa using h
  split
  · decide
  · decide
  · decide
  · decide
  · decide
  · decide
  · decide
  · split
    · simp
    split <;> simp

theorem head?_quote (p : Piece) : p.quote.toList.head? ≠ some '"' := by
  cases p with
  | char c => exact head?_quoteChar c
  | stray b => simp [Piece.quote]

theorem readQuoted_pieces (ps : List Piece) (rest : List Char) : ∀ᶠ fuel in atTop,
    readQuoted fuel ((ps.map Piece.quote).flatMap String.toList ++ '"' :: rest) = some (ps.flatMap Piece.bytes, rest) := by
  induction ps with
  | nil => exact eventually_of_forall_succ fun _ => rfl
  | cons p ps ih =>
    have hopen : (p.quote.toList ++ ((ps.map Piece.quote).flatMap String.toList ++ '"' :: rest)).head? ≠ some '"' := by
      have hhead := head?_quote p
      have hread := readPiece_quote p []
      cases hp : p.quote.toList with
      | nil => simp [hp, readPiece] at hread
      | cons c cs => simpa [hp] using hhead
    apply eventually_of_succ
    filter_upwards [ih] with fuel hrest
    rw [List.map_cons, List.flatMap_cons, List.append_assoc, readQuoted, if_neg hopen]
    simp only [readPiece_quote, hrest, Option.bind_eq_bind, Option.bind_some]
    rfl

theorem readQuoted_quoteBytes (b : ByteArray) (rest : List Char) : ∃ inner,
    (quoteBytes b).toList ++ rest = '"' :: inner ∧
      ∀ᶠ fuel in atTop, readQuoted fuel inner = some (b.data.toList, rest) := by
  refine ⟨((pieces b.data.toList).map Piece.quote).flatMap String.toList ++ '"' :: rest, ?_, ?_⟩
  · simp [quoteBytes, String.toList_join]
  · have hread := readQuoted_pieces (pieces b.data.toList) rest
    rwa [flatMap_pieces] at hread

end Reading

end TreeWalk.Text
