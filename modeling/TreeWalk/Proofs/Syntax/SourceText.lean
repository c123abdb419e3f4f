import TreeWalk.Proofs.Syntax.Subterm
import TreeWalk.Proofs.Text.Number
import TreeWalk.Proofs.Text.Quoted
import TreeWalk.Syntax.Render

/-!
# Reading source text

A reader for the source text of terms. With enough fuel it undoes the writing of terms in which nothing is absent,
nothing is an error, every operator has a meaning and every name is an identifier. Such terms with the same source text
are the same, up to locations and to whether an empty list of arguments was given.
-/

namespace TreeWalk

/-- Letters, digits and underscores. Every character outside ASCII counts as a letter. -/
def isNameChar (c : Char) : Bool := c.isAlphanum || c = '_' || 0x80 ≤ c.toNat

def reserved : List String := ["let", "fn", "if", "else", "true", "false", "first", "second", "print"]

def isWord (s : String) : Bool := s.toList.all isNameChar && s.toList.head?.any (!·.isDigit)

def isIdentifier (s : String) : Bool := isWord s && s ∉ reserved

def Parameter.bare (p : Parameter) : Parameter := ⟨p.text, .unknown⟩

namespace Term

/-- What a node has to satisfy by itself for its source text to be read back. -/
def isPlain : Term → Bool
  | absent | error .. => false
  | binary _ _ op _ => op.isKnown
  | var _ text => isIdentifier text
  | letIn _ name _ _ => isIdentifier name.text
  | function _ params _ => params.all fun p => isIdentifier p.text
  | int .. | str .. | bool .. | call .. | ite .. | tuple .. | first .. | second .. | print .. => true

def Plain (t : Term) : Prop := ∀ s ∈ t.subterms, s.isPlain = true

instance (t : Term) : Decidable t.Plain := inferInstanceAs (Decidable (∀ s ∈ t.subterms, s.isPlain = true))

theorem plain_iff {t : Term} : t.Plain ↔ t.isPlain = true ∧ ∀ part ∈ t.parts, part.Plain := by
  simp only [Plain, mem_subterms (t := t), or_imp, forall_and, forall_eq, forall_exists_index, and_imp]
  exact and_congr_right fun _ => ⟨fun h part hpart s hs => h s part hpart hs, fun h s part hpart hs => h part hpart s hs⟩

mutual

@[simp] def bare : Term → Term
  | absent => absent
  | int _ n => int .unknown n
  | str _ s => str .unknown s
  | bool _ b => bool .unknown b
  | var _ text => var .unknown text
  | binary _ lhs op rhs => binary .unknown lhs.bare op rhs.bare
  | letIn _ name value next => letIn .unknown name.bare value.bare next.bare
  | function _ params body => function .unknown (params.map Parameter.bare) body.bare
  | call _ callee args _ => call .unknown callee.bare (bareEach args) true
  | ite _ c t e => ite .unknown c.bare t.bare e.bare
  | tuple _ a b => tuple .unknown a.bare b.bare
  | first _ t => first .unknown t.bare
  | second _ t => second .unknown t.bare
  | print _ t => print .unknown t.bare
  | error _ message fullText => error .unknown message fullText

def bareEach : List Term → List Term
  | [] => []
  | t :: rest => t.bare :: bareEach rest

end

attribute [simp] renderAt

theorem bareEach_eq (ts : List Term) : bareEach ts = ts.map bare := by
  induction ts with
  | nil => rfl
  | cons t ts ih => rw [bareEach, ih, List.map_cons]

theorem renderEach_eq (indent : Nat) (ts : List Term) : renderEach indent ts = ts.map (renderAt indent) := by
  induction ts with
  | nil => rfl
  | cons t ts ih => rw [renderEach, ih, List.map_cons]

end Term

namespace SourceText

open Filter
open Text (eventually_of_succ eventually_of_forall_succ)

section Reader

-- a text is read word by word; a word is the name characters that it starts with
def word (cs : List Char) : String := String.ofList (cs.takeWhile isNameChar)

def afterWord (cs : List Char) : List Char := cs.dropWhile isNameChar

def skip? (mark : String) (cs : List Char) : Option (List Char) :=
  if mark.toList.isPrefixOf cs then some (cs.drop mark.toList.length) else none

def readMoreNames : Nat → List Char → Option (List String × List Char)
  | 0, _ => none
  | fuel + 1, cs =>
    match skip? ")" cs with
    | some cs => return ([], cs)
    | none => do
      let cs ← skip? ", " cs
      let (names, after) ← readMoreNames fuel (afterWord cs)
      return (word cs :: names, after)

def readNames (fuel : Nat) (cs : List Char) : Option (List String × List Char) :=
  match skip? ")" cs with
  | some cs => return ([], cs)
  | none => do
    let (names, after) ← readMoreNames fuel (afterWord cs)
    return (word cs :: names, after)

def operators : List Operator := [.add, .sub, .mul, .div, .rem, .eq, .neq, .lt, .gt, .lte, .gte, .and, .or]

def readOperator (cs : List Char) : Option (Operator × List Char) := do
  let op ← operators.find? fun op => op.symbol = String.ofList (cs.takeWhile (· ≠ ' '))
  let cs ← skip? " " (cs.dropWhile (· ≠ ' '))
  return (op, cs)

def isNumberChar (c : Char) : Bool := c.isDigit || c = '-'

def readNumber (cs : List Char) : Option (Term × List Char) :=
  match Text.readInt64 (String.ofList (cs.takeWhile isNumberChar)) with
  | .ok n => some (.int .unknown n, cs.dropWhile isNumberChar)
  | .error _ => none

def wrappers : List (String × (Term → Term)) :=
  [("first", .first .unknown), ("second", .second .unknown), ("print", .print .unknown)]

mutual

/-- Reads a term; gives it and the text after it. Fuel bounds the depth of the recursion. -/
def readTerm : Nat → Nat → List Char → Option (Term × List Char)
  | 0, _, _ => none
  | fuel + 1, indent, cs => do
    let rest := afterWord cs
    if word cs = "let" then
      let rest ← skip? " " rest
      let after ← skip? " = " (afterWord rest)
      let (value, after) ← readTerm fuel indent after
      let after ← skip? (";" ++ Term.lineBreak indent) after
      let (next, after) ← readTerm fuel indent after
      return (.letIn .unknown ⟨word rest, .unknown⟩ value next, after)
    else if word cs = "fn" then
      let rest ← skip? " (" rest
      let (names, rest) ← readNames fuel rest
      let rest ← skip? " => " rest
      let (body, rest) ← readBlock fuel indent rest
      return (.function .unknown (names.map (⟨·, .unknown⟩)) body, rest)
    else if word cs = "if" then
      let rest ← skip? " (" rest
      let (condition, rest) ← readTerm fuel indent rest
      let rest ← skip? ") " rest
      let (thenBranch, rest) ← readBlock fuel indent rest
      let rest ← skip? " else " rest
      let (otherwise, rest) ← readBlock fuel indent rest
      return (.ite .unknown condition thenBranch otherwise, rest)
    else
      let (lhs, rest) ← readOperand fuel indent cs
      match skip? " " rest with
      | none => return (lhs, rest)
      | some rest =>
        let (op, rest) ← readOperator rest
        let (rhs, rest) ← readOperand fuel indent rest
        return (.binary .unknown lhs op rhs, rest)

def readBlock : Nat → Nat → List Char → Option (Term × List Char)
  | 0, _, _ => none
  | fuel + 1, indent, cs => do
    let cs ← skip? ("\x7b" ++ Term.lineBreak (indent + 1)) cs
    let (body, cs) ← readTerm fuel (indent + 1) cs
    let cs ← skip? (Term.lineBreak indent ++ "\x7d") cs
    return (body, cs)

def readOperand : Nat → Nat → List Char → Option (Term × List Char)
  | 0, _, _ => none
  | fuel + 1, indent, cs => do
    let (head, cs) ← readHead fuel indent cs
    readCalls fuel indent head cs

def readHead : Nat → Nat → List Char → Option (Term × List Char)
  | 0, _, _ => none
  | fuel + 1, indent, cs => do
    match cs with
    | '"' :: cs =>
      let (bytes, cs) ← Text.readQuoted fuel cs
      return (.str .unknown ⟨bytes.toArray⟩, cs)
    | '(' :: cs =>
      let (t, cs) ← readTerm fuel indent cs
      match skip? ")" cs with
      | some cs => return (t, cs)
      | none =>
        let cs ← skip? ", " cs
        let (u, cs) ← readTerm fuel indent cs
        let cs ← skip? ")" cs
        return (.tuple .unknown t u, cs)
    | cs =>
      if cs.head?.any isNumberChar then readNumber cs
      else if word cs = "true" then return (.bool .unknown true, afterWord cs)
      else if word cs = "false" then return (.bool .unknown false, afterWord cs)
      else
        match wrappers.lookup (word cs) with
        | some wrap =>
          let cs ← skip? "(" (afterWord cs)
          let (t, cs) ← readTerm fuel indent cs
          let cs ← skip? ")" cs
          return (wrap t, cs)
        | none => return (.var .unknown (word cs), afterWord cs)

def readCalls : Nat → Nat → Term → List Char → Option (Term × List Char)
  | 0, _, _, _ => none
  | fuel + 1, indent, callee, cs =>
    match skip? "(" cs with
    | none => return (callee, cs)
    | some cs => do
      let (args, cs) ← readArguments fuel indent cs
      readCalls fuel indent (.call .unknown callee args true) cs

def readArguments : Nat → Nat → List Char → Option (List Term × List Char)
  | 0, _, _ => none
  | fuel + 1, indent, cs =>
    match skip? ")" cs with
    | some cs => return ([], cs)
    | none => do
      let (t, cs) ← readTerm fuel indent cs
      let (ts, cs) ← readMore fuel indent cs
      return (t :: ts, cs)

def readMore : Nat → Nat → List Char → Option (List Term × List Char)
  | 0, _, _ => none
  | fuel + 1, indent, cs =>
    match skip? ")" cs with
    | some cs => return ([], cs)
    | none => do
      let cs ← skip? ", " cs
      let (t, cs) ← readTerm fuel indent cs
      let (ts, cs) ← readMore fuel indent cs
      return (t :: ts, cs)

end

end Reader

section Marks

variable {rest : List Char}

/-- A text that starts with one of these characters, or has ended. -/
def Starts (marks : List Char) (rest : List Char) : Prop := ∀ c ∈ rest.head?, c ∈ marks

abbrev Stops : List Char → Prop := Starts ['(', ' ', ')', ',', ';', '\n']

abbrev Ends : List Char → Prop := Starts [')', ',', ';', '\n']

theorem Starts.stops (h : Ends rest) : Stops rest := fun c hc => List.mem_cons_of_mem _ (List.mem_cons_of_mem _ (h c hc))

theorem Stops.not_name (h : Stops rest) : ∀ c ∈ rest.head?, isNameChar c = false ∧ isNumberChar c = false := by
  have hmarks : ∀ c ∈ ['(', ' ', ')', ',', ';', '\n'], isNameChar c = false ∧ isNumberChar c = false := by
    simp [isNameChar, isNumberChar]
  exact fun c hc => hmarks c (h c hc)

theorem skip?_append (mark : String) (cs : List Char) : skip? mark (mark.toList ++ cs) = some cs := by
  simp [skip?]

theorem skip?_close (cs : List Char) : skip? ")" (')' :: cs) = some cs := skip?_append ")" cs

theorem skip?_head {mark : String} {c : Char} (hmark : mark.toList.head? = some c) {cs : List Char}
    (h : cs.head? ≠ some c) : skip? mark cs = none := by
  unfold skip?
  rw [if_neg]
  intro hprefix
  obtain ⟨tail, rfl⟩ := List.isPrefixOf_iff_prefix.mp hprefix
  cases hm : mark.toList with
  | nil => simp [hm] at hmark
  | cons d ds => simp_all

theorem takeWhile_span {p : Char → Bool} {taken : List Char} (htaken : ∀ c ∈ taken, p c = true)
    (hrest : ∀ c ∈ rest.head?, p c = false) :
    (taken ++ rest).takeWhile p = taken ∧ (taken ++ rest).dropWhile p = rest := by
  have hstop : rest.takeWhile p = [] ∧ rest.dropWhile p = rest := by
    cases rest with
    | nil => exact ⟨rfl, rfl⟩
    | cons c cs => simp [hrest c rfl]
  constructor
  · rw [List.takeWhile_append_of_pos htaken, hstop.1, List.append_nil]
  · rw [List.dropWhile_append_of_pos htaken, hstop.2]

theorem not_name_mark (mark : String) {c : Char} (hmark : mark.toList.head? = some c) (hc : isNameChar c = false)
    (rest : List Char) : ∀ d ∈ (mark.toList ++ rest).head?, isNameChar d = false := by
  intro d hd
  rw [List.head?_append, hmark] at hd
  obtain rfl := Option.some.inj hd
  exact hc

theorem word_append {s : String} (hs : s.toList.all isNameChar = true) (hrest : ∀ c ∈ rest.head?, isNameChar c = false) :
    word (s.toList ++ rest) = s ∧ afterWord (s.toList ++ rest) = rest := by
  obtain ⟨htake, hdrop⟩ := takeWhile_span (List.all_eq_true.mp hs) hrest
  exact ⟨by rw [word, htake, String.ofList_toList], hdrop⟩

theorem isIdentifier_word {name : String} (h : isIdentifier name = true)
    (hrest : ∀ c ∈ rest.head?, isNameChar c = false) :
    word (name.toList ++ rest) = name ∧ afterWord (name.toList ++ rest) = rest := by
  simp only [isIdentifier, isWord, Bool.and_eq_true] at h
  exact word_append h.1.1 hrest

theorem toList_intercalate_cons (sep first : String) (more : List String) :
    (sep.intercalate (first :: more)).toList = first.toList ++ more.flatMap fun s => sep.toList ++ s.toList := by
  induction more generalizing first with
  | nil => simp
  | cons s more ih => simp [String.intercalate_cons_cons, ih]

theorem ends_listed (texts : List String) (rest : List Char) :
    Ends (texts.flatMap (fun s => ", ".toList ++ s.toList) ++ ')' :: rest) := by
  cases texts <;> simp [Starts]

end Marks

section RoundTrip

open Term

variable {t : Term}

def operandText (indent : Nat) (t : Term) : String := parenthesized t.isCompound (renderAt indent t)

/-- What is read of a term that stands as an operand: that term, and then its calls. -/
def OperandReads (t : Term) : Prop :=
  ∀ indent rest, Stops rest →
    word ((operandText indent t).toList ++ rest) ∉ ["let", "fn", "if"] ∧
    ((operandText indent t).toList ++ rest).head? ≠ some ')' ∧
    ∀ result, (∀ᶠ fuel in atTop, readCalls fuel indent t.bare rest = some result) →
      ∀ᶠ fuel in atTop, readOperand fuel indent ((operandText indent t).toList ++ rest) = some result

/-- What is read of a term: that term, up to the text after it. -/
def TermReads (t : Term) : Prop :=
  ∀ indent rest, Ends rest →
    ((renderAt indent t).toList ++ rest).head? ≠ some ')' ∧
    ∀ᶠ fuel in atTop, readTerm fuel indent ((renderAt indent t).toList ++ rest) = some (t.bare, rest)

theorem word_of_head {cs : List Char} {c : Char} (h : cs.head? = some c) (hc : isNameChar c = false) : word cs = "" := by
  cases cs with
  | nil => cases h
  | cons d ds =>
    obtain rfl := Option.some.inj h
    simp [word, hc]

theorem word_of_mark {cs : List Char} {c : Char} (h : cs.head? = some c) (hc : isNameChar c = false) :
    word cs ∉ ["let", "fn", "if"] := by
  rw [word_of_head h hc]
  decide

theorem readCalls_of_ends {rest : List Char} (h : rest.head? ≠ some '(') (indent : Nat) (callee : Term) :
    ∀ᶠ fuel in atTop, readCalls fuel indent callee rest = some (callee, rest) := by
  apply eventually_of_forall_succ
  intro fuel
  rw [readCalls, skip?_head rfl h]
  rfl

theorem operandReads_of_compound (hcompound : t.isCompound = true) (h : TermReads t) : OperandReads t := by
  intro indent rest _
  have htext : (operandText indent t).toList ++ rest = '(' :: ((renderAt indent t).toList ++ ')' :: rest) := by
    simp [operandText, parenthesized, hcompound]
  have hread := (h indent (')' :: rest) (by simp [Starts])).2
  rw [htext]
  refine ⟨word_of_mark rfl (by decide), by simp, ?_⟩
  intro result hcalls
  have hhead : ∀ᶠ fuel in atTop,
      readHead fuel indent ('(' :: ((renderAt indent t).toList ++ ')' :: rest)) = some (t.bare, rest) := by
    apply eventually_of_succ
    filter_upwards [hread] with fuel hread
    rw [readHead]
    simp only [hread, skip?_close, Option.bind_eq_bind, Option.bind_some, Option.pure_def]
  apply eventually_of_succ
  filter_upwards [hhead, hcalls] with fuel hhead hcalls
  rw [readOperand, hhead]
  exact hcalls

theorem termReads_of_operandReads (hsimple : t.isCompound = false) (h : OperandReads t) : TermReads t := by
  intro indent rest hrest
  have htext : operandText indent t = renderAt indent t := by simp [operandText, parenthesized, hsimple]
  have hoperand := h indent rest hrest.stops
  rw [htext] at hoperand
  obtain ⟨hword, hhead, hread⟩ := hoperand
  have hnot {c : Char} (hc : c ∉ [')', ',', ';', '\n']) : rest.head? ≠ some c := fun hsome => hc (hrest c hsome)
  refine ⟨hhead, ?_⟩
  simp only [List.mem_cons, List.not_mem_nil, or_false, not_or] at hword
  apply eventually_of_succ
  filter_upwards [hread _ (readCalls_of_ends (hnot (by decide)) indent t.bare)] with fuel hread
  rw [readTerm, if_neg hword.1, if_neg hword.2.1, if_neg hword.2.2, hread, Option.bind_eq_bind, Option.bind_some]
  dsimp only
  rw [skip?_head rfl (hnot (by decide))]
  rfl

theorem operandReads_of_head (hsimple : t.isCompound = false)
    (h : ∀ indent rest, Stops rest →
      word ((renderAt indent t).toList ++ rest) ∉ ["let", "fn", "if"] ∧
      ((renderAt indent t).toList ++ rest).head? ≠ some ')' ∧
      ∀ᶠ fuel in atTop, readHead fuel indent ((renderAt indent t).toList ++ rest) = some (t.bare, rest)) :
    OperandReads t := by
  intro indent rest hrest
  have htext : operandText indent t = renderAt indent t := by simp [operandText, parenthesized, hsimple]
  obtain ⟨hword, hhead, hread⟩ := h indent rest hrest
  rw [htext]
  refine ⟨hword, hhead, fun result hcalls => ?_⟩
  apply eventually_of_succ
  filter_upwards [hread, hcalls] with fuel hread hcalls
  rw [readOperand, hread]
  exact hcalls

section Heads

variable {cs rest : List Char}

theorem readHead_word (hquote : cs.head? ≠ some '"') (hopen : cs.head? ≠ some '(') (fuel indent : Nat) :
    readHead (fuel + 1) indent cs =
      if cs.head?.any isNumberChar then readNumber cs
      else if word cs = "true" then some (.bool .unknown true, afterWord cs)
      else if word cs = "false" then some (.bool .unknown false, afterWord cs)
      else
        match wrappers.lookup (word cs) with
        | some wrap => do
          let cs ← skip? "(" (afterWord cs)
          let (t, cs) ← readTerm fuel indent cs
          let cs ← skip? ")" cs
          return (wrap t, cs)
        | none => some (.var .unknown (word cs), afterWord cs) := by
  unfold readHead
  split
  · exact absurd rfl hquote
  · exact absurd rfl hopen
  · rfl

theorem head?_word {c : Char} (h : cs.head? = some c) (hc : isNameChar c = true) : (word cs).toList.head? = some c := by
  cases cs with
  | nil => cases h
  | cons d ds =>
    obtain rfl := Option.some.inj h
    simp [word, hc]

theorem word_of_number {c : Char} (h : cs.head? = some c) (hc : isNumberChar c = true) :
    word cs ∉ ["let", "fn", "if"] := by
  by_cases hminus : c = '-'
  · exact word_of_mark h (hminus ▸ by decide)
  · have hdigit : c.isDigit = true := by simpa [isNumberChar, hminus] using hc
    have hhead := head?_word h (by simp [isNameChar, Char.isAlphanum, hdigit])
    intro hmem
    simp only [List.mem_cons, List.not_mem_nil, or_false] at hmem
    rcases hmem with hw | hw | hw
    all_goals
      rw [hw] at hhead
      obtain rfl := Option.some.inj hhead
      exact absurd hdigit (by decide)

theorem head?_ne {p : Char → Bool} {c d : Char} (h : cs.head? = some c) (hc : p c = true) (hd : p d = false) :
    cs.head? ≠ some d := by
  rw [h]
  rintro ⟨⟩
  rw [hc] at hd
  cases hd

theorem isNumberChar_decimal (n : Int64) : ∀ c ∈ (Text.decimal n).toList, isNumberChar c = true := by
  intro c hc
  rw [Text.toList_decimal, List.mem_append] at hc
  rcases hc with hc | hc
  · have hminus : c = '-' := by
      split at hc
      · exact List.mem_singleton.mp hc
      · cases hc
    simp [isNumberChar, hminus]
  · simp [isNumberChar, Text.isDigit_of_mem hc]

theorem int_reads (loc : Location) (n : Int64) : OperandReads (.int loc n) := by
  apply operandReads_of_head rfl
  intro indent rest hrest
  obtain ⟨c, cs, hcs⟩ : ∃ c cs, (Text.decimal n).toList = c :: cs := by
    obtain ⟨d, ds, hds, -⟩ := Text.exists_toDigits_eq_cons n.toInt.natAbs
    rw [Text.toList_decimal, hds]
    split
    · exact ⟨'-', d :: ds, rfl⟩
    · exact ⟨d, ds, rfl⟩
  have hc : isNumberChar c = true := isNumberChar_decimal n c (by simp [hcs])
  have hhead : ((Text.decimal n).toList ++ rest).head? = some c := by simp [hcs]
  obtain ⟨htake, hdrop⟩ := takeWhile_span (isNumberChar_decimal n) fun c hc => (hrest.not_name c hc).2
  rw [renderAt]
  refine ⟨word_of_number hhead hc, head?_ne hhead hc (by decide), ?_⟩
  apply eventually_of_forall_succ
  intro fuel
  rw [readHead_word (head?_ne hhead hc (by decide)) (head?_ne hhead hc (by decide)), hhead, if_pos (by simpa using hc),
    readNumber, htake, hdrop, String.ofList_toList, Text.readInt64_decimal]
  rfl

theorem str_reads (loc : Location) (b : ByteArray) : OperandReads (.str loc b) := by
  apply operandReads_of_head rfl
  intro indent rest hrest
  obtain ⟨inner, htext, hread⟩ := Text.readQuoted_quoteBytes b rest
  rw [renderAt, htext]
  refine ⟨word_of_mark rfl (by decide), by simp, ?_⟩
  apply eventually_of_succ
  filter_upwards [hread] with fuel hread
  rw [readHead, hread]
  rfl

theorem readHead_isWord {w : String} (hw : isWord w = true) (hrest : ∀ c ∈ rest.head?, isNameChar c = false)
    (indent : Nat) :
    word (w.toList ++ rest) = w ∧ afterWord (w.toList ++ rest) = rest ∧ (w.toList ++ rest).head? ≠ some ')' ∧
    ∀ fuel, readHead (fuel + 1) indent (w.toList ++ rest) =
      if w = "true" then some (.bool .unknown true, rest)
      else if w = "false" then some (.bool .unknown false, rest)
      else
        match wrappers.lookup w with
        | some wrap => do
          let cs ← skip? "(" rest
          let (t, cs) ← readTerm fuel indent cs
          let cs ← skip? ")" cs
          return (wrap t, cs)
        | none => some (.var .unknown w, rest) := by
  simp only [isWord, Bool.and_eq_true] at hw
  obtain ⟨hname, hfirst⟩ := hw
  obtain ⟨hword, hafter⟩ := word_append hname hrest
  cases hcs : w.toList with
  | nil => simp [hcs] at hfirst
  | cons c cs =>
    have hc : isNameChar c = true := List.all_eq_true.mp hname c (by simp [hcs])
    have hminus : c ≠ '-' := by
      rintro rfl
      exact absurd hc (by decide)
    have hnumber : isNumberChar c = false := by
      have hdigit : c.isDigit = false := by simpa [hcs] using hfirst
      simp [isNumberChar, hdigit, hminus]
    have hhead : (c :: cs ++ rest).head? = some c := rfl
    rw [hcs] at hword hafter
    refine ⟨hword, hafter, head?_ne hhead hc (by decide), fun fuel => ?_⟩
    rw [readHead_word (head?_ne hhead hc (by decide)) (head?_ne hhead hc (by decide)), hhead, hword, hafter,
      if_neg (by simpa using hnumber)]

theorem bool_reads (loc : Location) (b : Bool) : OperandReads (.bool loc b) := by
  apply operandReads_of_head rfl
  intro indent rest hrest
  have hword (w : String) (hw : isWord w = true) := readHead_isWord hw (fun c hc => (hrest.not_name c hc).1) indent
  cases b with
  | true =>
    obtain ⟨hw, -, hhead, hread⟩ := hword "true" (by decide)
    exact ⟨hw ▸ by decide, hhead, eventually_of_forall_succ hread⟩
  | false =>
    obtain ⟨hw, -, hhead, hread⟩ := hword "false" (by decide)
    exact ⟨hw ▸ by decide, hhead, eventually_of_forall_succ hread⟩

theorem var_reads (loc : Location) {name : String} (h : isIdentifier name = true) : OperandReads (.var loc name) := by
  apply operandReads_of_head rfl
  intro indent rest hrest
  simp only [isIdentifier, Bool.and_eq_true, decide_eq_true_eq] at h
  obtain ⟨hname, hreserved⟩ := h
  obtain ⟨hword, -, hhead, hread⟩ := readHead_isWord hname (fun c hc => (hrest.not_name c hc).1) indent
  simp only [reserved, List.mem_cons, List.not_mem_nil, or_false, not_or] at hreserved
  obtain ⟨hlet, hfn, hif, -, htrue, hfalse, hfirst, hsecond, hprint⟩ := hreserved
  have hwrapper : wrappers.lookup name = none := by
    simp [wrappers, List.lookup_cons, beq_eq_false_iff_ne.mpr hfirst, beq_eq_false_iff_ne.mpr hsecond,
      beq_eq_false_iff_ne.mpr hprint]
  rw [renderAt, hword]
  refine ⟨by simp [hlet, hfn, hif], hhead, ?_⟩
  apply eventually_of_forall_succ
  intro fuel
  rw [hread, if_neg htrue, if_neg hfalse, hwrapper]
  rfl

theorem wrapper_reads {w : String} {wrap : Term → Term} {v : Term} (hw : w ∈ ["first", "second", "print"])
    (hwrap : wrappers.lookup w = some wrap) (hsimple : t.isCompound = false)
    (htext : ∀ indent, renderAt indent t = w ++ "(" ++ renderAt indent v ++ ")") (hbare : t.bare = wrap v.bare)
    (hv : TermReads v) : OperandReads t := by
  apply operandReads_of_head hsimple
  intro indent rest hrest
  have hsplit : (renderAt indent t).toList ++ rest =
      w.toList ++ ("(".toList ++ ((renderAt indent v).toList ++ (")".toList ++ rest))) := by simp [htext]
  have hinner := (hv indent (")".toList ++ rest) (by simp [Starts])).2
  have hwords : ∀ w ∈ ["first", "second", "print"], isWord w = true ∧ w ∉ ["let", "fn", "if"] ∧ w ≠ "true" ∧
      w ≠ "false" := by decide
  obtain ⟨hname, hkey, htrue, hfalse⟩ := hwords w hw
  obtain ⟨hword, -, hhead, hread⟩ := readHead_isWord hname
    (not_name_mark "(" rfl (by decide) ((renderAt indent v).toList ++ (")".toList ++ rest))) indent
  rw [hsplit, hword]
  refine ⟨hkey, hhead, ?_⟩
  apply eventually_of_succ
  filter_upwards [hinner] with fuel hinner
  rw [hread, if_neg htrue, if_neg hfalse, hwrap, hbare]
  simp only [skip?_append, hinner, Option.bind_eq_bind, Option.bind_some, Option.pure_def]

theorem tuple_reads (loc : Location) {a b : Term} (ha : TermReads a) (hb : TermReads b) : OperandReads (.tuple loc a b) := by
  apply operandReads_of_head rfl
  intro indent rest hrest
  have hsplit : (renderAt indent (.tuple loc a b)).toList ++ rest =
      '(' :: ((renderAt indent a).toList ++ (", ".toList ++ ((renderAt indent b).toList ++ (")".toList ++ rest)))) := by
    simp
  have hfirst := (ha indent (", ".toList ++ ((renderAt indent b).toList ++ (")".toList ++ rest))) (by simp [Starts])).2
  have hsecond := (hb indent (")".toList ++ rest) (by simp [Starts])).2
  rw [hsplit]
  refine ⟨word_of_mark rfl (by decide), by simp, ?_⟩
  have hcomma : skip? ")" (", ".toList ++ ((renderAt indent b).toList ++ (")".toList ++ rest))) = none :=
    skip?_head (c := ')') rfl (by simp)
  apply eventually_of_succ
  filter_upwards [hfirst, hsecond] with fuel hfirst hsecond
  rw [readHead]
  simp only [hfirst, hcomma, skip?_append, hsecond, Option.bind_eq_bind, Option.bind_some, Option.pure_def]
  rfl

end Heads

section Calls

theorem more_reads (rest : List Char) {args : List Term} (h : ∀ a ∈ args, TermReads a) (indent : Nat) :
    ∀ᶠ fuel in atTop,
      readMore fuel indent ((args.map (renderAt indent)).flatMap (fun s => ", ".toList ++ s.toList) ++ ')' :: rest) =
        some (args.map bare, rest) := by
  induction args with
  | nil =>
    apply eventually_of_forall_succ
    intro fuel
    rw [readMore, List.map_nil, List.flatMap_nil, List.nil_append, skip?_close]
    rfl
  | cons a args ih =>
    have hargs := ih fun b hb => h b (by simp [hb])
    have hends := ends_listed (args.map (renderAt indent)) rest
    generalize hmore : (args.map (renderAt indent)).flatMap (fun s => ", ".toList ++ s.toList) ++ ')' :: rest = more
      at hargs hends
    have hread := (h a (by simp) indent more hends).2
    have hcomma : skip? ")" (", ".toList ++ ((renderAt indent a).toList ++ more)) = none :=
      skip?_head (c := ')') rfl (by simp)
    apply eventually_of_succ
    filter_upwards [hread, hargs] with fuel hread hargs
    rw [List.map_cons, List.flatMap_cons, List.append_assoc, List.append_assoc, hmore, readMore, hcomma]
    simp only [skip?_append, hread, hargs, Option.bind_eq_bind, Option.bind_some, Option.pure_def, List.map_cons]

theorem arguments_read (rest : List Char) {args : List Term} (h : ∀ a ∈ args, TermReads a) (indent : Nat) :
    ∀ᶠ fuel in atTop, readArguments fuel indent ((", ".intercalate (renderEach indent args)).toList ++ ')' :: rest) =
      some (args.map bare, rest) := by
  rw [renderEach_eq]
  apply eventually_of_succ
  cases args with
  | nil =>
    have hempty : (", ".intercalate (([] : List Term).map (renderAt indent))).toList = [] := by simp
    refine .of_forall fun fuel => ?_
    rw [hempty, List.nil_append, readArguments, skip?_close]
    rfl
  | cons a args =>
    have hargs := more_reads rest (fun b hb => h b (List.mem_cons_of_mem a hb)) indent
    rw [List.map_cons, toList_intercalate_cons, List.append_assoc]
    have hends := ends_listed (args.map (renderAt indent)) rest
    generalize hmore : (args.map (renderAt indent)).flatMap (fun s => ", ".toList ++ s.toList) ++ ')' :: rest = more
      at hargs hends
    obtain ⟨hhead, hread⟩ := h a (by simp) indent more hends
    filter_upwards [hread, hargs] with fuel hread hargs
    rw [readArguments, skip?_head rfl hhead]
    simp only [hread, hargs, Option.bind_eq_bind, Option.bind_some, Option.pure_def, List.map_cons]

theorem call_reads (loc : Location) {callee : Term} {args : List Term} (listed : Bool) (hcallee : OperandReads callee)
    (hargs : ∀ a ∈ args, TermReads a) : OperandReads (.call loc callee args listed) := by
  intro indent rest hrest
  have hsplit : (operandText indent (.call loc callee args listed)).toList ++ rest =
      (operandText indent callee).toList ++ ('(' :: ((", ".intercalate (renderEach indent args)).toList ++ ')' :: rest)) := by
    simp [operandText, parenthesized, isCompound]
  rw [hsplit]
  obtain ⟨hword, hhead, hread⟩ := hcallee indent ('(' :: ((", ".intercalate (renderEach indent args)).toList ++ ')' :: rest))
    (by simp [Starts])
  refine ⟨hword, hhead, fun result hcalls => hread result ?_⟩
  have hopen : skip? "(" ('(' :: ((", ".intercalate (renderEach indent args)).toList ++ ')' :: rest)) =
    some ((", ".intercalate (renderEach indent args)).toList ++ ')' :: rest) := skip?_append "(" _
  rw [bare, bareEach_eq] at hcalls
  apply eventually_of_succ
  filter_upwards [arguments_read rest hargs indent, hcalls] with fuel hread hcalls
  rw [readCalls, hopen]
  simp only [hread, hcalls, Option.bind_eq_bind, Option.bind_some]

end Calls

section Compound

theorem readOperator_symbol {op : Operator} (h : op.isKnown = true) (rest : List Char) :
    readOperator (op.symbol.toList ++ (" ".toList ++ rest)) = some (op, rest) := by
  have hsymbol : ∀ c ∈ op.symbol.toList, decide (c ≠ ' ') = true := by
    cases op with
    | unknown name => cases h
    | _ => simp [Operator.symbol]
  have hfind : operators.find? (fun other => other.symbol = op.symbol) = some op := by
    cases op with
    | unknown name => cases h
    | _ => rfl
  have hblank : ∀ c ∈ (" ".toList ++ rest).head?, decide (c ≠ ' ') = false := by simp
  obtain ⟨htake, hdrop⟩ := takeWhile_span hsymbol hblank
  rw [readOperator, htake, hdrop, String.ofList_toList, hfind]
  simp only [skip?_append, Option.bind_eq_bind, Option.bind_some, Option.pure_def]

theorem binary_reads (loc : Location) {lhs rhs : Term} {op : Operator} (hop : op.isKnown = true)
    (hlhs : OperandReads lhs) (hrhs : OperandReads rhs) : TermReads (.binary loc lhs op rhs) := by
  intro indent rest hrest
  have hsplit : (renderAt indent (.binary loc lhs op rhs)).toList ++ rest = (operandText indent lhs).toList ++
      (" ".toList ++ (op.symbol.toList ++ (" ".toList ++ ((operandText indent rhs).toList ++ rest)))) := by
    simp [operandText]
  have hopen : rest.head? ≠ some '(' := fun hsome => absurd (hrest '(' hsome) (by decide)
  obtain ⟨hword, hhead, hleft⟩ := hlhs indent
    (" ".toList ++ (op.symbol.toList ++ (" ".toList ++ ((operandText indent rhs).toList ++ rest)))) (by simp [Starts])
  have hright := (hrhs indent rest hrest.stops).2.2 _ (readCalls_of_ends hopen indent rhs.bare)
  simp only [List.mem_cons, List.not_mem_nil, or_false, not_or] at hword
  rw [hsplit]
  refine ⟨hhead, ?_⟩
  apply eventually_of_succ
  filter_upwards [hleft _ (readCalls_of_ends (by simp) indent lhs.bare), hright] with fuel hleft hright
  rw [readTerm, if_neg hword.1, if_neg hword.2.1, if_neg hword.2.2, hleft]
  simp only [skip?_append, readOperator_symbol hop, hright, Option.bind_eq_bind, Option.bind_some, Option.pure_def, bare]

theorem word_reserved {w : String} (hw : w ∈ ["let", "fn", "if"]) (rest : List Char) :
    word (w.toList ++ (" ".toList ++ rest)) = w ∧ afterWord (w.toList ++ (" ".toList ++ rest)) = " ".toList ++ rest := by
  have hwords : ∀ w ∈ ["let", "fn", "if"], w.toList.all isNameChar = true := by decide
  exact word_append (hwords w hw) (not_name_mark " " rfl (by decide) rest)

theorem letIn_reads (loc : Location) {name : Parameter} {value next : Term} (hname : isIdentifier name.text = true)
    (hvalue : TermReads value) (hnext : TermReads next) : TermReads (.letIn loc name value next) := by
  intro indent rest hrest
  have hsplit : (renderAt indent (.letIn loc name value next)).toList ++ rest = "let".toList ++ (" ".toList ++
      (name.text.toList ++ (" = ".toList ++ ((renderAt indent value).toList ++
        ((";" ++ lineBreak indent).toList ++ ((renderAt indent next).toList ++ rest)))))) := by
    simp
  have hreadValue := (hvalue indent ((";" ++ lineBreak indent).toList ++ ((renderAt indent next).toList ++ rest))
    (by simp [Starts])).2
  have hreadNext := (hnext indent rest hrest).2
  obtain ⟨hlet, hafterLet⟩ := word_reserved (w := "let") (by decide) (name.text.toList ++ (" = ".toList ++
    ((renderAt indent value).toList ++ ((";" ++ lineBreak indent).toList ++ ((renderAt indent next).toList ++ rest)))))
  obtain ⟨hword, hafter⟩ := isIdentifier_word hname (not_name_mark " = " rfl (by decide)
    ((renderAt indent value).toList ++ ((";" ++ lineBreak indent).toList ++ ((renderAt indent next).toList ++ rest))))
  rw [hsplit]
  refine ⟨by simp, ?_⟩
  apply eventually_of_succ
  filter_upwards [hreadValue, hreadNext] with fuel hreadValue hreadNext
  rw [readTerm, if_pos hlet, hafterLet]
  simp only [skip?_append, hword, hafter, hreadValue, hreadNext, Option.bind_eq_bind, Option.bind_some, Option.pure_def,
    bare, Parameter.bare]

theorem block_reads (h : TermReads t) (indent : Nat) (rest : List Char) :
    ∀ᶠ fuel in atTop,
      readBlock fuel indent ((inBlock indent (renderAt (indent + 1) t)).toList ++ rest) = some (t.bare, rest) := by
  have hsplit : (inBlock indent (renderAt (indent + 1) t)).toList ++ rest = ("\x7b" ++ lineBreak (indent + 1)).toList ++
      ((renderAt (indent + 1) t).toList ++ ((lineBreak indent ++ "\x7d").toList ++ rest)) := by
    simp [inBlock]
  have hread := (h (indent + 1) ((lineBreak indent ++ "\x7d").toList ++ rest) (by simp [Starts, lineBreak])).2
  apply eventually_of_succ
  filter_upwards [hread] with fuel hread
  rw [hsplit, readBlock]
  simp only [skip?_append, hread, Option.bind_eq_bind, Option.bind_some, Option.pure_def]

theorem ite_reads (loc : Location) {c a b : Term} (hc : TermReads c) (ha : TermReads a) (hb : TermReads b) :
    TermReads (.ite loc c a b) := by
  intro indent rest hrest
  have hsplit : (renderAt indent (.ite loc c a b)).toList ++ rest = "if".toList ++ (" ".toList ++ ("(".toList ++
      ((renderAt indent c).toList ++ (") ".toList ++ ((inBlock indent (renderAt (indent + 1) a)).toList ++
        (" else ".toList ++ ((inBlock indent (renderAt (indent + 1) b)).toList ++ rest))))))) := by
    simp
  have hopen (cs : List Char) : skip? " (" (" ".toList ++ ("(".toList ++ cs)) = some cs := skip?_append " (" cs
  have hcondition := (hc indent (") ".toList ++ ((inBlock indent (renderAt (indent + 1) a)).toList ++
    (" else ".toList ++ ((inBlock indent (renderAt (indent + 1) b)).toList ++ rest)))) (by simp [Starts])).2
  have hthen := block_reads ha indent (" else ".toList ++ ((inBlock indent (renderAt (indent + 1) b)).toList ++ rest))
  obtain ⟨hif, hafter⟩ := word_reserved (w := "if") (by decide) ("(".toList ++ ((renderAt indent c).toList ++
    (") ".toList ++ ((inBlock indent (renderAt (indent + 1) a)).toList ++ (" else ".toList ++
      ((inBlock indent (renderAt (indent + 1) b)).toList ++ rest))))))
  rw [hsplit]
  refine ⟨by simp, ?_⟩
  apply eventually_of_succ
  filter_upwards [hcondition, hthen, block_reads hb indent rest] with fuel hcondition hthen helse
  rw [readTerm, if_neg (by rw [hif]; decide), if_neg (by rw [hif]; decide), if_pos hif, hafter]
  simp only [hopen, skip?_append, hcondition, hthen, helse, Option.bind_eq_bind, Option.bind_some, Option.pure_def, bare]

theorem moreNames_read (rest : List Char) {names : List String} (h : ∀ name ∈ names, isIdentifier name = true) :
    ∀ᶠ fuel in atTop,
      readMoreNames fuel (names.flatMap (fun s => ", ".toList ++ s.toList) ++ ')' :: rest) = some (names, rest) := by
  induction names with
  | nil =>
    apply eventually_of_forall_succ
    intro fuel
    rw [readMoreNames, List.flatMap_nil, List.nil_append, skip?_close]
    rfl
  | cons name names ih =>
    have hnames := ih fun other hother => h other (by simp [hother])
    have hends := ends_listed names rest
    generalize hmore : names.flatMap (fun s => ", ".toList ++ s.toList) ++ ')' :: rest = more at hnames hends
    obtain ⟨hword, hafter⟩ := isIdentifier_word (h name (by simp)) fun c hc => (hends.stops.not_name c hc).1
    have hcomma : skip? ")" (", ".toList ++ (name.toList ++ more)) = none := skip?_head (c := ')') rfl (by simp)
    apply eventually_of_succ
    filter_upwards [hnames] with fuel hnames
    rw [List.flatMap_cons, List.append_assoc, List.append_assoc, hmore, readMoreNames, hcomma]
    simp only [skip?_append, hword, hafter, hnames, Option.bind_eq_bind, Option.bind_some, Option.pure_def]

theorem names_read (rest : List Char) {names : List String} (h : ∀ name ∈ names, isIdentifier name = true) :
    ∀ᶠ fuel in atTop, readNames fuel ((", ".intercalate names).toList ++ ')' :: rest) = some (names, rest) := by
  cases names with
  | nil =>
    have hempty : (", ".intercalate []).toList = [] := by simp
    refine .of_forall fun fuel => ?_
    rw [hempty, List.nil_append, readNames, skip?_close]
    rfl
  | cons name names =>
    have hnames := moreNames_read rest fun other hother => h other (List.mem_cons_of_mem name hother)
    rw [toList_intercalate_cons, List.append_assoc]
    have hends := ends_listed names rest
    generalize hmore : names.flatMap (fun s => ", ".toList ++ s.toList) ++ ')' :: rest = more at hnames hends
    have hnot : ∀ c ∈ more.head?, isNameChar c = false := fun c hc => (hends.stops.not_name c hc).1
    obtain ⟨hword, hafter⟩ := isIdentifier_word (h name (by simp)) hnot
    have hisWord : isWord name = true := by
      have hname := h name (by simp)
      simp only [isIdentifier, Bool.and_eq_true] at hname
      exact hname.1
    have hclose : skip? ")" (name.toList ++ more) = none := skip?_head (c := ')') rfl (readHead_isWord hisWord hnot 0).2.2.1
    filter_upwards [hnames] with fuel hnames
    rw [readNames, hclose, hword, hafter]
    simp only [hnames, Option.bind_eq_bind, Option.bind_some, Option.pure_def]

theorem function_reads (loc : Location) {params : List Parameter} {body : Term}
    (hparams : ∀ p ∈ params, isIdentifier p.text = true) (hbody : TermReads body) :
    TermReads (.function loc params body) := by
  intro indent rest hrest
  have hsplit : (renderAt indent (.function loc params body)).toList ++ rest = "fn".toList ++ (" ".toList ++
      ("(".toList ++ ((", ".intercalate (params.map Parameter.text)).toList ++ ')' :: (" => ".toList ++
        ((inBlock indent (renderAt (indent + 1) body)).toList ++ rest))))) := by
    simp
  have hopen (cs : List Char) : skip? " (" (" ".toList ++ ("(".toList ++ cs)) = some cs := skip?_append " (" cs
  have hnames : ∀ name ∈ params.map Parameter.text, isIdentifier name = true := by simpa using hparams
  obtain ⟨hfn, hafter⟩ := word_reserved (w := "fn") (by decide) ("(".toList ++
    ((", ".intercalate (params.map Parameter.text)).toList ++ ')' :: (" => ".toList ++
      ((inBlock indent (renderAt (indent + 1) body)).toList ++ rest))))
  have hbare : (params.map Parameter.text).map (fun name => (⟨name, .unknown⟩ : Parameter)) = params.map Parameter.bare := by
    rw [List.map_map]
    rfl
  rw [hsplit]
  refine ⟨by simp, ?_⟩
  apply eventually_of_succ
  filter_upwards [names_read (" => ".toList ++ ((inBlock indent (renderAt (indent + 1) body)).toList ++ rest)) hnames,
    block_reads hbody indent rest] with fuel hnames hbody
  rw [readTerm, if_neg (by rw [hfn]; decide), if_pos hfn, hafter]
  simp only [hopen, hnames, skip?_append, hbody, hbare, Option.bind_eq_bind, Option.bind_some, Option.pure_def, bare]

end Compound

/-- The source text of a plain term is read as that term, as an operand and by itself. -/
theorem reads (h : t.Plain) : OperandReads t ∧ TermReads t := by
  induction t using Term.partsInduction with
  | h t ih =>
    obtain ⟨hself, hparts⟩ := plain_iff.mp h
    have hoperand (part : Term) (hpart : part ∈ t.parts) : OperandReads part := (ih part hpart (hparts part hpart)).1
    have hterm (part : Term) (hpart : part ∈ t.parts) : TermReads part := (ih part hpart (hparts part hpart)).2
    have compound (hcompound : t.isCompound = true) (hreads : TermReads t) : OperandReads t ∧ TermReads t :=
      ⟨operandReads_of_compound hcompound hreads, hreads⟩
    have simple (hsimple : t.isCompound = false) (hreads : OperandReads t) : OperandReads t ∧ TermReads t :=
      ⟨hreads, termReads_of_operandReads hsimple hreads⟩
    cases t with
    | absent => cases hself
    | error loc message fullText => cases hself
    | int loc n => exact simple rfl (int_reads loc n)
    | str loc s => exact simple rfl (str_reads loc s)
    | bool loc b => exact simple rfl (bool_reads loc b)
    | var loc text => exact simple rfl (var_reads loc hself)
    | binary loc lhs op rhs =>
      exact compound rfl (binary_reads loc hself (hoperand lhs (by simp [parts])) (hoperand rhs (by simp [parts])))
    | letIn loc name value next =>
      exact compound rfl (letIn_reads loc hself (hterm value (by simp [parts])) (hterm next (by simp [parts])))
    | function loc params body =>
      exact compound rfl (function_reads loc (List.all_eq_true.mp hself) (hterm body (by simp [parts])))
    | call loc callee args listed =>
      exact simple rfl (call_reads loc listed (hoperand callee (by simp [parts])) fun a ha => hterm a (by simp [parts, ha]))
    | ite loc c a b =>
      exact compound rfl
        (ite_reads loc (hterm c (by simp [parts])) (hterm a (by simp [parts])) (hterm b (by simp [parts])))
    | tuple loc a b => exact simple rfl (tuple_reads loc (hterm a (by simp [parts])) (hterm b (by simp [parts])))
    | first loc v =>
      exact simple rfl (wrapper_reads (w := "first") (by decide) rfl rfl (fun _ => rfl) rfl (hterm v (by simp [parts])))
    | second loc v =>
      exact simple rfl (wrapper_reads (w := "second") (by decide) rfl rfl (fun _ => rfl) rfl (hterm v (by simp [parts])))
    | print loc v =>
      exact simple rfl (wrapper_reads (w := "print") (by decide) rfl rfl (fun _ => rfl) rfl (hterm v (by simp [parts])))

theorem readTerm_render (h : t.Plain) : ∀ᶠ fuel in atTop, readTerm fuel 0 t.render.toList = some (t.bare, []) := by
  have hread := ((reads h).2 0 [] (by simp [Starts])).2
  rwa [List.append_nil] at hread

end RoundTrip

end SourceText

/-- Plain terms with the same source text are the same up to locations, and to whether empty arguments are listed. -/
theorem Term.bare_eq_of_render_eq {t u : Term} (ht : t.Plain) (hu : u.Plain) (h : t.render = u.render) :
    t.bare = u.bare := by
  obtain ⟨fuel, hreadt, hreadu⟩ := ((SourceText.readTerm_render ht).and (SourceText.readTerm_render hu)).exists
  rw [h, hreadu] at hreadt
  exact (Prod.mk.inj (Option.some.inj hreadt)).1.symm

def Term.sampleAt (loc : Location) (listed : Bool) : Term :=
  .call loc (.call loc (.function loc [⟨"x", loc⟩] (.binary loc (.var loc "x") .sub (.int loc (-1))))
    [.tuple loc (.str loc ⟨#[0x22, 0xff, 0xc3, 0xa9]⟩) (.first loc (.var loc "y"))] true) [] listed

theorem Term.bare_eq_of_render_eq_unlisted :
    (sampleAt .unknown false).render =
      "(fn (x) => \x7b\n  x - -1\n\x7d)((\"\\\"\\xffé\", first(y)))()" ∧
    (sampleAt ⟨1, 2, "f"⟩ true).render = (sampleAt .unknown false).render ∧
    (sampleAt ⟨1, 2, "f"⟩ true).bare = (sampleAt .unknown false).bare := by
  have htext : (sampleAt ⟨1, 2, "f"⟩ true).render = (sampleAt .unknown false).render := by rfl
  exact ⟨by decide +kernel, htext, Term.bare_eq_of_render_eq (by decide +kernel) (by decide +kernel) htext⟩

end TreeWalk
