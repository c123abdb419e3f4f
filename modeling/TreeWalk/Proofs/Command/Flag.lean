import TreeWalk.Command.Basic
import TreeWalk.Proofs.Syntax.Reading

/-!
# What flags are read as

The flags that are read from a command line are flags of the command, each with a value that it takes.
-/

namespace TreeWalk

def Flag.Takes (flag : Flag) (value : String) : Prop :=
  match flag.kind with
  | .text => True
  | .number => ∃ n, Text.readMarkedInt64 value = .ok n
  | .switch => ∃ b, Text.readBool? value = some b

/-- All flags are known ones with values that they take. -/
def Parsed.Sound (flags : List Flag) (p : Parsed) : Prop :=
  ∀ name value, (name, value) ∈ p.values → ∃ flag ∈ flags, flag.name = name ∧ flag.Takes value

section Reading

variable {flags : List Flag} {flag : Flag} {value : String} {p p' : Parsed}

theorem Parsed.Sound.set (h : p.Sound flags) (hflag : flag ∈ flags) (hset : p.set flag value = .ok p') :
    p'.Sound flags := by
  have htakes : flag.Takes value ∧ p'.values = (flag.name, value) :: p.values := by
    unfold Parsed.set at hset
    unfold Flag.Takes
    cases hkind : flag.kind with
    | text =>
      simp only [hkind] at hset
      simp [← Except.ok.inj hset]
    | number =>
      simp only [hkind] at hset
      cases hread : Text.readMarkedInt64 value with
      | error cause => simp [hread] at hset
      | ok n =>
        simp only [hread] at hset
        simp [← Except.ok.inj hset]
    | switch =>
      simp only [hkind] at hset
      by_cases hread : (Text.readBool? value).isSome = true
      · rw [if_pos hread] at hset
        simp [← Except.ok.inj hset, Option.isSome_iff_exists.mp hread]
      · simp [hread] at hset
  intro name other hmem
  rw [htakes.2, List.mem_cons] at hmem
  rcases hmem with heq | hmem
  · obtain ⟨rfl, rfl⟩ := Prod.mk.inj heq
    exact ⟨flag, hflag, rfl, htakes.1⟩
  · exact h name other hmem

def ShortWord.Sound (flags : List Flag) : ShortWord → Prop
  | .done p => p.Sound flags
  | .waits p flag _ _ => p.Sound flags ∧ flag ∈ flags

theorem readShort_sound {cs : List Char} {word : ShortWord} (h : p.Sound flags)
    (hread : readShort flags cs p = .ok word) : word.Sound flags := by
  induction cs generalizing p with
  | nil => exact Except.ok.inj hread ▸ h
  | cons c rest ih =>
    have hdone (flag : Flag) (value : String) (hflag : flag ∈ flags)
        (hset : (p.set flag value).map ShortWord.done = .ok word) : word.Sound flags := by
      cases hp : p.set flag value with
      | error e => simp [hp, Except.map] at hset
      | ok q =>
        rw [hp] at hset
        exact Except.ok.inj hset ▸ h.set hflag hp
    unfold readShort at hread
    dsimp only at hread
    by_cases htest : "test.".isPrefixOf (String.ofList (c :: rest)) = true
    · rw [if_pos htest] at hread
      exact Except.ok.inj hread ▸ h
    · rw [if_neg htest] at hread
      cases hfind : flags.find? (·.short = some c) with
      | none => simp [hfind] at hread
      | some flag =>
        have hflag := List.mem_of_find?_eq_some hfind
        simp only [hfind] at hread
        split at hread
        · exact hdone flag _ hflag hread
        · by_cases hswitch : flag.kind = .switch
          · rw [if_pos hswitch] at hread
            obtain ⟨q, hset, hrest⟩ := bind_eq_ok.mp hread
            exact ih (h.set hflag hset) hrest
          · rw [if_neg hswitch] at hread
            by_cases hempty : rest.isEmpty = true
            · rw [if_pos hempty] at hread
              exact Except.ok.inj hread ▸ ⟨h, hflag⟩
            · rw [if_neg hempty] at hread
              exact hdone flag _ hflag hread

theorem readFlags_sound {words : List String} (h : p.Sound flags) (hread : readFlags flags words p = .ok p') :
    p'.Sound flags := by
  -- a flag may take the word after it, so the induction is on the number of words
  induction hlength : words.length using Nat.strongRecOn generalizing words p with
  | ind n ih =>
  cases words with
  | nil => exact Except.ok.inj hread ▸ h
  | cons word words =>
    rw [List.length_cons] at hlength
    have hrest {q : Parsed} (hq : q.Sound flags) (hread : readFlags flags words q = .ok p') : p'.Sound flags :=
      ih words.length (by omega) hq hread rfl
    have hwaiting {q : Parsed} {flag : Flag} {value : String} {more : List String} (hq : q.Sound flags)
        (hflag : flag ∈ flags) (hwords : words = value :: more)
        (hread : (q.set flag value >>= fun q' => readFlags flags more q') = .ok p') : p'.Sound flags := by
      obtain ⟨q', hset, hread⟩ := bind_eq_ok.mp hread
      rw [hwords, List.length_cons] at hlength
      exact ih more.length (by omega) (hq.set hflag hset) hread rfl
    unfold readFlags at hread
    split at hread
    · exact Except.ok.inj hread ▸ h
    · next body _ _ =>
      split at hread
      · cases hread
      · dsimp only at hread
        cases hfind : flags.find? (·.name = (splitEquals body).1) with
        | none => simp [hfind] at hread
        | some flag =>
          have hflag := List.mem_of_find?_eq_some hfind
          simp only [hfind] at hread
          split at hread
          · obtain ⟨q, hset, hread⟩ := bind_eq_ok.mp hread
            exact hrest (h.set hflag hset) hread
          · split at hread
            · obtain ⟨q, hset, hread⟩ := bind_eq_ok.mp hread
              exact hrest (h.set hflag hset) hread
            · cases words with
              | nil => cases hread
              | cons value more => exact hwaiting h hflag rfl hread
    · obtain ⟨left, hshort, hread⟩ := bind_eq_ok.mp hread
      have hleft := readShort_sound h hshort
      cases left with
      | done q => exact hrest hleft hread
      | waits q flag c cluster =>
        cases words with
        | nil => cases hread
        | cons value more => exact hwaiting hleft.1 hleft.2 rfl hread
    · exact hrest (q := p.addArg word) h hread

end Reading

theorem Parsed.sound_empty {flags : List Flag} : Parsed.empty.Sound flags := nofun

namespace Command

variable {command : Command} {flags : Parsed} {text : String}

theorem exists_takes (h : flags.Sound command.flags) {name : String} (hgiven : flags.value? name = some text) :
    ∃ flag ∈ command.flags, flag.name = name ∧ flag.Takes text := by
  obtain ⟨before, after, hvalues, -⟩ := List.lookup_eq_some_iff.mp hgiven
  exact h name text (by simp [hvalues])

theorem readMarkedInt64_of_given (h : flags.Sound command.flags)
    (hgiven : flags.value? "max-depth" = some text) : ∃ n, Text.readMarkedInt64 text = .ok n := by
  obtain ⟨flag, hflag, hname, htakes⟩ := exists_takes h hgiven
  have hkind : ∀ flag ∈ command.flags, flag.name = "max-depth" → flag.kind = .number := by cases command <;> decide
  rwa [Flag.Takes, hkind flag hflag hname] at htakes

theorem readBool?_of_given (h : flags.Sound command.flags)
    (hgiven : flags.value? "color" = some text) : ∃ b, Text.readBool? text = some b := by
  obtain ⟨flag, hflag, hname, htakes⟩ := exists_takes h hgiven
  have hkind : ∀ flag ∈ command.flags, flag.name = "color" → flag.kind = .switch := by cases command <;> decide
  rwa [Flag.Takes, hkind flag hflag hname] at htakes

end Command

end TreeWalk
