import TreeWalk.Fixture.Run
import TreeWalk.Proofs.Eval.CutShort
import TreeWalk.Proofs.Text.Utf8

/-!
# The verdict on a fixture

All that a program prints are lines, so that its output can be taken apart at the line feeds and put together again. A
fixture passes if these lines and the way the program ended are what the manifest expects, and only then.
-/

namespace TreeWalk

namespace Fixture

section Lines

/-- Lines put together, each with a line feed at its end. -/
def unlines (ls : List ByteArray) : ByteArray := (ls.map (· ++ "\n".toUTF8)).foldl (· ++ ·) ByteArray.empty

theorem toList_foldl_append (first : ByteArray) (pieces : List ByteArray) :
    (pieces.foldl (· ++ ·) first).data.toList = first.data.toList ++ pieces.flatMap (·.data.toList) := by
  induction pieces generalizing first with
  | nil => simp
  | cons piece pieces ih => rw [List.foldl_cons, ih]; simp

theorem toList_unlines (ls : List ByteArray) :
    (unlines ls).data.toList = ls.flatMap fun line => line.data.toList ++ [10] := by
  have hfeed (line : ByteArray) : (line ++ "\n".toUTF8).data.toList = line.data.toList ++ [10] := by
    rw [ByteArray.data_append, Array.toList_append]
    rfl
  rw [unlines, toList_foldl_append, List.flatMap_map]
  simp only [hfeed]
  rfl

theorem splitAtFeeds_cons (b : UInt8) (bytes : List UInt8) :
    splitAtFeeds (b :: bytes) = addByte b (splitAtFeeds bytes) := rfl

theorem exists_splitAtFeeds (bytes : List UInt8) : ∃ line rest, splitAtFeeds bytes = line :: rest := by
  induction bytes with
  | nil => exact ⟨[], [], rfl⟩
  | cons b bytes ih =>
    obtain ⟨line, rest, hsplit⟩ := ih
    rw [splitAtFeeds_cons, hsplit, addByte]
    split
    · exact ⟨_, _, rfl⟩
    · exact ⟨_, _, rfl⟩

theorem splitAtFeeds_line {line : List UInt8} (h : 10 ∉ line) (bytes : List UInt8) :
    splitAtFeeds (line ++ 10 :: bytes) = line :: splitAtFeeds bytes := by
  induction line with
  | nil =>
    obtain ⟨first, rest, hsplit⟩ := exists_splitAtFeeds bytes
    rw [List.nil_append, splitAtFeeds_cons, hsplit, addByte, if_pos rfl]
  | cons b line ih =>
    have hb : b ≠ 10 := fun heq => h (by simp [heq])
    rw [List.cons_append, splitAtFeeds_cons, ih fun hmem => h (by simp [hmem]), addByte, if_neg hb]

theorem splitAtFeeds_concat (bytes : List UInt8) : splitAtFeeds (bytes ++ [10]) = splitAtFeeds bytes ++ [[]] := by
  induction bytes with
  | nil => rfl
  | cons b bytes ih =>
    obtain ⟨line, rest, hsplit⟩ := exists_splitAtFeeds bytes
    rw [List.cons_append, splitAtFeeds_cons, ih, splitAtFeeds_cons, hsplit, List.cons_append, addByte, addByte]
    split
    · rfl
    · rfl

theorem not_mem_of_mem_splitAtFeeds {bytes line : List UInt8} (h : line ∈ splitAtFeeds bytes) : 10 ∉ line := by
  induction bytes generalizing line with
  | nil => simp [List.mem_singleton.mp h]
  | cons b bytes ih =>
    obtain ⟨first, rest, hsplit⟩ := exists_splitAtFeeds bytes
    rw [splitAtFeeds_cons, hsplit, addByte] at h
    rw [hsplit] at ih
    split at h
    · rcases List.mem_cons.mp h with rfl | h
      · simp
      · exact ih h
    · next hb =>
      rcases List.mem_cons.mp h with rfl | h
      · simp [Ne.symm hb, ih List.mem_cons_self]
      · exact ih (List.mem_cons_of_mem first h)

theorem flatMap_splitAtFeeds (bytes : List UInt8) : ((splitAtFeeds bytes).flatMap (· ++ [10])) = bytes ++ [10] := by
  induction bytes with
  | nil => rfl
  | cons b bytes ih =>
    obtain ⟨line, rest, hsplit⟩ := exists_splitAtFeeds bytes
    rw [hsplit, List.flatMap_cons] at ih
    rw [splitAtFeeds_cons, hsplit, addByte]
    split
    · next hb =>
      rw [List.flatMap_cons, List.flatMap_cons, ih, hb]
      rfl
    · rw [List.flatMap_cons, List.cons_append, List.cons_append, ih, List.cons_append]

theorem splitAtFeeds_flatMap {ls : List (List UInt8)} (h : ∀ line ∈ ls, 10 ∉ line) :
    splitAtFeeds (ls.flatMap (· ++ [10])) = ls ++ [[]] := by
  induction ls with
  | nil => rfl
  | cons line ls ih =>
    have hrest := ih fun other hother => h other (by simp [hother])
    rw [List.flatMap_cons, List.append_assoc, List.singleton_append, splitAtFeeds_line (h line (by simp)), hrest,
      List.cons_append]

theorem lines_of_concat {text : ByteArray} {body : List UInt8} (h : text.data.toList = body ++ [10]) :
    lines text = (splitAtFeeds body).map List.toByteArray := by
  unfold lines
  simp [h]

theorem lines_of_nil {text : ByteArray} (h : text.data.toList = []) : lines text = [] := by
  unfold lines
  simp [h]

/-- The text is empty or ends in a line feed. -/
def Ended (text : ByteArray) : Prop := text.data.toList = [] ∨ text.data.toList.getLast? = some 10

theorem Ended.cases {text : ByteArray} (h : Ended text) :
    text.data.toList = [] ∨ ∃ body, text.data.toList = body ++ [10] := by
  rcases h with h | h
  · exact .inl h
  · obtain ⟨body, hbody⟩ := List.getLast?_eq_some_iff.mp h
    exact .inr ⟨body, hbody⟩

theorem ended_unlines (ls : List ByteArray) : Ended (unlines ls) := by
  rcases List.eq_nil_or_concat ls with rfl | ⟨before, line, rfl⟩
  · exact .inl rfl
  · right
    rw [toList_unlines, List.concat_eq_append, List.flatMap_append]
    simp

theorem toList_injective {a b : ByteArray} (h : a.data.toList = b.data.toList) : a = b :=
  ByteArray.ext (Array.toList_inj.mp h)

/-- The lines of a text that is ended are the only lines without line feeds that make it up. -/
theorem Ended.eq_lines_iff {text : ByteArray} (h : Ended text) (ls : List ByteArray) :
    (∀ line ∈ ls, 10 ∉ line.data.toList) ∧ unlines ls = text ↔ ls = lines text := by
  constructor
  · rintro ⟨hfree, rfl⟩
    have hsplit : splitAtFeeds (unlines ls).data.toList = ls.map (·.data.toList) ++ [[]] := by
      rw [toList_unlines, ← splitAtFeeds_flatMap (by simpa using hfree), List.flatMap_map]
    have hback : (ls.map (·.data.toList)).map List.toByteArray = ls := by
      rw [List.map_map]
      exact List.map_id'' (fun line => toList_injective (by simp)) ls
    rcases h.cases with hnil | ⟨body, hbody⟩
    · rw [hnil] at hsplit
      have hempty : ls = [] := by simpa [splitAtFeeds] using hsplit
      rw [lines_of_nil hnil, hempty]
    · rw [hbody, splitAtFeeds_concat] at hsplit
      rw [lines_of_concat hbody, List.append_cancel_right hsplit, hback]
  · rintro rfl
    rcases h.cases with hnil | ⟨body, hbody⟩
    · rw [lines_of_nil hnil]
      exact ⟨by simp, toList_injective (by rw [hnil]; rfl)⟩
    · rw [lines_of_concat hbody]
      constructor
      · intro line hline
        obtain ⟨bytes, hbytes, rfl⟩ := List.mem_map.mp hline
        rw [List.toList_data_toByteArray]
        exact not_mem_of_mem_splitAtFeeds hbytes
      · apply toList_injective
        rw [toList_unlines, hbody, ← flatMap_splitAtFeeds, List.flatMap_map]
        simp only [List.toList_data_toByteArray]

/-- The text is put together from the writes, in their order, and each of these is a value with a line feed at its
end. -/
structure Printed (output : Output) (values : List Value) : Prop where
  writes : output.writes.reverse = values.map fun v => v.format ++ "\n".toUTF8
  text : output.text = unlines (values.map Value.format)

theorem exists_printed (depth : Int) (p : Program) :
    ∃ values, Printed ((Interpreter.new .unlimited depth).run p).2.machine.output values := by
  by_cases habsent : p.expression.isAbsent
  · rw [Interpreter.run_absent habsent]
    exact ⟨[], rfl, rfl⟩
  · obtain ⟨attempts, hwrites, -⟩ := ((Interpreter.new .unlimited depth).fresh.point p.expression
      (Interpreter.new .unlimited depth).fresh.global).exists_writes rfl
    have hwritten : ((Interpreter.new .unlimited depth).run p).2.machine.output.writes.reverse =
        attempts.map Attempt.line := by
      rw [Interpreter.run_present habsent]
      dsimp only
      rw [hwrites.written, List.reverse_append, List.reverse_reverse]
      rfl
    refine ⟨attempts.map Attempt.value, ?_, ?_⟩
    · rw [hwritten, List.map_map]
      rfl
    · rw [Output.text, hwritten, unlines, List.map_map, List.map_map]
      rfl

end Lines

section Verdict

/-- A datum that is not null stands for a value: a number by its digits, a truth value by itself, and all else by the text
that is printed. -/
def Matches (want : Yaml.Datum) : Value → Prop
  | .int n => want.display = (toString n.toInt).toUTF8
  | .bool b => want = .bool b
  | got => want.display = got.format

/-- An outcome is the expected one. -/
inductive Meets (expect : Expectation) : Outcome → Prop
  | fault {fault : Fault} (hset : expect.error ≠ "") (hkind : fault.kind.name = expect.error) :
    Meets expect (.error (.fault fault))
  | value {v : Value} (hunset : expect.error = "")
    (hresult : ∀ want ∈ expect.result, (∃ kind, v.kind? = some kind ∧ kind.name = want.kind) ∧
      (want.value ≠ .null → Matches want.value v)) :
    Meets expect (.ok v)

theorem isExpected_iff (want : Yaml.Datum) (got : Value) : isExpected want got = true ↔ Matches want got := by
  cases got with
  | bool b =>
    cases want with
    | bool wanted => simp [isExpected, Matches, eq_comm]
    | _ => simp [isExpected, Matches]
  | absent => exact Text.sameBytes_iff
  | int n => exact Text.sameBytes_iff
  | str s => exact Text.sameBytes_iff
  | pair a b => exact Text.sameBytes_iff
  | closure c => exact Text.sameBytes_iff

theorem checkValue_eq_nil_iff (want : ExpectedResult) (got : Value) :
    checkValue want got = [] ↔ (∃ kind, got.kind? = some kind ∧ kind.name = want.kind) ∧
      (want.value ≠ .null → Matches want.value got) := by
  unfold checkValue
  cases hkind : got.kind? with
  | none => simp
  | some kind =>
    by_cases hname : kind.name = want.kind
    · simp only [hname, ne_eq, not_true_eq_false, if_false]
      split
      · next hnull => simp [hnull, hname]
      · next hvalue =>
        have hnull : want.value ≠ .null := fun heq => hvalue heq
        simp [← isExpected_iff, hnull, hname]
    · simp [hname]

theorem name_of_ofName? {name : String} {kind : FaultKind} (h : FaultKind.ofName? name = some kind) : kind.name = name := by
  simpa using List.find?_some h

theorem checkFault_eq_nil_iff {want : FaultKind} {outcome : Outcome} :
    checkFault want outcome = [] ↔ ∃ fault, outcome = .error (.fault fault) ∧ fault.kind = want := by
  cases outcome with
  | ok v => simp [checkFault]
  | error failure =>
    cases failure with
    | fault fault => simp [checkFault]
    | _ => simp [checkFault]

theorem name_injective {a b : FaultKind} (h : a.name = b.name) : a = b := by
  revert h
  cases a <;> cases b <;> decide

theorem known_of_load {read : ByteArray → Except Yaml.Misread Manifest} {f : Files} {dir : String} {m : Manifest}
    (h : Manifest.loadBy read f dir = .ok m) :
    m.expect.error = "" ∨ ∃ kind, FaultKind.ofName? m.expect.error = some kind := by
  have hissue : m.issue? = none := by
    unfold Manifest.loadBy at h
    dsimp only at h
    split at h
    · split at h
      · rw [← Except.ok.inj h]
        rfl
      · cases h
    · cases h
    · split at h
      · cases h
      · split at h
        · cases h
        · next hissue => rwa [← Except.ok.inj h]
  by_contra hunknown
  obtain ⟨hset, hnone⟩ := not_or.mp hunknown
  have hnone' : FaultKind.ofName? m.expect.error = none := by
    cases hkind : FaultKind.ofName? m.expect.error with
    | none => rfl
    | some kind => exact absurd ⟨kind, hkind⟩ hnone
  unfold Manifest.issue? at hissue
  simp [hset, hnone'] at hissue

theorem checkOutcome_eq_nil_iff {expect : Expectation} {outcome : Outcome}
    (hknown : expect.error = "" ∨ ∃ kind, FaultKind.ofName? expect.error = some kind) :
    checkOutcome expect outcome = [] ↔ Meets expect outcome := by
  unfold checkOutcome
  rcases hknown with hunset | ⟨want, hwant⟩
  · have hnone : FaultKind.ofName? expect.error = none := by
      rw [hunset]
      decide
    rw [hnone]
    dsimp only
    cases outcome with
    | error failure =>
      constructor
      · intro h
        cases h
      · rintro ⟨hset, -⟩
        exact absurd hunset hset
    | ok v =>
      cases hresult : expect.result with
      | none => exact ⟨fun _ => .value hunset (by simp [hresult]), fun _ => rfl⟩
      | some want =>
        dsimp only
        rw [checkValue_eq_nil_iff]
        constructor
        · intro h
          exact .value hunset (by simpa [hresult] using h)
        · rintro ⟨⟩
          next h => simpa [hresult] using h
  · have hname := name_of_ofName? hwant
    have hset : expect.error ≠ "" := by
      rw [← hname]
      cases want <;> decide
    rw [hwant]
    dsimp only
    rw [checkFault_eq_nil_iff]
    constructor
    · rintro ⟨fault, rfl, rfl⟩
      exact .fault hset hname
    · intro h
      cases h with
      | fault _ hkind => exact ⟨_, rfl, name_injective (hkind.trans hname.symm)⟩
      | value hunset => exact absurd hunset hset

theorem checkOutcome_cases (expect : Expectation) (outcome : Outcome) :
    checkOutcome expect outcome = [] ∨ ∃ other, other ≠ .output ∧ checkOutcome expect outcome = [other] := by
  unfold checkOutcome checkFault checkValue
  repeat' split
  all_goals first | exact .inl rfl | exact .inr ⟨_, by simp, rfl⟩

theorem sameLines_iff {a b : List ByteArray} : sameLines a b = true ↔ a = b := by
  rw [sameLines, decide_eq_true_eq]
  exact (List.map_injective_iff.mpr fun _ _ => ByteArray.ext).eq_iff

/-- What is said of a fixture whose run printed and ended like this. -/
structure Verdict (expect : Expectation) (text : ByteArray) (outcome : Outcome) (r : FixtureResult) : Prop where
  run : r.skipped = false
  ended : Ended text
  /-- The lines are the only ones without line feeds that make up the text. -/
  lines_unique : ∀ ls, (∀ line ∈ ls, 10 ∉ line.data.toList) ∧ unlines ls = text ↔ ls = lines text
  stdout : r.stdout = lines text
  /-- The fixture passes just if the lines and the outcome are the expected ones. -/
  passes : r.mismatches = [] ↔ expect.stdout = lines text ∧ Meets expect outcome
  /-- If both are wrong, both are reported. -/
  both : expect.stdout ≠ lines text → ¬Meets expect outcome → ∃ other, other ≠ .output ∧ r.mismatches = [.output, other]

theorem check_verdict {expect : Expectation} {text : ByteArray} {outcome : Outcome} {r : FixtureResult}
    (hknown : expect.error = "" ∨ ∃ kind, FaultKind.ofName? expect.error = some kind) (hended : Ended text)
    (hrun : r.skipped = false) (hstdout : r.stdout = lines text)
    (hmismatches : r.mismatches = check expect (lines text) outcome) : Verdict expect text outcome r := by
  refine ⟨hrun, hended, hended.eq_lines_iff, hstdout, ?_, fun hlines houtcome => ?_⟩
  · rw [hmismatches, check, List.append_eq_nil_iff, checkOutcome_eq_nil_iff hknown, ← sameLines_iff]
    simp
  · rw [← checkOutcome_eq_nil_iff hknown] at houtcome
    obtain ⟨other, hother, hcheck⟩ := (checkOutcome_cases expect outcome).resolve_left houtcome
    refine ⟨other, hother, ?_⟩
    rw [hmismatches, check, if_neg (by rwa [sameLines_iff]), hcheck]
    rfl

variable {read : ByteArray → Except Yaml.Misread Manifest} {f : Files} {dir : String} {m : Manifest} {p : Program}

/-- A fixture that is not skipped passes just if its program prints the lines and ends the way that its manifest
expects, where what it prints is all that the run wrote. It does not matter how the manifest is read. -/
theorem run_verdict (hm : Manifest.loadBy read f dir = .ok m) (hskip : m.skip = false)
    (hp : Program.load f (Path.join [dir, m.entry]) = .ok p) (depth : Int) :
    ∃ r values, (Fixture.runBy read f depth dir).1 = .ok r ∧
      Printed ((Interpreter.new .unlimited depth).run p).2.machine.output values ∧
      Verdict m.expect ((Interpreter.new .unlimited depth).run p).2.machine.output.text
        ((Interpreter.new .unlimited depth).run p).1 r := by
  obtain ⟨values, hprinted⟩ := exists_printed depth p
  have hended : Ended ((Interpreter.new .unlimited depth).run p).2.machine.output.text := by
    rw [hprinted.text]
    exact ended_unlines _
  unfold Fixture.runBy
  rw [hm]
  dsimp only
  rw [if_neg (by simp [hskip]), hp]
  exact ⟨_, values, rfl, hprinted, check_verdict (known_of_load hm) hended rfl rfl rfl⟩

theorem eq_ok_of_toOption {ε α : Type} {x : Except ε α} {a : α} (h : x.toOption = some a) : x = .ok a := by
  cases x with
  | error e => cases h
  | ok b => exact congrArg Except.ok (Option.some.inj h)

def printsOne (manifest : String) : Files :=
  let program := "\x7b\"expression\":\x7b\"kind\":\"Print\",\"value\":\x7b\"kind\":\"Int\",\"value\":1\x7d\x7d\x7d"
  ⟨.directory [("manifest.yml", .file manifest.toUTF8), ("program.json", .file program.toUTF8)], []⟩

def wrongTwice : Files := printsOne "expect:\n  stdout: [\"2\"]\n  error: DivisionByZero\n"

def allRight : Files := printsOne "expect:\n  stdout: [\"1\"]\n  result:\n    kind: integer\n    value: 1\n"

/-- Of two fixtures, one fails for its lines and for its outcome, the other passes. -/
theorem run_verdict_printsOne :
    (∃ r, (Fixture.run wrongTwice 5 "/").1 = .ok r ∧ ∃ other, other ≠ .output ∧ r.mismatches = [.output, other]) ∧
    ∃ r, (Fixture.run allRight 5 "/").1 = .ok r ∧ r.mismatches = [] := by
  constructor
  · have hmanifest : (Manifest.load wrongTwice "/").toOption.map (fun m =>
        (m.skip, Path.join ["/", m.entry], m.expect.stdout.map (·.data.toList), m.expect.error)) =
          some (false, "/program.json", [[50]], "DivisionByZero") := by
      decide +kernel
    have hprogram : (Program.load wrongTwice "/program.json").toOption.map (fun p =>
        ((lines ((Interpreter.new .unlimited 5).run p).2.machine.output.text).map (·.data.toList),
          ((Interpreter.new .unlimited 5).run p).1.isOk)) = some ([[49]], true) := by
      decide +kernel
    obtain ⟨m, hm, hmanifest⟩ := Option.map_eq_some_iff.mp hmanifest
    obtain ⟨p, hp, hprogram⟩ := Option.map_eq_some_iff.mp hprogram
    simp only [Prod.mk.injEq] at hmanifest hprogram
    obtain ⟨hskip, hentry, hstdout, herror⟩ := hmanifest
    obtain ⟨hlines, hok⟩ := hprogram
    rw [← hentry] at hp
    obtain ⟨r, -, hr, -, hverdict⟩ := run_verdict (eq_ok_of_toOption hm) hskip (eq_ok_of_toOption hp) 5
    refine ⟨r, hr, hverdict.both ?_ ?_⟩
    · intro heq
      rw [heq, hlines] at hstdout
      exact absurd hstdout (by decide)
    · cases houtcome : ((Interpreter.new .unlimited 5).run p).1 with
      | error failure =>
        rw [houtcome] at hok
        cases hok
      | ok v =>
        rintro ⟨⟩
        next hunset _ => exact absurd (herror.symm.trans hunset) (by decide)
  · have hmanifest : (Manifest.load allRight "/").toOption.map (fun m =>
        (m.skip, Path.join ["/", m.entry], m.expect.stdout.map (·.data.toList), m.expect.error)) =
          some (false, "/program.json", [[49]], "") := by
      decide +kernel
    have hresult : (Manifest.load allRight "/").toOption.bind (fun m =>
        m.expect.result.map fun want => (want.kind, want.value.display.data.toList)) = some ("integer", [49]) := by
      decide +kernel
    have hprogram : (Program.load allRight "/program.json").toOption.map (fun p =>
        ((lines ((Interpreter.new .unlimited 5).run p).2.machine.output.text).map (·.data.toList),
          ((Interpreter.new .unlimited 5).run p).1.toOption.map fun v => (v.kind?, v.format.data.toList))) =
          some ([[49]], some (some .integer, [49])) := by
      decide +kernel
    obtain ⟨m, hm, hmanifest⟩ := Option.map_eq_some_iff.mp hmanifest
    obtain ⟨p, hp, hprogram⟩ := Option.map_eq_some_iff.mp hprogram
    simp only [Prod.mk.injEq] at hmanifest hprogram
    obtain ⟨hskip, hentry, hstdout, herror⟩ := hmanifest
    obtain ⟨hlines, hvalue⟩ := hprogram
    rw [hm, Option.bind_some] at hresult
    obtain ⟨want, hwant, hkind⟩ := Option.map_eq_some_iff.mp hresult
    obtain ⟨v, hv, hformat⟩ := Option.map_eq_some_iff.mp hvalue
    simp only [Prod.mk.injEq] at hkind hformat
    rw [← hentry] at hp
    obtain ⟨r, -, hr, -, hverdict⟩ := run_verdict (eq_ok_of_toOption hm) hskip (eq_ok_of_toOption hp) 5
    refine ⟨r, hr, hverdict.passes.mpr ⟨?_, ?_⟩⟩
    · exact List.map_injective_iff.mpr (fun _ _ => toList_injective) (hstdout.trans hlines.symm)
    · rw [eq_ok_of_toOption hv]
      refine .value herror fun other hother => ?_
      obtain rfl : want = other := Option.some.inj (hwant.symm.trans hother)
      refine ⟨⟨.integer, hformat.1, hkind.1.symm⟩, fun _ => ?_⟩
      cases v with
      | int n => exact toList_injective (hkind.2.trans hformat.2.symm)
      | _ => cases hformat.1

end Verdict

end Fixture

end TreeWalk
