import TreeWalk.Proofs.Eval.Locations
import TreeWalk.Proofs.Session.Blame

/-!
# Locations have no influence

Texts that differ only in locations are read alike, and programs that differ only in locations have the same source
text and run alike, up to the locations in the bodies of closures and the places of faults. The one exception is a text
with a location that nests too deeply, which is no program.
-/

namespace TreeWalk

namespace Point

def unlocated (p : Point) : Point := { p with term := p.term.unlocated, machine := p.machine.unlocated }

theorem result_unlocated (p : Point) :
    p.unlocated.result = (unlocatedResult Value.unlocated p.result.1, p.final.unlocated) :=
  (p.term.eval_erases p.levels p.scope).run p.machine

theorem unrefused_result {p : Point} (h : p.machine.output.room = none) : Unrefused p.result :=
  (p.term.eval_erases p.levels p.scope).accepted p.machine h

end Point

/-- Values that differ only in locations, or faults of the same kind, wording, operator and operands. -/
inductive SameOutcome : Outcome → Outcome → Prop
  | value {v v' : Value} (h : v.unlocated = v'.unlocated) : SameOutcome (.ok v) (.ok v')
  | fault {f f' : Fault} (kind : f.kind = f'.kind) (message : f.message = f'.message)
    (operands : f.operands? = f'.operands?) : SameOutcome (.error (.fault f)) (.error (.fault f'))

theorem SameOutcome.of_unlocated {r r' : Outcome}
    (h : unlocatedResult Value.unlocated r = unlocatedResult Value.unlocated r')
    (hfault : ∀ e, r = .error e → ∃ f, e = .fault f) : SameOutcome r r' := by
  cases r with
  | ok v =>
    cases r' with
    | ok v' => exact .value (Except.ok.inj h)
    | error e' => cases h
  | error e =>
    obtain ⟨f, rfl⟩ := hfault e rfl
    cases r' with
    | ok v' => cases h
    | error e' =>
      cases e' with
      | fault f' =>
        obtain ⟨hkind, hmessage, hoperands⟩ := Fault.eq_of_unlocated (Failure.fault.inj (Except.error.inj h))
        exact .fault hkind hmessage hoperands
      | _ => cases h

namespace Interpreter

variable {i i' : Interpreter} {p p' : Program}

theorem fresh_point_unlocated (i : Interpreter) (t : Term) :
    (i.fresh.point t i.fresh.global).unlocated =
      ⟨i.machine.unlocated.limit, t.unlocated, (i.machine.unlocated.store.child none).1,
        { i.machine.unlocated with store := (i.machine.unlocated.store.child none).2, depth := 0 }⟩ := by
  have hchild : i.machine.unlocated.store.child none = _ := Store.alloc_unlocated i.machine.store ⟨[], none⟩
  rw [hchild]
  rfl

theorem run_unlocated (h : i.machine.unlocated = i'.machine.unlocated)
    (hp : p.expression.unlocated = p'.expression.unlocated) :
    unlocatedResult Value.unlocated (i.run p).1 = unlocatedResult Value.unlocated (i'.run p').1 ∧
    (i.run p).2.machine.unlocated = (i'.run p').2.machine.unlocated := by
  have habsent : p.expression.isAbsent = p'.expression.isAbsent := by
    rw [← p.expression.isAbsent_unlocated, hp, Term.isAbsent_unlocated]
  by_cases hpresent : p.expression.isAbsent
  · rw [run_absent hpresent, run_absent (habsent ▸ hpresent)]
    exact ⟨rfl, h⟩
  · have hpoint : (i.fresh.point p.expression i.fresh.global).unlocated =
        (i'.fresh.point p'.expression i'.fresh.global).unlocated := by
      rw [fresh_point_unlocated, fresh_point_unlocated, h, hp]
    have hresult := congrArg Point.result hpoint
    rw [Point.result_unlocated, Point.result_unlocated] at hresult
    rw [run_present hpresent, run_present (habsent ▸ hpresent)]
    exact ⟨congrArg Prod.fst hresult, congrArg Prod.snd hresult⟩

theorem fault_of_run (hroom : i.machine.output.room = none) {e : Failure} (he : (i.run p).1 = .error e) :
    ∃ f, e = .fault f := by
  by_cases hp : p.expression.isAbsent
  · rw [run_absent hp] at he
    cases he
    exact ⟨_, rfl⟩
  · obtain ⟨env, t, ht, hraised⟩ := raised_of_run hp he
    rcases hraised.pointsInto ht with ⟨loc, reason, _, rfl, -⟩ | ⟨f, hf, -⟩
    · rw [run_present hp] at he
      have hunrefused := Point.unrefused_result (p := i.fresh.point p.expression i.fresh.global) hroom
      exact absurd he (hunrefused.2 loc reason)
    · exact ⟨f, hf⟩

end Interpreter

section Depth

open Json (FirstValue SameUnlocated Plain)

def Json.nested : Nat → Json
  | 0 => .array []
  | n + 1 => .array [nested n]

theorem Json.depth_nested (n : Nat) : (nested n).depth = n + 1 := by
  induction n with
  | zero => rfl
  | succ n ih => simp [nested, depth, depthItems, ih]

theorem Json.nested_plain (n : Nat) : (nested n).Plain := by
  induction n with
  | zero => exact .array (by simp)
  | succ n ih => exact .array (by simpa using ih)

def truth (location : Json) : Json :=
  .object [("location", location), ("expression", .object [("kind", .string "Bool"), ("value", .bool true)])]

theorem truth_plain {location : Json} (h : location.Plain) : (truth location).Plain := by
  have hexpression : (Json.object [("kind", .string "Bool"), ("value", .bool true)]).Plain := by
    apply Plain.object
    simp [Plain.string, Plain.bool]
  apply Plain.object
  simp [h, hexpression]

theorem decode_truth {location : Json} (h : location.Plain) (hdepth : (truth location).depth ≤ Json.maxDepth) :
    ∃ p, Program.decode (truth location).write.toUTF8 = .ok p := by
  have hmembers := decodeObject_write .file rfl (truth_plain h) hdepth
  refine ⟨⟨"", .bool .unknown true, decodeLocation (some location)⟩, Program.decode_eq_ok.mpr ⟨_, hmembers, ?_⟩⟩
  exact ⟨⟨_, rfl, rfl⟩, rfl, rfl⟩

theorem truth_sameUnlocated (location location' : Json) : SameUnlocated (truth location) (truth location') := rfl

theorem decode_deep {source : ByteArray} {j : Json} {rest : List UInt8} (h : FirstValue source.data.toList j rest)
    (hdeep : Json.maxDepth < j.depth) : ∃ e, Program.decode source = .error e := by
  cases hp : Program.decode source with
  | error e => exact ⟨e, rfl⟩
  | ok p =>
    obtain ⟨members, hmembers, -⟩ := Program.decode_eq_ok.mp hp
    obtain ⟨hdepth, _, hread⟩ := decodeObject_eq_ok_iff.mp hmembers
    obtain ⟨rfl, -⟩ := h.unique hread
    exact absurd hdepth (Nat.not_le.mpr hdeep)

theorem lt_depth_truth (n : Nat) : n < (truth (.nested n)).depth := by
  have hdepth : (truth (.nested n)).depth = n + 1 + 1 := by
    simp [truth, Json.depth, Json.depthMembers, Json.depth_nested]
  omega

/-- A location that nests too deeply does have an influence: with it, the text is no program. -/
theorem deep_location_refused :
    ∃ (source source' : ByteArray) (j j' : Json) (rest rest' : List UInt8), FirstValue source.data.toList j rest ∧
      FirstValue source'.data.toList j' rest' ∧ SameUnlocated j j' ∧ (∃ p, Program.decode source = .ok p) ∧
      ∃ e, Program.decode source' = .error e :=
  have hdeep := (truth_plain (Json.nested_plain Json.maxDepth)).firstValue
  ⟨_, _, _, _, [], [], (truth_plain .null).firstValue, hdeep, truth_sameUnlocated _ _, decode_truth .null (by decide),
    decode_deep hdeep (lt_depth_truth _)⟩

end Depth

/-- Texts whose first values differ only in locations are both refused or read as programs that differ only in
locations, if they both nest too deeply or neither does; what nests too deeply is refused. Programs whose expressions differ only in locations have the same source text, and do
the same when they are run, on machines that may differ in locations too, with an output that takes every write: they
write the same, and come to values or to faults that differ only in locations. -/
theorem locations_have_no_influence :
    (∀ (source source' : ByteArray) (j j' : Json) (rest rest' : List UInt8),
      Json.FirstValue source.data.toList j rest → Json.FirstValue source'.data.toList j' rest' →
      (j.depth ≤ Json.maxDepth ↔ j'.depth ≤ Json.maxDepth) → Json.SameUnlocated j j' →
      (Program.decode source).toOption.map Program.unlocated =
        (Program.decode source').toOption.map Program.unlocated) ∧
    (∀ (source : ByteArray) (j : Json) (rest : List UInt8), Json.FirstValue source.data.toList j rest →
      Json.maxDepth < j.depth → ∃ e, Program.decode source = .error e) ∧
    ∀ p p' : Program, p.expression.unlocated = p'.expression.unlocated →
      p.expression.render = p'.expression.render ∧
      ∀ i i' : Interpreter, i.machine.unlocated = i'.machine.unlocated → i.machine.output.room = none →
        (i.run p).2.machine.output = (i'.run p').2.machine.output ∧
        (i.run p).2.machine.unlocated = (i'.run p').2.machine.unlocated ∧
        SameOutcome (i.run p).1 (i'.run p').1 := by
  refine ⟨?_, fun _ _ _ => decode_deep, fun p p' hp => ⟨Term.render_eq_of_unlocated hp, ?_⟩⟩
  · intro source source' j j' rest rest' hfirst hfirst' hdepths hsame
    by_cases hdepth : j.depth ≤ Json.maxDepth
    · exact decode_unlocated_eq hfirst hfirst' hdepth (hdepths.mp hdepth) hsame
    · obtain ⟨e, he⟩ := decode_deep hfirst (Nat.not_le.mp hdepth)
      obtain ⟨e', he'⟩ := decode_deep hfirst' (Nat.not_le.mp fun h => hdepth (hdepths.mpr h))
      rw [he, he']
      rfl
  intro i i' hmachine hroom
  obtain ⟨hresult, hfinal⟩ := Interpreter.run_unlocated hmachine hp
  have houtput : (i.run p).2.machine.unlocated.output = _ := congrArg Machine.output hfinal
  exact ⟨houtput, hfinal, .of_unlocated hresult fun _ => Interpreter.fault_of_run hroom⟩

/-- `let f = fn (x) => print(x); (f(1), f)`, with one location everywhere. -/
def echo (loc : Location) : Program :=
  ⟨"echo", .letIn loc ⟨"f", loc⟩ (.function loc [⟨"x", loc⟩] (.print loc (.var loc "x")))
    (.tuple loc (.call loc (.var loc "f") [.int loc 1] true) (.var loc "f")), loc⟩

theorem locations_have_no_influence_echo :
    (Program.decode (truth (.bool true)).write.toUTF8).toOption.map Program.unlocated =
      (Program.decode (truth .null).write.toUTF8).toOption.map Program.unlocated ∧
    (∃ e, Program.decode (truth (.nested Json.maxDepth)).write.toUTF8 = .error e) ∧
    (echo ⟨1, 2, "a"⟩).expression.render = (echo .unknown).expression.render ∧
    ((Interpreter.new .unlimited 3).run (echo ⟨1, 2, "a"⟩)).2.machine.output =
      ((Interpreter.new .unlimited 3).run (echo .unknown)).2.machine.output ∧
    SameOutcome ((Interpreter.new .unlimited 3).run (echo ⟨1, 2, "a"⟩)).1
      ((Interpreter.new .unlimited 3).run (echo .unknown)).1 := by
  have hread := locations_have_no_influence.1 _ _ _ _ _ _ (truth_plain (.bool true)).firstValue
    (truth_plain .null).firstValue (by decide) rfl
  have hdeep := locations_have_no_influence.2.1 _ _ _ (truth_plain (Json.nested_plain Json.maxDepth)).firstValue
    (lt_depth_truth _)
  obtain ⟨hrender, hrun⟩ := locations_have_no_influence.2.2 (echo ⟨1, 2, "a"⟩) (echo .unknown) rfl
  obtain ⟨houtput, -, houtcome⟩ := hrun (.new .unlimited 3) (.new .unlimited 3) rfl rfl
  exact ⟨hread, hdeep, hrender, houtput, houtcome⟩

end TreeWalk
