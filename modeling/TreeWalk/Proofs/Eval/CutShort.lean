import Mathlib.Tactic.Choose
import TreeWalk.Proofs.Eval.Locality
import TreeWalk.Proofs.Eval.Refusal
import TreeWalk.Proofs.Eval.Stop

/-!
# A refused write cuts an evaluation short

The writes of an evaluation come one after the other, each from an attempt on a machine that has the writes
before it. With an output that takes `k` more writes, the evaluation is the same if it makes no more than `k`
attempts; otherwise it ends at the next attempt, with the machine as it was then.
-/

namespace TreeWalk

/-- A line that is about to be written: where the program asks for it, the value, and the machine. -/
structure Attempt where
  loc : Location
  value : Value
  machine : Machine

def Attempt.line (a : Attempt) : ByteArray := a.value.format ++ "\n".toUTF8

private theorem line_of_suffix {α : Type} {a : α} {rest lines older : List α} {j : Nat}
    (h : a :: rest <:+ lines.reverse ++ older) (hlength : rest.length = older.length + j) :
    lines[j]? = some a ∧ rest = (lines.take j).reverse ++ older := by
  obtain ⟨newer, hnewer⟩ := h
  have hsize := congrArg List.length hnewer
  simp only [List.length_append, List.length_cons, List.length_reverse] at hsize
  have hj : j < lines.length := by omega
  have hsplit : lines.reverse ++ older =
      (lines.drop (j + 1)).reverse ++ (lines[j] :: ((lines.take j).reverse ++ older)) := by
    calc lines.reverse ++ older
      _ = (lines.take j ++ lines.drop j).reverse ++ older := by rw [List.take_append_drop]
      _ = _ := by
        rw [List.drop_eq_getElem_cons hj]
        simp only [List.reverse_append, List.reverse_cons, List.append_assoc, List.cons_append, List.nil_append]
  rw [hsplit] at hnewer
  have hparts := List.append_inj_right' hnewer (by simp; omega)
  obtain ⟨rfl, hrest⟩ := List.cons.inj hparts
  exact ⟨List.getElem?_eq_getElem hj, hrest⟩

def Machine.withRoom (m : Machine) (room : Option Nat) : Machine := { m with output := { m.output with room } }

namespace Point

def withRoom (p : Point) (room : Option Nat) : Point := { p with machine := p.machine.withRoom room }

theorem withRoom_some (p : Point) (k : Nat) :
    p.withRoom (some k) = p.upTo (p.machine.output.writes.length + k) := by
  rw [upTo, Machine.upTo, Output.upTo, Nat.add_sub_cancel_left]
  rfl

/-- The evaluation makes these attempts to write, in this order, and all of them succeed. -/
structure Writes (p : Point) (attempts : List Attempt) : Prop where
  written : p.final.output.writes = (attempts.map Attempt.line).reverse ++ p.machine.output.writes
  tried : ∀ j a, attempts[j]? = some a → p.Tries a.loc a.value a.machine ∧
    a.machine.output.writes = ((attempts.take j).map Attempt.line).reverse ++ p.machine.output.writes

theorem Writes.enough {p : Point} {attempts : List Attempt} (h : p.Writes attempts)
    (hroom : p.machine.output.room = none) {k : Nat} (hk : attempts.length ≤ k) :
    (p.withRoom (some k)).result = (p.result.1, p.final.withRoom (some (k - attempts.length))) := by
  have hlength : p.final.output.writes.length = attempts.length + p.machine.output.writes.length := by
    rw [h.written, List.length_append, List.length_reverse, List.length_map]
  have hleft : p.machine.output.writes.length + k - p.final.output.writes.length = k - attempts.length := by
    omega
  have hfit : p.final.output.writes.length ≤ p.machine.output.writes.length + k := by omega
  have hsame : (p.upTo (p.machine.output.writes.length + k)).result =
      (p.result.1, p.final.upTo (p.machine.output.writes.length + k)) := (p.cut hroom _).same hfit
  rw [withRoom_some, hsame, Machine.upTo, Output.upTo, hleft, Machine.withRoom]

def refusal (p : Point) (lines : List ByteArray) (a : Attempt) : Outcome × Machine :=
  (.error (.output a.loc p.machine.output.complaint),
    { a.machine with
      output := ⟨lines.reverse ++ p.machine.output.writes, some 0, p.machine.output.complaint⟩
      depth := p.machine.depth })

theorem exists_attempt (p : Point) (hroom : p.machine.output.room = none) {lines : List ByteArray}
    (hwritten : p.final.output.writes = lines.reverse ++ p.machine.output.writes) {k : Nat} (hk : k < lines.length) :
    ∃ a : Attempt, p.Tries a.loc a.value a.machine ∧ lines[k]? = some a.line ∧
      a.machine.output.writes = (lines.take k).reverse ++ p.machine.output.writes ∧
      (p.withRoom (some k)).result = p.refusal (lines.take k) a := by
  have hover : p.machine.output.writes.length + k < p.final.output.writes.length := by
    rw [hwritten, List.length_append, List.length_reverse]
    omega
  obtain ⟨loc, v, m, htries, hlength, hsuffix, hcut⟩ :=
    (p.cut hroom (p.machine.output.writes.length + k)).refused (Nat.le_add_right _ _) hover
  have hsuffix' : (v.format ++ "\n".toUTF8) :: m.output.writes <:+ lines.reverse ++ p.machine.output.writes :=
    hwritten ▸ hsuffix
  obtain ⟨hline, hrest⟩ := line_of_suffix hsuffix' hlength
  refine ⟨⟨loc, v, m⟩, htries, hline, hrest, ?_⟩
  have hfull : p.machine.output.writes.length + k - m.output.writes.length = 0 := by omega
  have hcomplaint : m.output.complaint = p.machine.output.complaint := htries.complaint
  have hcut' : (p.withRoom (some k)).result = _ := (congrArg result (p.withRoom_some k)).trans hcut
  rw [hcut', Machine.upTo, Output.upTo, hfull, hrest, hcomplaint, refusal]

theorem exists_writes (p : Point) (hroom : p.machine.output.room = none) :
    ∃ attempts, p.Writes attempts ∧ ∀ k a, attempts[k]? = some a →
      (p.withRoom (some k)).result = p.refusal ((attempts.take k).map Attempt.line) a := by
  have hlater : p.machine.output.Later p.final.output :=
    later_of_result (rfl : p.result = (p.result.1, p.final))
  obtain ⟨newer, hnewer⟩ := hlater.writes
  obtain ⟨lines, rfl⟩ : ∃ lines : List ByteArray, newer = lines.reverse := ⟨newer.reverse, newer.reverse_reverse.symm⟩
  -- one attempt for each line, put in a list
  choose attempt htries hline hrest hcut using fun k : Fin lines.length => p.exists_attempt hroom hnewer.symm k.isLt
  have hindex : ∀ k a, (List.ofFn attempt)[k]? = some a → ∃ hk : k < lines.length, attempt ⟨k, hk⟩ = a := by
    intro k a ha
    rw [List.getElem?_ofFn] at ha
    split at ha
    · next hk => exact ⟨hk, Option.some.inj ha⟩
    · cases ha
  have hlines : (List.ofFn attempt).map Attempt.line = lines := by
    apply List.ext_getElem?
    intro k
    rw [List.getElem?_map, List.getElem?_ofFn]
    split
    · next hk => exact (hline ⟨k, hk⟩).symm
    · next hk => rw [List.getElem?_eq_none (Nat.not_lt.mp hk), Option.map_none]
  refine ⟨List.ofFn attempt, ⟨by rw [hlines]; exact hnewer.symm, fun k a ha => ?_⟩, fun k a ha => ?_⟩
  · obtain ⟨hk, rfl⟩ := hindex k a ha
    refine ⟨htries _, ?_⟩
    rw [List.map_take, hlines]
    exact hrest ⟨k, hk⟩
  · obtain ⟨hk, rfl⟩ := hindex k a ha
    rw [List.map_take, hlines]
    exact hcut ⟨k, hk⟩

end Point

namespace Interpreter

def withRoom (i : Interpreter) (room : Option Nat) : Interpreter := { i with machine := i.machine.withRoom room }

/-- What `act` comes to with room for so many writes, told by the attempts to write that it makes when there is room
for all. Enough room makes no difference. With less, the first attempt that finds none is the end: what was written
before it is written, the machine is left as it was then, and the depth is `depth`. -/
structure EndsAtRefusal (act : Interpreter → Outcome × Interpreter) (i : Interpreter) (depth : Nat)
    (attempts : List Attempt) : Prop where
  written : (act (i.withRoom none)).2.machine.output.writes =
    (attempts.map Attempt.line).reverse ++ i.machine.output.writes
  enough : ∀ k, attempts.length ≤ k → act (i.withRoom (some k)) =
    ((act (i.withRoom none)).1, (act (i.withRoom none)).2.withRoom (some (k - attempts.length)))
  short : ∀ k a, attempts[k]? = some a →
    (act (i.withRoom (some k))).1 = .error (.output a.loc i.machine.output.complaint) ∧
    (act (i.withRoom (some k))).2.machine =
      { a.machine with
        output := ⟨((attempts.take k).map Attempt.line).reverse ++ i.machine.output.writes, some 0,
          i.machine.output.complaint⟩
        depth } ∧
    (act (i.withRoom (some k))).2.global = (act (i.withRoom none)).2.global

theorem exists_attempts {act : Interpreter → Outcome × Interpreter} {i : Interpreter} (p : Point) (global : ScopeId)
    (log : Outcome → List Log.Record) (houtput : p.machine.output = i.machine.output)
    (hact : ∀ room, act (i.withRoom room) =
      ((p.withRoom room).result.1, ⟨(p.withRoom room).final, global, log (p.withRoom room).result.1⟩)) :
    ∃ attempts, (p.withRoom none).Writes attempts ∧ EndsAtRefusal act i p.machine.depth attempts := by
  obtain ⟨attempts, hwrites, hshort⟩ := (p.withRoom none).exists_writes rfl
  refine ⟨attempts, hwrites, ?_, fun k hk => ?_, fun k a ha => ?_⟩
  · rw [hact, ← houtput]
    exact hwrites.written
  · have henough : (p.withRoom (some k)).result = _ := hwrites.enough rfl hk
    rw [hact, hact, Point.final, henough]
    rfl
  · have hrefusal : (p.withRoom (some k)).result = _ := hshort k a ha
    rw [hact, hact, Point.final, hrefusal, ← houtput]
    exact ⟨rfl, rfl, rfl⟩

theorem run_absent_endsAtRefusal (i : Interpreter) {p : Program} (h : p.expression.isAbsent) :
    EndsAtRefusal (·.run p) i 0 [] := by
  refine ⟨?_, fun k _ => ?_, fun k a ha => ?_⟩
  · rw [run_absent h]
    rfl
  · rw [run_absent h, run_absent h]
    rfl
  · cases ha

/-- With room for fewer lines than it writes, an evaluation ends where it attempts the first line too many: it fails
with a refused write at the place of that `print`, what it wrote is the lines before, and what it bound is what is
bound at that time. With room for all of them it does what it does anyway. It evaluates just what it evaluates anyway
before there are too many lines. Whatever it fails with, wherever that comes up, is the end of it, and leaves all that
was written. -/
theorem refused_write_cuts_short (i : Interpreter) :
    (∀ t scope, ∃ attempts, ((i.withRoom none).point t (scope.getD i.global)).Writes attempts ∧
      EndsAtRefusal (·.evaluate t scope) i i.machine.depth attempts) ∧
    (∀ p : Program, ∃ attempts,
      (¬p.expression.isAbsent → ((i.withRoom none).fresh.point p.expression i.fresh.global).Writes attempts) ∧
      EndsAtRefusal (·.run p) i 0 attempts) ∧
    (∀ t h k r, ((i.withRoom (some k)).point t h).Visits r ↔
      ∃ q, ((i.withRoom none).point t h).Visits q ∧
        q.machine.output.writes.length ≤ i.machine.output.writes.length + k ∧
        r = q.upTo (i.machine.output.writes.length + k)) ∧
    (∀ t h q, (i.point t h).Visits q →
      q.final.output.writes <:+ (i.point t h).final.output.writes ∧
      ∀ e m, q.result = (.error e, m) → (i.point t h).result = (.error e, { m with depth := i.machine.depth })) ∧
    ∀ loc reason, (Failure.output loc reason).text = "print at " ++ loc.render ++ ": " ++ reason := by
  refine ⟨fun t scope => ?_, fun p => ?_, fun t h k r => ?_, fun t h q hvisits => ?_, fun _ _ => rfl⟩
  · have hact : ∀ room, (i.withRoom room).evaluate t scope = _ := fun room => (i.withRoom room).evaluate_eq t scope
    exact exists_attempts (i.point t (scope.getD i.global)) i.global (fun _ => i.log) rfl hact
  · by_cases hp : p.expression.isAbsent
    · exact ⟨[], fun h => absurd hp h, i.run_absent_endsAtRefusal hp⟩
    · have hact : ∀ room, (i.withRoom room).run p = _ := fun room => run_present hp
      have hends : ∃ attempts, _ ∧ EndsAtRefusal (·.run p) i 0 attempts :=
        exists_attempts (i.fresh.point p.expression i.fresh.global) i.fresh.global (fun outcome =>
          ending p.name outcome :: Log.debug "evaluating program" [Log.attr "name" p.name] :: i.log) rfl hact
      exact hends.imp fun _ h => ⟨fun _ => h.1, h.2⟩
  · have hpoint := ((i.withRoom none).point t h).withRoom_some k
    have hstart : (i.withRoom (some k)).point t h = ((i.withRoom none).point t h).withRoom (some k) := rfl
    rw [hstart, hpoint]
    exact Point.visits_upTo_iff rfl (Nat.le_add_right _ _)
  · exact ⟨hvisits.precedes.writes, fun e m he => hvisits.stops he⟩

/-- `let x = print(true); (fn (y) => print(y))(print(false))` -/
def printedArgument : Term :=
  .letIn .unknown ⟨"x", .unknown⟩ (.print ⟨8, 19, "p"⟩ (.bool .unknown true))
    (.call .unknown (.function .unknown [⟨"y", .unknown⟩] (.print ⟨32, 40, "p"⟩ (.var .unknown "y")))
      [.print ⟨42, 54, "p"⟩ (.bool .unknown false)] true)

theorem refused_write_cuts_short_printedArgument :
    (∃ (attempts : List Attempt) (a : Attempt), attempts.length ≤ 3 ∧ attempts[1]? = some a ∧
      (((new ⟨[], none, "full"⟩ 0).withRoom (some 1)).evaluate printedArgument none).1 =
        .error (.output a.loc "full") ∧
      ((new ⟨[], none, "full"⟩ 0).withRoom (some 3)).evaluate printedArgument none =
        ((((new ⟨[], none, "full"⟩ 0).withRoom none).evaluate printedArgument none).1,
          (((new ⟨[], none, "full"⟩ 0).withRoom none).evaluate printedArgument none).2.withRoom
            (some (3 - attempts.length)))) ∧
    ((new (.limited 0 "full") 0).point printedArgument 0).result.1 = .error (.output ⟨8, 19, "p"⟩ "full") := by
  constructor
  · obtain ⟨attempts, -, hends⟩ := (refused_write_cuts_short (new ⟨[], none, "full"⟩ 0)).1 printedArgument none
    have hlength : attempts.length = 3 := by
      have hwritten := congrArg List.length hends.written
      rw [List.length_append, List.length_reverse, List.length_map] at hwritten
      exact hwritten.symm
    have hsecond : attempts[1]? = some attempts[1] := List.getElem?_eq_getElem (by omega)
    exact ⟨attempts, attempts[1], Nat.le_of_eq hlength, hsecond, (hends.short 1 _ hsecond).1,
      hends.enough 3 (Nat.le_of_eq hlength)⟩
  · have hvisits : ((new (.limited 0 "full") 0).point printedArgument 0).Visits
        ((new (.limited 0 "full") 0).point (.print ⟨8, 19, "p"⟩ (.bool .unknown true)) 0) := .single .letValue
    have hstops := (refused_write_cuts_short (new (.limited 0 "full") 0)).2.2.2.1 printedArgument 0 _ hvisits
    exact congrArg Prod.fst (hstops.2 _ _ rfl)

end Interpreter

end TreeWalk
