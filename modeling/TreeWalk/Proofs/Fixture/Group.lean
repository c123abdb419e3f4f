import Mathlib.Algebra.Ring.Nat
import Mathlib.Data.Nat.Find

/-!
# Groups of workers

A group carries out tasks, each by a worker of its own, with a bound on the workers that are under way together. The
first error that a worker reports is the group's, and cancels it: a worker that starts after that gives up. What
happens next is left open: any worker that is under way may take its next step, or another one may be started.
-/

namespace TreeWalk

/-- Why a worker gives up. -/
inductive Stop (ε : Type) where
  | task (error : ε)
  | cancelled

/-- How far a worker is. -/
inductive Phase (ε : Type) where
  | waiting
  /-- It has not looked yet whether the group is cancelled. -/
  | started
  | working
  /-- Its task is over, which it has not reported yet. -/
  | returned (stop : Option (Stop ε))
  /-- Its error is the group's, which is not cancelled yet. -/
  | cancelling
  | gone

namespace Phase

variable {ε : Type}

def isActive : Phase ε → Bool
  | waiting | gone => false
  | _ => true

/-- The most steps that a worker has before it. -/
def weight : Phase ε → Nat
  | waiting => 5
  | started => 4
  | working => 3
  | returned _ => 2
  | cancelling => 1
  | gone => 0

end Phase

/-- The workers of a group in the order of their tasks, and all that they share. -/
structure Group (α ε : Type) where
  phases : List (Phase ε)
  results : List α
  failure : Option (Stop ε)
  cancelled : Bool

namespace Group

variable {α ε : Type}

/-- A group that has not started any of `count` workers. Until a worker has a result, `blank` stands for it. -/
def start (count : Nat) (blank : α) : Group α ε :=
  ⟨List.replicate count .waiting, List.replicate count blank, none, false⟩

def active (g : Group α ε) : Nat := g.phases.countP Phase.isActive

def enter (g : Group α ε) (i : Nat) (phase : Phase ε) : Group α ε := { g with phases := g.phases.set i phase }

def Finished (g : Group α ε) : Prop := ∀ phase ∈ g.phases, phase = .gone

def outcome (g : Group α ε) : Except (Stop ε) (List α) :=
  match g.failure with
  | some stop => .error stop
  | none => .ok g.results

/-- What can happen next in a group with these tasks, and at most `limit` workers under way. -/
inductive Step (tasks : List (Except ε α)) (limit : Nat) (g : Group α ε) : Group α ε → Prop
  | launch {i : Nat} (hphase : g.phases[i]? = some .waiting) (hfirst : ∀ j < i, g.phases[j]? ≠ some .waiting)
      (hroom : g.active < limit) : Step tasks limit g (g.enter i .started)
  | proceed {i : Nat} (hphase : g.phases[i]? = some .started) (hopen : g.cancelled = false) :
      Step tasks limit g (g.enter i .working)
  | giveUp {i : Nat} (hphase : g.phases[i]? = some .started) (hcancelled : g.cancelled = true) :
      Step tasks limit g (g.enter i (.returned (some .cancelled)))
  | succeed {i : Nat} {a : α} (hphase : g.phases[i]? = some .working) (htask : tasks[i]? = some (.ok a)) :
      Step tasks limit g { g.enter i (.returned none) with results := g.results.set i a }
  | fail {i : Nat} {e : ε} (hphase : g.phases[i]? = some .working) (htask : tasks[i]? = some (.error e)) :
      Step tasks limit g (g.enter i (.returned (some (.task e))))
  | leave {i : Nat} (hphase : g.phases[i]? = some (.returned none)) : Step tasks limit g (g.enter i .gone)
  | report {i : Nat} {stop : Stop ε} (hphase : g.phases[i]? = some (.returned (some stop)))
      (hnone : g.failure = none) : Step tasks limit g { g.enter i .cancelling with failure := some stop }
  | reportLate {i : Nat} {stop : Stop ε} (hphase : g.phases[i]? = some (.returned (some stop)))
      (hsome : g.failure ≠ none) : Step tasks limit g (g.enter i .gone)
  | cancel {i : Nat} (hphase : g.phases[i]? = some .cancelling) :
      Step tasks limit g { g.enter i .gone with cancelled := true }

/-- What a group can have come to after some number of steps. -/
inductive Run (tasks : List (Except ε α)) (limit : Nat) (blank : α) : Nat → Group α ε → Prop
  | start : Run tasks limit blank 0 (start tasks.length blank)
  | step {n : Nat} {g g' : Group α ε} (hrun : Run tasks limit blank n g) (hstep : Step tasks limit g g') :
      Run tasks limit blank (n + 1) g'

section Termination

variable {tasks : List (Except ε α)} {limit : Nat} {blank : α} {g g' : Group α ε}

/-- A step brings one worker further and leaves the others where they are. A worker is started in its turn, and only if
there is room for it. -/
theorem Step.exists_phase (h : Step tasks limit g g') :
    ∃ i a b, g.phases[i]? = some a ∧ g'.phases = g.phases.set i b ∧ b.weight < a.weight ∧
      (a.weight < 5 ∨ (∀ j < i, g.phases[j]? ≠ some .waiting) ∧ g.active < limit) := by
  cases h with
  | launch hphase hfirst hroom => exact ⟨_, _, .started, hphase, rfl, by simp [Phase.weight], .inr ⟨hfirst, hroom⟩⟩
  | proceed hphase _ => exact ⟨_, _, .working, hphase, rfl, by simp [Phase.weight]⟩
  | giveUp hphase _ => exact ⟨_, _, .returned (some .cancelled), hphase, rfl, by simp [Phase.weight]⟩
  | succeed hphase _ => exact ⟨_, _, .returned none, hphase, rfl, by simp [Phase.weight]⟩
  | @fail i e hphase _ => exact ⟨_, _, .returned (some (.task e)), hphase, rfl, by simp [Phase.weight]⟩
  | leave hphase => exact ⟨_, _, .gone, hphase, rfl, by simp [Phase.weight]⟩
  | report hphase _ => exact ⟨_, _, .cancelling, hphase, rfl, by simp [Phase.weight]⟩
  | reportLate hphase _ => exact ⟨_, _, .gone, hphase, rfl, by simp [Phase.weight]⟩
  | cancel hphase => exact ⟨_, _, .gone, hphase, rfl, by simp [Phase.weight]⟩

def weight (g : Group α ε) : Nat := (g.phases.map Phase.weight).sum

theorem sum_weight_set (phases : List (Phase ε)) {i : Nat} {a b : Phase ε} (ha : phases[i]? = some a)
    (hlt : b.weight < a.weight) : ((phases.set i b).map Phase.weight).sum < (phases.map Phase.weight).sum := by
  induction phases generalizing i with
  | nil => simp at ha
  | cons p phases ih =>
    cases i with
    | zero =>
      have hp : p = a := by simpa using ha
      simpa [hp] using hlt
    | succ i => simpa using ih (i := i) (by simpa using ha)

theorem Step.weight_lt (h : Step tasks limit g g') : g'.weight < g.weight := by
  obtain ⟨i, a, b, ha, hphases, hlt, -⟩ := h.exists_phase
  rw [weight, hphases]
  exact sum_weight_set g.phases ha hlt

theorem Run.length_le {n : Nat} (h : Run tasks limit blank n g) : n + g.weight ≤ 5 * tasks.length := by
  induction h with
  | start => simp [weight, Group.start, Phase.weight, Nat.mul_comm]
  | step _ hstep ih =>
    have hlt := hstep.weight_lt
    omega

end Termination

section Soundness

variable {tasks : List (Except ε α)} {limit : Nat} {blank : α} {g g' : Group α ε} {i j : Nat}

/-- The result of a task that succeeded is in its place. -/
def Holds (tasks : List (Except ε α)) (g : Group α ε) (i : Nat) : Prop :=
  ∃ a, tasks[i]? = some (.ok a) ∧ g.results[i]? = some a

/-- What a worker's phase says of the group. -/
def Fits (tasks : List (Except ε α)) (g : Group α ε) (i : Nat) : Phase ε → Prop
  | .returned none => Holds tasks g i
  | .returned (some (.task e)) => tasks[i]? = some (.error e)
  | .returned (some .cancelled) | .cancelling => g.failure ≠ none
  | .gone => Holds tasks g i ∨ g.failure ≠ none
  | .waiting | .started | .working => True

structure Sound (tasks : List (Except ε α)) (g : Group α ε) : Prop where
  phases_length : g.phases.length = tasks.length
  results_length : g.results.length = tasks.length
  fits : ∀ {i : Nat} {phase : Phase ε}, g.phases[i]? = some phase → Fits tasks g i phase
  /-- The group is never said to have failed because it was cancelled. -/
  failure_task : ∀ {stop : Stop ε}, g.failure = some stop → ∃ e, stop = .task e ∧ .error e ∈ tasks
  failure_of_cancelled : g.cancelled = true → g.failure ≠ none

theorem Fits.mono {phase : Phase ε} (h : Fits tasks g i phase) (hresult : g'.results[i]? = g.results[i]?)
    (hfailure : g.failure ≠ none → g'.failure ≠ none) : Fits tasks g' i phase := by
  have hholds (hold : Holds tasks g i) : Holds tasks g' i := by
    obtain ⟨a, htask, ha⟩ := hold
    exact ⟨a, htask, hresult.trans ha⟩
  match phase, h with
  | .waiting, _ | .started, _ | .working, _ => trivial
  | .returned none, h => exact hholds h
  | .returned (some (.task e)), h => exact h
  | .returned (some .cancelled), h => exact hfailure h
  | .cancelling, h => exact hfailure h
  | .gone, h => exact h.imp hholds hfailure

theorem start_sound (tasks : List (Except ε α)) (blank : α) : Sound tasks (start tasks.length blank) where
  phases_length := by simp [start]
  results_length := by simp [start]
  fits {i phase} h := by
    have hmem : phase ∈ List.replicate tasks.length Phase.waiting := List.mem_of_getElem? h
    rw [List.eq_of_mem_replicate hmem]
    trivial
  failure_task h := by simp [start] at h
  failure_of_cancelled h := by simp [start] at h

/-- A step of one worker keeps the group sound if it changes no result of another worker, forgets no failure, and
brings the worker into a phase that fits. -/
theorem Sound.after (h : Sound tasks g) {phase : Phase ε} (hphases : g'.phases = g.phases.set i phase)
    (hlength : g'.results.length = g.results.length) (hresults : ∀ j ≠ i, g'.results[j]? = g.results[j]?)
    (hfailure : g.failure ≠ none → g'.failure ≠ none) (hfits : Fits tasks g' i phase)
    (htask : ∀ stop, g'.failure = some stop → ∃ e, stop = .task e ∧ .error e ∈ tasks)
    (hcancelled : g'.cancelled = true → g'.failure ≠ none) : Sound tasks g' where
  phases_length := by rw [hphases, List.length_set, h.phases_length]
  results_length := by rw [hlength, h.results_length]
  fits {j other} hj := by
    rw [hphases, List.getElem?_set] at hj
    by_cases hij : i = j
    · subst hij
      rw [if_pos rfl] at hj
      split at hj
      · obtain rfl := Option.some.inj hj
        exact hfits
      · cases hj
    · rw [if_neg hij] at hj
      exact (h.fits hj).mono (hresults j (Ne.symm hij)) hfailure
  failure_task hstop := htask _ hstop
  failure_of_cancelled := hcancelled

theorem Sound.enter (h : Sound tasks g) {phase : Phase ε} (hfits : Fits tasks g i phase) :
    Sound tasks (g.enter i phase) :=
  h.after rfl rfl (fun _ _ => rfl) id (hfits.mono rfl id) (fun _ hstop => h.failure_task hstop) h.failure_of_cancelled

theorem Sound.step (h : Sound tasks g) (hstep : Step tasks limit g g') : Sound tasks g' := by
  cases hstep with
  | launch _ _ _ => exact h.enter trivial
  | proceed _ _ => exact h.enter trivial
  | giveUp _ hcancelled => exact h.enter (h.failure_of_cancelled hcancelled)
  | @succeed i a hphase htask =>
    have hi : i < g.results.length := by
      rw [h.results_length]
      exact (List.getElem?_eq_some_iff.mp htask).1
    refine h.after rfl (by simp) (fun j hj => ?_) id ⟨a, htask, ?_⟩ (fun _ hstop => h.failure_task hstop)
      h.failure_of_cancelled
    · simp [Ne.symm hj]
    · simp [hi]
  | fail _ htask => exact h.enter htask
  | leave hphase => exact h.enter (.inl (h.fits hphase))
  | @report i stop hphase hnone =>
    have hstop : ∃ e, stop = .task e ∧ .error e ∈ tasks := by
      cases stop with
      | task e => exact ⟨e, rfl, List.mem_of_getElem? (h.fits hphase)⟩
      | cancelled => exact absurd hnone (h.fits hphase)
    refine h.after rfl rfl (fun _ _ => rfl) (fun _ => by simp) (by simp [Fits]) (fun other hother => ?_) (fun _ => by simp)
    obtain rfl := Option.some.inj hother
    exact hstop
  | reportLate _ hsome => exact h.enter (.inr hsome)
  | cancel hphase =>
    have hfailed : g.failure ≠ none := h.fits hphase
    exact h.after rfl rfl (fun _ _ => rfl) id (.inr hfailed) (fun _ hstop => h.failure_task hstop) (fun _ => hfailed)

theorem Run.sound {n : Nat} (h : Run tasks limit blank n g) : Sound tasks g := by
  induction h with
  | start => exact start_sound tasks blank
  | step _ hstep ih => exact ih.step hstep

theorem Sound.step_of_active (h : Sound tasks g) (limit : Nat) {phase : Phase ε} (hphase : g.phases[i]? = some phase)
    (hactive : phase.isActive = true) : ∃ g', Step tasks limit g g' := by
  match phase, hphase with
  | .waiting, _ => simp [Phase.isActive] at hactive
  | .gone, _ => simp [Phase.isActive] at hactive
  | .started, hphase =>
    cases hcancelled : g.cancelled with
    | true => exact ⟨_, .giveUp hphase hcancelled⟩
    | false => exact ⟨_, .proceed hphase hcancelled⟩
  | .working, hphase =>
    have hi : i < tasks.length := by
      rw [← h.phases_length]
      exact (List.getElem?_eq_some_iff.mp hphase).1
    have htask : tasks[i]? = some tasks[i] := List.getElem?_eq_getElem hi
    cases hresult : tasks[i] with
    | ok a => exact ⟨_, .succeed hphase (hresult ▸ htask)⟩
    | error e => exact ⟨_, .fail hphase (hresult ▸ htask)⟩
  | .returned none, hphase => exact ⟨_, .leave hphase⟩
  | .returned (some stop), hphase =>
    by_cases hnone : g.failure = none
    · exact ⟨_, .report hphase hnone⟩
    · exact ⟨_, .reportLate hphase hnone⟩
  | .cancelling, hphase => exact ⟨_, .cancel hphase⟩

theorem Sound.progress (h : Sound tasks g) (hlimit : 0 < limit) : g.Finished ∨ ∃ g', Step tasks limit g g' := by
  by_cases hactive : ∃ (i : Nat) (phase : Phase ε), g.phases[i]? = some phase ∧ phase.isActive = true
  · obtain ⟨i, phase, hphase, hphaseActive⟩ := hactive
    exact .inr (h.step_of_active limit hphase hphaseActive)
  · simp only [not_exists, not_and] at hactive
    by_cases hwaiting : ∃ i : Nat, g.phases[i]? = some .waiting
    · -- nobody is under way, so there is room for the first worker that waits
      classical
      have hroom : g.active = 0 := by
        rw [active, List.countP_eq_zero]
        intro phase hmem
        obtain ⟨i, hi⟩ := List.mem_iff_getElem?.mp hmem
        exact hactive i phase hi
      exact .inr ⟨_, .launch (Nat.find_spec hwaiting) (fun j hj => Nat.find_min hwaiting hj) (hroom ▸ hlimit)⟩
    · left
      intro phase hmem
      obtain ⟨i, hi⟩ := List.mem_iff_getElem?.mp hmem
      have hidle := hactive i phase hi
      match phase, hi with
      | .gone, _ => rfl
      | .waiting, hi => exact absurd ⟨i, hi⟩ hwaiting
      | .started, _ | .working, _ | .returned _, _ | .cancelling, _ => simp [Phase.isActive] at hidle

theorem Sound.holds_of_finished (h : Sound tasks g) (hfinished : g.Finished) (hi : i < tasks.length) :
    Holds tasks g i ∨ g.failure ≠ none := by
  have hi' : i < g.phases.length := by rwa [h.phases_length]
  have hphase : g.phases[i]? = some g.phases[i] := List.getElem?_eq_getElem hi'
  rw [hfinished g.phases[i] (List.getElem_mem hi')] at hphase
  exact h.fits hphase

theorem Sound.outcome_ok (h : Sound tasks g) (hfinished : g.Finished) {values : List α}
    (hvalues : tasks = values.map .ok) : g.outcome = .ok values := by
  have hnone : g.failure = none := by
    by_contra hsome
    obtain ⟨stop, hstop⟩ := Option.ne_none_iff_exists'.mp hsome
    obtain ⟨e, -, he⟩ := h.failure_task hstop
    simp [hvalues] at he
  have hresults : g.results = values := by
    have hlength : tasks.length = values.length := by simp [hvalues]
    apply List.ext_getElem?
    intro i
    by_cases hi : i < tasks.length
    · rcases h.holds_of_finished hfinished hi with ⟨a, htask, ha⟩ | hfailed
      · rw [hvalues, List.getElem?_map] at htask
        rw [ha]
        cases hvalue : values[i]? with
        | none => simp [hvalue] at htask
        | some b => simpa [hvalue] using htask.symm
      · exact absurd hnone hfailed
    · rw [List.getElem?_eq_none (by rw [h.results_length]; omega), List.getElem?_eq_none (by omega)]
  rw [outcome, hnone, hresults]

theorem Sound.outcome_error (h : Sound tasks g) (hfinished : g.Finished) {e : ε} (he : .error e ∈ tasks) :
    ∃ e', .error e' ∈ tasks ∧ g.outcome = .error (.task e') := by
  have hsome : g.failure ≠ none := by
    obtain ⟨i, hi⟩ := List.mem_iff_getElem?.mp he
    rcases h.holds_of_finished hfinished (List.getElem?_eq_some_iff.mp hi).1 with ⟨a, htask, -⟩ | hfailed
    · rw [hi] at htask
      cases htask
    · exact hfailed
  obtain ⟨stop, hstop⟩ := Option.ne_none_iff_exists'.mp hsome
  obtain ⟨e', rfl, hmem⟩ := h.failure_task hstop
  exact ⟨e', hmem, by rw [outcome, hstop]⟩

end Soundness

section OneAtATime

variable {tasks : List (Except ε α)} {blank : α} {g g' : Group α ε}

/-- An error that no task before it has. -/
def IsFirstError (tasks : List (Except ε α)) (stop : Stop ε) : Prop :=
  ∃ before e after, tasks = before ++ .error e :: after ∧ (∀ t ∈ before, ∃ a, t = .ok a) ∧ stop = .task e

/-- With one worker at a time, all workers before one that has started are gone. -/
structure InOrder (tasks : List (Except ε α)) (g : Group α ε) : Prop where
  gone_before : ∀ {i j : Nat} {phase : Phase ε}, j < i → g.phases[i]? = some phase → phase.weight < 5 →
    g.phases[j]? = some .gone
  failure_first : ∀ {stop : Stop ε}, g.failure = some stop → IsFirstError tasks stop

theorem start_inOrder (tasks : List (Except ε α)) (blank : α) : InOrder tasks (start tasks.length blank) where
  gone_before {i j phase} _ hphase hweight := by
    have hmem : phase ∈ List.replicate tasks.length Phase.waiting := List.mem_of_getElem? hphase
    rw [List.eq_of_mem_replicate hmem] at hweight
    simp [Phase.weight] at hweight
  failure_first h := by simp [start] at h

theorem gone_of_idle {i j : Nat} (hidle : g.active < 1) (hfirst : ∀ j < i, g.phases[j]? ≠ some .waiting) (hlt : j < i)
    (hi : i < g.phases.length) : g.phases[j]? = some .gone := by
  have hj : g.phases[j]? = some g.phases[j] := List.getElem?_eq_getElem (by omega)
  have hcount : g.active = 0 := by omega
  have hinactive := List.countP_eq_zero.mp hcount g.phases[j] (List.getElem_mem _)
  have hstarted := hfirst j hlt
  rw [hj] at hstarted ⊢
  cases hphase : g.phases[j] <;> simp_all [Phase.isActive]

theorem InOrder.gone_before_step (h : InOrder tasks g) (hstep : Step tasks 1 g g') {i j : Nat} {phase : Phase ε}
    (hlt : j < i) (hphase : g'.phases[i]? = some phase) (hweight : phase.weight < 5) :
    g'.phases[j]? = some .gone := by
  obtain ⟨m, a, b, ha, hphases, hless, hturn⟩ := hstep.exists_phase
  -- a worker that is gone takes no step
  have hkept (hgone : g.phases[j]? = some .gone) : g'.phases[j]? = some .gone := by
    have hne : m ≠ j := by
      intro heq
      rw [heq, hgone] at ha
      obtain rfl := Option.some.inj ha
      simp [Phase.weight] at hless
    rw [hphases, List.getElem?_set, if_neg hne, hgone]
  apply hkept
  by_cases hmi : m = i
  · subst hmi
    rcases hturn with hunderWay | ⟨hfirst, hroom⟩
    · exact h.gone_before hlt ha hunderWay
    · exact gone_of_idle hroom hfirst hlt (List.getElem?_eq_some_iff.mp ha).1
  · rw [hphases, List.getElem?_set, if_neg hmi] at hphase
    exact h.gone_before hlt hphase hweight

/-- The error of a worker that reports first, all before it being gone, is the first error of the tasks. -/
theorem InOrder.isFirstError (h : InOrder tasks g) (hsound : Sound tasks g) (hnone : g.failure = none) {i : Nat}
    {stop : Stop ε} (hphase : g.phases[i]? = some (.returned (some stop))) : IsFirstError tasks stop := by
  cases stop with
  | cancelled => exact absurd hnone (hsound.fits hphase)
  | task e =>
    have htask : tasks[i]? = some (.error e) := hsound.fits hphase
    obtain ⟨hi, hget⟩ := List.getElem?_eq_some_iff.mp htask
    refine ⟨tasks.take i, e, tasks.drop (i + 1), ?_, fun t ht => ?_, rfl⟩
    · rw [← hget, List.getElem_cons_drop, List.take_append_drop]
    · obtain ⟨j, hj⟩ := List.mem_iff_getElem?.mp ht
      have hlt : j < i := by
        have hlength := (List.getElem?_eq_some_iff.mp hj).1
        rw [List.length_take] at hlength
        omega
      rw [List.getElem?_take_of_lt hlt] at hj
      rcases hsound.fits (h.gone_before hlt hphase (by simp [Phase.weight])) with ⟨a, ha, -⟩ | hfailed
      · exact ⟨a, Option.some.inj (hj.symm.trans ha)⟩
      · exact absurd hnone hfailed

theorem InOrder.step (h : InOrder tasks g) (hsound : Sound tasks g) (hstep : Step tasks 1 g g') : InOrder tasks g' where
  gone_before hlt hphase hweight := h.gone_before_step hstep hlt hphase hweight
  failure_first {stop} hstop := by
    cases hstep with
    | report hphase hnone =>
      obtain rfl := Option.some.inj hstop
      exact h.isFirstError hsound hnone hphase
    | _ => exact h.failure_first hstop

theorem Run.inOrder {n : Nat} (h : Run tasks 1 blank n g) : InOrder tasks g := by
  induction h with
  | start => exact start_inOrder tasks blank
  | step hrun hstep ih => exact ih.step hrun.sound hstep

end OneAtATime

end Group

end TreeWalk
