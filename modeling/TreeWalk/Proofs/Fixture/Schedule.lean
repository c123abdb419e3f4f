import TreeWalk.Fixture.Run
import TreeWalk.Proofs.Files.Search
import TreeWalk.Proofs.Files.Tree
import TreeWalk.Proofs.Fixture.Group

/-!
# Fixtures and schedules

The fixtures below a directory are run by a group of workers. Whatever the order in which the workers get on, the
results are those of running the fixtures one after the other; and if a fixture cannot be run, an error says so of one
such fixture, which is the first one if there is only one worker at a time.
-/

namespace TreeWalk

namespace Entry

theorem mem_fixturesBelow {path dir : String} {entries : List (String × Entry)} (h : dir ∈ fixturesBelow path entries) :
    ∃ p ∈ entries, dir ∈ p.2.fixtures (Path.join [path, p.1]) := by
  induction entries with
  | nil => simp [fixturesBelow] at h
  | cons p entries ih =>
    rw [fixturesBelow, List.mem_append] at h
    rcases h with h | h
    · split at h
      · simp at h
      · exact ⟨p, by simp, h⟩
    · obtain ⟨q, hq, hdir⟩ := ih h
      exact ⟨q, by simp [hq], hdir⟩

end Entry

theorem Entry.mem_fixtures {e : Entry} (h : e.WellNamed) {root dir : String} (hdir : dir ∈ e.fixtures root) :
    ∃ way : List String, (∀ n ∈ way, Path.IsName n) ∧ dir = Path.descend root way := by
  induction h generalizing root with
  | file content => simp [fixtures] at hdir
  | @directory entries hnames _ ih =>
    rw [fixtures, List.mem_append] at hdir
    rcases hdir with hdir | hdir
    · split at hdir
      · exact ⟨[], by simp, List.mem_singleton.mp hdir⟩
      · simp at hdir
    · obtain ⟨p, hp, hbelow⟩ := mem_fixturesBelow hdir
      obtain ⟨way, hway, rfl⟩ := ih p hp hbelow
      refine ⟨p.1 :: way, fun n hn => ?_, rfl⟩
      rcases List.mem_cons.mp hn with rfl | hn
      · exact hnames p hp
      · exact hway n hn

theorem Files.mem_discoverFixtures {f : Files} (hf : f.root.WellNamed) {root : String} {dirs : List String}
    (h : f.discoverFixtures root = .ok dirs) {dir : String} (hdir : dir ∈ dirs) :
    ∃ way : List String, (∀ n ∈ way, Path.IsName n) ∧ dir = Path.descend root way := by
  rw [discoverFixtures, searchRoot] at h
  cases hfind : f.find root with
  | error cause => simp [hfind, bind, Except.bind] at h
  | ok e =>
    obtain ⟨place, hplace⟩ := exists_at?_of_find hfind
    simp only [hfind, bind, Except.bind, pure, Except.pure, Except.ok.injEq] at h
    rw [← h, sortPaths, List.mem_mergeSort] at hdir
    exact Entry.mem_fixtures (hf.of_at? hplace) hdir

namespace Fixture

/-- What a worker does with a directory: the result gets the name that the fixture has below `root`, and an error that
of the directory. -/
def attempt (f : Files) (depth : Int) (root dir : String) : Except FixtureError FixtureResult :=
  match (run f depth dir).1 with
  | .ok r => .ok { r with name := nameIn root r }
  | .error e => .error (.inFixture dir e)

def blank : FixtureResult := ⟨"", "", "", false, [], none, Store.empty, []⟩

/-- The number of workers that may be under way together if `jobs` are asked for. -/
def workers (jobs : Int) : Nat := if jobs ≤ 0 then 1 else jobs.toNat

/-- The result of a fixture, other than for its name what it is on its own. -/
def IsResult (f : Files) (depth : Int) (root dir : String) (result : FixtureResult) : Prop :=
  ∃ (alone : FixtureResult) (way : List String), (run f depth dir).1 = .ok alone ∧ (∀ n ∈ way, Path.IsName n) ∧
    dir = Path.descend root way ∧
    result = { alone with name := if way = [] then Path.base root else "/".intercalate way }

section

variable {f : Files} {depth : Int} {root dir : String}

theorem dir_of_run {r : FixtureResult} (h : (run f depth dir).1 = .ok r) : r.name = Path.base dir ∧ r.dir = dir := by
  unfold run runBy at h
  split at h
  · cases h
  · split at h
    · obtain rfl := Except.ok.inj h
      exact ⟨rfl, rfl⟩
    · split at h
      · cases h
      · obtain rfl := Except.ok.inj h
        exact ⟨rfl, rfl⟩

theorem nameIn_descend {r : FixtureResult} {way : List String} (hway : ∀ n ∈ way, Path.IsName n)
    (hname : r.name = Path.base r.dir) (hdir : r.dir = Path.descend root way) :
    nameIn root r = if way = [] then Path.base root else "/".intercalate way := by
  rw [nameIn, hdir, Path.relative?_descend root hway]
  by_cases hne : way = []
  · subst hne
    rw [if_pos rfl, hname, hdir]
    rfl
  · have hsome : Path.ofNames false way = "/".intercalate way := by simp [Path.ofNames, hne]
    dsimp only
    rw [if_neg (Path.ofNames_ne_dot hne hway), if_neg hne, hsome]

theorem attempt_eq_ok {result : FixtureResult} : attempt f depth root dir = .ok result ↔
    ∃ r, (run f depth dir).1 = .ok r ∧ result = { r with name := nameIn root r } := by
  rw [attempt]
  cases (run f depth dir).1 with
  | error e => simp
  | ok r => simp [eq_comm]

theorem attempt_eq_error {e : FixtureError} : attempt f depth root dir = .error e ↔
    ∃ e', (run f depth dir).1 = .error e' ∧ e = .inFixture dir e' := by
  rw [attempt]
  cases (run f depth dir).1 with
  | error e' => simp [eq_comm]
  | ok r => simp

theorem isResult_of_attempt {way : List String} (hway : ∀ n ∈ way, Path.IsName n) (hdir : dir = Path.descend root way)
    {result : FixtureResult} (h : attempt f depth root dir = .ok result) : IsResult f depth root dir result := by
  obtain ⟨r, hr, rfl⟩ := attempt_eq_ok.mp h
  obtain ⟨hname, hself⟩ := dir_of_run hr
  refine ⟨r, way, hr, hway, hdir, ?_⟩
  rw [nameIn_descend hway (hself.symm ▸ hname) (hself.trans hdir)]

theorem runEach_cons (dirs : List String) : (runEach f depth root (dir :: dirs)).1 =
    match attempt f depth root dir with
    | .ok result => (runEach f depth root dirs).1.map (result :: ·)
    | .error e => .error e := by
  rw [runEach, attempt]
  cases hrun : run f depth dir with
  | mk outcome log => cases outcome <;> rfl

theorem runEach_eq_ok {dirs : List String} {results : List FixtureResult}
    (h : dirs.map (attempt f depth root) = results.map .ok) : (runEach f depth root dirs).1 = .ok results := by
  induction dirs generalizing results with
  | nil =>
    obtain rfl : results = [] := by simpa using h.symm
    rfl
  | cons dir dirs ih =>
    obtain ⟨result, results, rfl⟩ := List.exists_cons_of_ne_nil (l := results) (by rintro rfl; simp at h)
    simp only [List.map_cons, List.cons.injEq] at h
    rw [runEach_cons, h.1, ih h.2]
    rfl

theorem runEach_eq_error {before after : List String} {e : FixtureError} (h : attempt f depth root dir = .error e)
    (hbefore : ∀ d ∈ before, ∃ r, attempt f depth root d = .ok r) :
    (runEach f depth root (before ++ dir :: after)).1 = .error e := by
  induction before with
  | nil => rw [List.nil_append, runEach_cons, h]
  | cons d before ih =>
    obtain ⟨r, hr⟩ := hbefore d (by simp)
    rw [List.cons_append, runEach_cons, hr, ih (fun d hd => hbefore d (by simp [hd]))]
    rfl

theorem workers_pos (jobs : Int) : 0 < workers jobs := by
  unfold workers
  split <;> omega

theorem workers_eq_one {jobs : Int} (h : jobs ≤ 1) : workers jobs = 1 := by
  unfold workers
  split <;> omega

theorem exists_results {dirs : List String} {P : String → FixtureResult → Prop}
    (h : ∀ dir ∈ dirs, ∃ result, attempt f depth root dir = .ok result ∧ P dir result) :
    ∃ results : List FixtureResult, dirs.map (attempt f depth root) = results.map .ok ∧ List.Forall₂ P dirs results := by
  induction dirs with
  | nil => exact ⟨[], rfl, .nil⟩
  | cons dir dirs ih =>
    obtain ⟨result, hresult, hP⟩ := h dir (by simp)
    obtain ⟨results, hresults, hall⟩ := ih (fun d hd => h d (by simp [hd]))
    exact ⟨result :: results, by simp [hresult, hresults], .cons hP hall⟩

theorem exists_first {dirs : List String} {stop : Stop FixtureError}
    (h : Group.IsFirstError (dirs.map (attempt f depth root)) stop) :
    ∃ before dir after e, dirs = before ++ dir :: after ∧ (run f depth dir).1 = .error e ∧
      stop = .task (.inFixture dir e) ∧ ∀ d ∈ before, ∃ r, attempt f depth root d = .ok r := by
  obtain ⟨first, e, rest, htasks, hok, rfl⟩ := h
  obtain ⟨before, others, rfl, rfl, hothers⟩ := List.map_eq_append_iff.mp htasks
  obtain ⟨dir, after, rfl, herror, -⟩ := List.map_eq_cons_iff.mp hothers
  obtain ⟨e', hrun, rfl⟩ := attempt_eq_error.mp herror
  exact ⟨before, dir, after, e', rfl, hrun, rfl, fun d hd => hok _ (List.mem_map_of_mem hd)⟩

end

/-- However the workers that run the fixtures below a directory get on, all comes to an end. If every fixture can be
run, the results are there one for each directory, in order and each as of its fixture alone, and are those of running
the fixtures in order. Otherwise an error says of one fixture why it cannot be run; with one worker at a time it is the
first such fixture. -/
theorem runAll_ignores_schedule (f : Files) (hf : f.root.WellNamed) (depth jobs : Int) (root : String)
    (dirs : List String) (hdirs : f.discoverFixtures root = .ok dirs) :
    (∀ n g, Group.Run (dirs.map (attempt f depth root)) (workers jobs) blank n g →
      n ≤ 5 * dirs.length ∧
      (g.Finished ∨ ∃ g', Group.Step (dirs.map (attempt f depth root)) (workers jobs) g g')) ∧
    ∀ n g, Group.Run (dirs.map (attempt f depth root)) (workers jobs) blank n g → g.Finished →
      ((∀ dir ∈ dirs, ∃ r, (run f depth dir).1 = .ok r) →
        ∃ results, g.outcome = .ok results ∧ (runAll f depth root).1 = .ok results ∧
          List.Forall₂ (IsResult f depth root) dirs results) ∧
      ((∃ dir ∈ dirs, ∃ e, (run f depth dir).1 = .error e) →
        ∃ before dir after e, dirs = before ++ dir :: after ∧ (run f depth dir).1 = .error e ∧
          g.outcome = .error (.task (.inFixture dir e)) ∧
          (jobs ≤ 1 → (∀ d ∈ before, ∃ r, (run f depth d).1 = .ok r) ∧
            (runAll f depth root).1 = .error (.inFixture dir e))) := by
  have hall : (runAll f depth root).1 = (runEach f depth root dirs).1 := by rw [runAll, hdirs]
  refine ⟨fun n g hrun => ⟨?_, hrun.sound.progress (workers_pos jobs)⟩, fun n g hrun hfinished => ⟨fun hok => ?_, ?_⟩⟩
  · have hlength := hrun.length_le
    rw [List.length_map] at hlength
    omega
  · have hresult (dir : String) (hmem : dir ∈ dirs) :
        ∃ result, attempt f depth root dir = .ok result ∧ IsResult f depth root dir result := by
      obtain ⟨r, hr⟩ := hok dir hmem
      obtain ⟨way, hway, hdir⟩ := Files.mem_discoverFixtures hf hdirs hmem
      have hattempt : attempt f depth root dir = .ok { r with name := nameIn root r } := attempt_eq_ok.mpr ⟨r, hr, rfl⟩
      exact ⟨_, hattempt, isResult_of_attempt hway hdir hattempt⟩
    obtain ⟨results, htasks, hresults⟩ := exists_results hresult
    exact ⟨results, hrun.sound.outcome_ok hfinished htasks, hall.trans (runEach_eq_ok htasks), hresults⟩
  · rintro ⟨dir, hmem, e, he⟩
    have herror : .error (.inFixture dir e) ∈ dirs.map (attempt f depth root) :=
      List.mem_map.mpr ⟨dir, hmem, attempt_eq_error.mpr ⟨e, he, rfl⟩⟩
    obtain ⟨reported, hreported, houtcome⟩ := hrun.sound.outcome_error hfinished herror
    by_cases hjobs : jobs ≤ 1
    · rw [workers_eq_one hjobs] at hrun
      have hfirst : Group.IsFirstError (dirs.map (attempt f depth root)) (.task reported) := by
        apply hrun.inOrder.failure_first
        rw [Group.outcome] at houtcome
        split at houtcome
        · next stop hstop => rw [hstop, Except.error.inj houtcome]
        · cases houtcome
      obtain ⟨before, first, after, e', rfl, hrunFirst, hstop, hbefore⟩ := exists_first hfirst
      rw [hstop] at houtcome
      refine ⟨before, first, after, e', rfl, hrunFirst, houtcome, fun _ => ⟨fun d hd => ?_, ?_⟩⟩
      · obtain ⟨result, hattempt⟩ := hbefore d hd
        obtain ⟨r, hr, -⟩ := attempt_eq_ok.mp hattempt
        exact ⟨r, hr⟩
      · exact hall.trans (runEach_eq_error (attempt_eq_error.mpr ⟨e', hrunFirst, rfl⟩) hbefore)
    · obtain ⟨failing, hfailing, hattempt⟩ := List.mem_map.mp hreported
      obtain ⟨e', he', rfl⟩ := attempt_eq_error.mp hattempt
      obtain ⟨before, after, rfl⟩ := List.append_of_mem hfailing
      exact ⟨before, failing, after, e', rfl, he', houtcome, fun h => absurd h hjobs⟩

def twoBroken : Files :=
  ⟨.directory [("a", .directory [("program.json", .directory [])]), ("b", .directory [("program.json", .directory [])])],
    []⟩

def unreadable (dir : String) : FixtureError := .program (.unreadable ⟨"read", dir ++ "/program.json", .isDirectory⟩)

/-- With two workers, that of the second fixture can report first; its error is then the one that is given. -/
theorem runAll_ignores_schedule_secondFirst :
    twoBroken.root.WellNamed ∧ twoBroken.discoverFixtures "." = .ok ["a", "b"] ∧
    ∃ n g, Group.Run (["a", "b"].map (attempt twoBroken 0 ".")) (workers 2) blank n g ∧ n ≤ 5 * 2 ∧ g.Finished ∧
      g.outcome = .error (.task (.inFixture "b" (unreadable "b"))) ∧
      ∃ before dir after e, ["a", "b"] = before ++ dir :: after ∧ (run twoBroken 0 dir).1 = .error e ∧
        g.outcome = .error (.task (.inFixture dir e)) := by
  have hnamed : twoBroken.root.WellNamed := by
    have hempty : (Entry.directory []).WellNamed := .directory (by simp) (by simp)
    have hprogram : (Entry.directory [("program.json", .directory [])]).WellNamed :=
      .directory (by decide) (by simp [hempty])
    exact .directory (by decide) (by simp [hprogram])
  have hfind : twoBroken.find "." = .ok twoBroken.root := rfl
  have hfixtures : twoBroken.root.fixtures "." = ["a", "b"] := by decide +kernel
  have hfound : twoBroken.discoverFixtures "." = .ok ["a", "b"] := by
    rw [Files.discoverFixtures_eq hfind, hfixtures, sortPaths, List.mergeSort_of_pairwise (by decide +kernel)]
  have ha : attempt twoBroken 0 "." "a" = .error (.inFixture "a" (unreadable "a")) := attempt_eq_error.mpr ⟨_, rfl, rfl⟩
  have hb : attempt twoBroken 0 "." "b" = .error (.inFixture "b" (unreadable "b")) := attempt_eq_error.mpr ⟨_, rfl, rfl⟩
  have hready : Group.Run (["a", "b"].map (attempt twoBroken 0 ".")) (workers 2) blank 4
      ⟨[.working, .working], [blank, blank], none, false⟩ :=
    .step (.step (.step (.step .start (.launch (i := 0) rfl (by simp) (by decide)))
      (.launch (i := 1) rfl (by simp [Group.start, Group.enter]) (by decide))) (.proceed (i := 0) rfl rfl))
      (.proceed (i := 1) rfl rfl)
  have hover := Group.Run.step (.step hready (.fail (i := 1) rfl (congrArg some hb)))
    (.fail (i := 0) rfl (congrArg some ha))
  let g : Group FixtureResult FixtureError :=
    ⟨[.gone, .gone], [blank, blank], some (.task (.inFixture "b" (unreadable "b"))), true⟩
  have hrun : Group.Run (["a", "b"].map (attempt twoBroken 0 ".")) (workers 2) blank 9 g :=
    .step (.step (.step hover (.report (i := 1) rfl rfl)) (.reportLate (i := 0) rfl (by simp))) (.cancel (i := 1) rfl)
  have hfinished : g.Finished := by simp [g, Group.Finished]
  obtain ⟨hends, hgives⟩ := runAll_ignores_schedule twoBroken hnamed 0 2 "." ["a", "b"] hfound
  obtain ⟨before, dir, after, e, hsplit, herror, houtcome, -⟩ := (hgives _ _ hrun hfinished).2 ⟨"a", by simp, _, rfl⟩
  exact ⟨hnamed, hfound, 9, g, hrun, (hends _ _ hrun).1, hfinished, rfl, before, dir, after, e, hsplit, herror, houtcome⟩

end Fixture

end TreeWalk
