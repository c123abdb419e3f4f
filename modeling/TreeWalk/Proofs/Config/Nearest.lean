import Mathlib.Data.List.Infix
import Mathlib.Logic.Function.Iterate
import TreeWalk.Config.Load
import TreeWalk.Proofs.Files.Tree

/-!
# The nearest configuration file

The search for a configuration file climbs from a directory to the root, which is its own parent and ends the climb. It
stops at the first directory with a file of that name; a directory of that name is passed.
-/

namespace TreeWalk

namespace Path

/-- The directories from a path upward: the path, and what is above its parent. -/
inductive Upward : String → String → Prop
  | here (path : String) : Upward path path
  | up {path above : String} (h : Upward (parent path) above) : Upward path above

theorem upward_ofNames_iff {ns : List String} (h : ∀ n ∈ ns, IsName n) {above : String} :
    Upward (ofNames true ns) above ↔ ∃ ms, ms <+: ns ∧ above = ofNames true ms := by
  constructor
  · intro hup
    generalize hpath : ofNames true ns = path at hup
    induction hup generalizing ns with
    | here => exact ⟨ns, List.prefix_refl ns, hpath.symm⟩
    | up _ ih =>
      have hparent := parent_ofNames h
      obtain ⟨ms, hms, rfl⟩ := ih (fun n hn => h n ((List.dropLast_sublist ns).mem hn)) (by rw [← hpath, hparent])
      exact ⟨ms, hms.trans (List.dropLast_prefix ns), rfl⟩
  · rintro ⟨ms, hms, rfl⟩
    induction ns using List.reverseRecOn with
    | nil =>
      rw [List.prefix_nil.mp hms]
      exact .here _
    | append_singleton ns n ih =>
      rcases List.prefix_concat_iff.mp hms with rfl | hms
      · exact .here _
      · apply Upward.up
        rw [parent_ofNames h, List.dropLast_concat]
        exact ih (fun m hm => h m (by simp [hm])) hms

end Path

namespace Config

/-- The directory in which the search from a path starts: the path as seen from the root, or the directory around it if
what is there is no directory. -/
def startPath (f : Files) (start : String) : String :=
  let path := Path.absolute f.workDir start
  if f.holdsFile (Path.names path) then Path.parent path else path

/-- There is a configuration file in a directory. -/
def HasFile (f : Files) (directory : String) : Prop := f.holdsFile (Path.names directory ++ [fileName]) = true

/-- A directory has a configuration file, and of those from `start` upward it is the deepest one that has. -/
structure IsNearest (f : Files) (start directory : String) : Prop where
  upward : Path.Upward start directory
  hasFile : HasFile f directory
  deepest : ∀ other, Path.Upward start other → HasFile f other → Path.Upward directory other

/-- A search for a configuration file under way: it looks in a directory next, or it has ended. -/
inductive Climb where
  | looking (directory : String)
  | ended (found : Option String)

/-- One turn of the search: a file is found, or the root is left behind, or the parent is next. -/
def Climb.step (f : Files) : Climb → Climb
  | looking directory =>
    if f.isFile (Path.join [directory, fileName]) then ended (some (Path.join [directory, fileName]))
    else if Path.parent directory = directory then ended none
    else looking (Path.parent directory)
  | ended found => ended found

section Places

variable {f : Files} {ns : List String}

theorem isName_fileName : Path.IsName fileName := by decide

theorem fileIn_eq_join (h : ∀ n ∈ ns, Path.IsName n) : fileIn ns = Path.join [Path.ofNames true ns, fileName] := by
  rw [fileIn, Path.join_name _ isName_fileName, Path.isAbsolute_ofNames (.of_isName h),
    Path.names_ofNames (.of_isName h)]

theorem isFile_fileIn (h : ∀ n ∈ ns, Path.IsName n) : f.isFile (fileIn ns) = f.holdsFile (ns ++ [fileName]) := by
  apply Files.isFile_ofNames _ (by simp)
  intro n hn
  rcases List.mem_append.mp hn with hn | hn
  · exact h n hn
  · exact List.mem_singleton.mp hn ▸ isName_fileName

theorem hasFile_ofNames (h : ∀ n ∈ ns, Path.IsName n) :
    HasFile f (Path.ofNames true ns) ↔ f.isFile (fileIn ns) = true := by
  rw [HasFile, Path.names_ofNames (.of_isName h), isFile_fileIn h]

theorem mem_upward {stack ns : List String} : ns ∈ upward stack ↔ ns <+: stack.reverse := by
  induction stack with
  | nil => simp [upward]
  | cons n above ih => rw [upward, List.mem_cons, List.reverse_cons, List.prefix_concat_iff, ih]

theorem find?_upward (p : List String → Bool) (stack found : List String) : (upward stack).find? p = some found ↔
    found <+: stack.reverse ∧ p found = true ∧ ∀ other, other <+: stack.reverse → p other = true → other <+: found := by
  induction stack with
  | nil =>
    constructor
    · intro hfind
      have hnil : found = [] := by simpa [upward] using List.mem_of_find?_eq_some hfind
      have hp : p found = true := List.find?_some hfind
      subst hnil
      exact ⟨List.prefix_refl _, hp, fun other hother _ => hother⟩
    · rintro ⟨hfound, hp, -⟩
      obtain rfl : found = [] := by simpa using hfound
      simp [upward, hp]
  | cons n above ih =>
    rw [upward, List.find?_cons]
    by_cases hp : p (n :: above).reverse = true
    · rw [hp]
      constructor
      · rintro ⟨⟩
        exact ⟨List.prefix_refl _, hp, fun other hother _ => hother⟩
      · rintro ⟨hfound, -, hdeepest⟩
        have hself := hdeepest _ (List.prefix_refl _) hp
        rw [hself.eq_of_length_le hfound.length_le]
    · -- the directory itself is none with the property, so that those above it are left
      have habove {ns : List String} (hns : p ns = true) : ns <+: (n :: above).reverse ↔ ns <+: above.reverse := by
        rw [List.reverse_cons, List.prefix_concat_iff, ← List.reverse_cons]
        exact or_iff_right fun heq => hp (heq ▸ hns)
      rw [Bool.not_eq_true] at hp
      rw [hp]
      refine ih.trans ⟨?_, ?_⟩
      · rintro ⟨hfound, hpfound, hdeepest⟩
        exact ⟨(habove hpfound).mpr hfound, hpfound, fun other hother hp => hdeepest other ((habove hp).mp hother) hp⟩
      · rintro ⟨hfound, hpfound, hdeepest⟩
        exact ⟨(habove hpfound).mp hfound, hpfound, fun other hother hp => hdeepest other ((habove hp).mpr hother) hp⟩

theorem ofNames_dropLast_eq_iff (h : ∀ n ∈ ns, Path.IsName n) :
    Path.ofNames true ns.dropLast = Path.ofNames true ns ↔ ns = [] := by
  constructor
  · intro heq
    have hdrop : ns.dropLast = ns :=
      Path.ofNames_injective (fun n hn => h n ((List.dropLast_sublist ns).mem hn)) h heq
    have hlength := congrArg List.length hdrop
    rw [List.length_dropLast] at hlength
    exact List.length_eq_zero_iff.mp (by omega)
  · rintro rfl
    rfl

theorem step_looking (h : ∀ n ∈ ns, Path.IsName n) : Climb.step f (.looking (Path.ofNames true ns)) =
    if f.isFile (fileIn ns) then .ended (some (fileIn ns)) else
      if ns = [] then .ended none else .looking (Path.ofNames true ns.dropLast) := by
  rw [Climb.step, ← fileIn_eq_join h]
  simp only [Path.parent_ofNames h, ofNames_dropLast_eq_iff h]

theorem climb_ends (h : ∀ n ∈ ns, Path.IsName n) : (Climb.step f)^[ns.length + 1] (.looking (Path.ofNames true ns)) =
    .ended (((upward ns.reverse).map fileIn).find? f.isFile) := by
  induction ns using List.reverseRecOn with
  | nil =>
    rw [List.length_nil, Function.iterate_one, step_looking h]
    by_cases hfile : f.isFile (fileIn []) <;> simp [upward, hfile]
  | append_singleton ns n ih =>
    have hrest := ih fun m hm => h m (by simp [hm])
    rw [List.length_append, List.length_singleton, Function.iterate_succ_apply, step_looking h, List.reverse_concat,
      upward, List.reverse_cons, List.reverse_reverse, List.map_cons, List.find?_cons]
    by_cases hfile : f.isFile (fileIn (ns ++ [n])) = true
    · simp only [hfile]
      exact Function.iterate_fixed rfl _
    · simpa [hfile] using hrest

theorem isName_above (h : ∀ n ∈ ns, Path.IsName n) {ms : List String} (hms : ms <+: ns) : ∀ m ∈ ms, Path.IsName m :=
  fun m hm => h m (hms.subset hm)

theorem isNearest_iff (h : ∀ n ∈ ns, Path.IsName n) {directory : String} :
    IsNearest f (Path.ofNames true ns) directory ↔
      ∃ ms, (upward ns.reverse).find? (f.isFile ∘ fileIn) = some ms ∧ directory = Path.ofNames true ms := by
  simp only [find?_upward, List.reverse_reverse, Function.comp_apply]
  constructor
  · rintro ⟨hup, hfile, hdeepest⟩
    obtain ⟨ms, hms, rfl⟩ := (Path.upward_ofNames_iff h).mp hup
    have hproper := isName_above h hms
    refine ⟨ms, ⟨hms, (hasFile_ofNames hproper).mp hfile, fun other hother hother' => ?_⟩, rfl⟩
    have hup' : Path.Upward (Path.ofNames true ns) (Path.ofNames true other) :=
      (Path.upward_ofNames_iff h).mpr ⟨other, hother, rfl⟩
    have habove := hdeepest _ hup' ((hasFile_ofNames (isName_above h hother)).mpr hother')
    obtain ⟨ms', hms', heq⟩ := (Path.upward_ofNames_iff hproper).mp habove
    rwa [Path.ofNames_injective (isName_above h hother) (isName_above hproper hms') heq]
  · rintro ⟨ms, ⟨hms, hfile, hdeepest⟩, rfl⟩
    have hproper := isName_above h hms
    refine ⟨(Path.upward_ofNames_iff h).mpr ⟨ms, hms, rfl⟩, (hasFile_ofNames hproper).mpr hfile, ?_⟩
    intro other hup hother
    obtain ⟨ns', hns', rfl⟩ := (Path.upward_ofNames_iff h).mp hup
    have habove := hdeepest ns' hns' ((hasFile_ofNames (isName_above h hns')).mp hother)
    exact (Path.upward_ofNames_iff hproper).mpr ⟨ns', habove, rfl⟩

theorem exists_isNearest_iff (h : ∀ n ∈ ns, Path.IsName n) {path : String} :
    (∃ directory, IsNearest f (Path.ofNames true ns) directory ∧ path = Path.join [directory, fileName]) ↔
      ((upward ns.reverse).map fileIn).find? f.isFile = some path := by
  simp only [isNearest_iff h, List.find?_map, Option.map_eq_some_iff]
  constructor
  · rintro ⟨_, ⟨ms, hfind, rfl⟩, rfl⟩
    have hms : ms <+: ns := by simpa using ((find?_upward _ _ _).mp hfind).1
    exact ⟨ms, hfind, fileIn_eq_join (isName_above h hms)⟩
  · rintro ⟨ms, hfind, rfl⟩
    have hms : ms <+: ns := by simpa using ((find?_upward _ _ _).mp hfind).1
    exact ⟨_, ⟨ms, hfind, rfl⟩, fileIn_eq_join (isName_above h hms)⟩

theorem forall_not_hasFile_iff (h : ∀ n ∈ ns, Path.IsName n) :
    (∀ directory, Path.Upward (Path.ofNames true ns) directory → ¬HasFile f directory) ↔
    ((upward ns.reverse).map fileIn).find? f.isFile = none := by
  rw [List.find?_eq_none]
  constructor
  · intro hnone path hpath
    obtain ⟨ms, hms, rfl⟩ := List.mem_map.mp hpath
    rw [mem_upward, List.reverse_reverse] at hms
    rw [← hasFile_ofNames (isName_above h hms)]
    exact hnone _ ((Path.upward_ofNames_iff h).mpr ⟨ms, hms, rfl⟩)
  · intro hnone directory hup
    obtain ⟨ms, hms, rfl⟩ := (Path.upward_ofNames_iff h).mp hup
    rw [hasFile_ofNames (isName_above h hms)]
    exact hnone _ (List.mem_map_of_mem (mem_upward.mpr (by simpa using hms)))

end Places

theorem startPath_eq (f : Files) (start : String) : (∀ n ∈ startDirectory f start, Path.IsName n) ∧
    startPath f start = Path.ofNames true (startDirectory f start) := by
  obtain ⟨ns, hns, hpath⟩ := Path.exists_absolute_eq f.here start
  have hnames : Path.names (Path.ofNames true ns) = ns := Path.names_ofNames (.of_isName hns)
  have hdrop : ∀ n ∈ ns.dropLast, Path.IsName n := fun n hn => hns n ((List.dropLast_sublist ns).mem hn)
  have hworkDir : f.workDir = Path.ofNames true f.here := rfl
  rw [startPath, startDirectory, hworkDir, hpath, hnames]
  by_cases hne : ns = []
  · subst hne
    simp [Path.parent_ofNames]
  · simp only [Files.isFile_ofNames hns hne]
    split
    · exact ⟨hdrop, Path.parent_ofNames hns⟩
    · exact ⟨hns, rfl⟩

theorem find_eq (f : Files) (start : String) : find f start =
    (((upward (startDirectory f start).reverse).map fileIn).find? f.isFile).elim (.error (.notFound start)) .ok := by
  unfold find
  cases ((upward (startDirectory f start).reverse).map fileIn).find? f.isFile <;> rfl

/-- From every path, the search ends and finds the configuration file of the nearest directory that has one, upward from
where it starts. It fails if there is none. -/
theorem find_nearest (f : Files) (start : String) :
    (∀ path, find f start = .ok path ↔
      ∃ directory, IsNearest f (startPath f start) directory ∧ path = Path.join [directory, fileName]) ∧
    (∀ e, find f start = .error e ↔
      e = .notFound start ∧ ∀ directory, Path.Upward (startPath f start) directory → ¬HasFile f directory) ∧
    (Climb.step f)^[(Path.names (startPath f start)).length + 1] (.looking (startPath f start)) =
      .ended (find f start).toOption := by
  obtain ⟨hns, hroot⟩ := startPath_eq f start
  rw [hroot, Path.names_ofNames (.of_isName hns)]
  refine ⟨fun path => ?_, fun e => ?_, ?_⟩
  · rw [exists_isNearest_iff hns, find_eq]
    cases ((upward (startDirectory f start).reverse).map fileIn).find? f.isFile <;> simp
  · rw [forall_not_hasFile_iff hns, find_eq]
    cases ((upward (startDirectory f start).reverse).map fileIn).find? f.isFile <;> simp [eq_comm]
  · rw [climb_ends hns, find_eq]
    cases ((upward (startDirectory f start).reverse).map fileIn).find? f.isFile <;> rfl

-- A directory with the name of the file is passed on the way to the root.
example : (find ⟨.directory [("rinha.yml", .file .empty), ("a", .directory [("rinha.yml", .directory [])])], ["a"]⟩
    "b").toOption = some "/rinha.yml" := by decide +kernel

end Config

end TreeWalk
