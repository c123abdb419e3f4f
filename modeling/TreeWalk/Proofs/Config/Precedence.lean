import TreeWalk.Command.Run
import TreeWalk.Proofs.Command.Flag
import TreeWalk.Proofs.Files.Path

/-!
# Which source of a setting counts

A setting may be given by a flag, by a variable of the process, by a file of variables, and by a configuration file. The
first of these that gives it decides, and a default decides where none does. This is so for any way to read the files
and the flags. A configuration that comes into effect has no faults, so that the interpreter takes its depth as it is.
-/

namespace TreeWalk

namespace Variables

section Load

def isSettable (p : String × String) : Bool := p.1 ≠ "" && '\x00' ∉ p.2.toList

theorem lookup_load (vars file : Variables) (name : String) :
    (vars.load file).lookup name = (vars.lookup name).or ((file.filter isSettable).lookup name) := by
  induction file generalizing vars with
  | nil => simp [load]
  | cons p file ih =>
    obtain ⟨first, value⟩ := p
    have hstep : vars.load ((first, value) :: file) =
        load (if first = "" || '\x00' ∈ value.toList || (vars.lookup first).isSome then vars
          else vars ++ [(first, value)]) file := rfl
    rw [hstep, ih]
    by_cases hset : isSettable (first, value) = true
    · have hset' : (first = "" || '\x00' ∈ value.toList) = false := by
        simpa [isSettable, not_or] using hset
      rw [List.filter_cons_of_pos hset, hset', Bool.false_or, List.lookup_cons]
      by_cases hfirst : name = first
      · subst hfirst
        cases hlookup : vars.lookup name <;> simp [hlookup, List.lookup_append]
      · have hname : (name == first) = false := beq_eq_false_iff_ne.mpr hfirst
        rw [hname]
        split
        · rfl
        · simp [List.lookup_append, List.lookup_cons, hname]
    · have hset' : (first = "" || '\x00' ∈ value.toList) = true := by
        simpa [isSettable, imp_iff_not_or] using hset
      rw [List.filter_cons_of_neg hset, hset', Bool.true_or, if_pos rfl]

theorem lookup_filter {vars : Variables} (h : (vars.map Prod.fst).Nodup) (p : String × String → Bool) (name : String) :
    (vars.filter p).lookup name = (vars.lookup name).filter fun value => p (name, value) := by
  induction vars with
  | nil => rfl
  | cons q vars ih =>
    obtain ⟨first, value⟩ := q
    obtain ⟨hnew, hrest⟩ := List.nodup_cons.mp h
    by_cases hfirst : name = first
    · subst hfirst
      have hnone : vars.lookup name = none := by
        rw [List.lookup_eq_none_iff]
        intro q hq
        rw [bne_iff_ne]
        intro heq
        exact hnew (List.mem_map.mpr ⟨q, hq, heq.symm⟩)
      rw [List.lookup_cons_self, Option.filter_some]
      by_cases hp : p (name, value) = true
      · rw [List.filter_cons_of_pos hp, List.lookup_cons_self, if_pos hp]
      · rw [List.filter_cons_of_neg hp, ih hrest, hnone, if_neg hp]
        rfl
    · have hname : (name == first) = false := beq_eq_false_iff_ne.mpr hfirst
      rw [List.lookup_cons, hname, ← ih hrest]
      by_cases hp : p (first, value) = true
      · rw [List.filter_cons_of_pos hp, List.lookup_cons, hname]
      · rw [List.filter_cons_of_neg hp]

/-- What a variable says: the value that the process gives it or, where the process does not define it, its value in a
file. An empty value says nothing, nor does one in a file that holds a zero character. -/
def setting? (process file : Variables) (name : String) : Option String :=
  match process.lookup name with
  | some value => if value = "" then none else some value
  | none => (file.lookup name).filter fun value => value ≠ "" && '\x00' ∉ value.toList

theorem filter_lookup_load {process file : Variables} (hfile : (file.map Prod.fst).Nodup) {name : String}
    (hname : name ≠ "") :
    ((process.load file).lookup name).filter (· ≠ "") = setting? process file name := by
  rw [lookup_load, lookup_filter hfile, setting?]
  cases process.lookup name with
  | some value => by_cases hempty : value = "" <;> simp [hempty]
  | none =>
    cases file.lookup name with
    | none => rfl
    | some value =>
      by_cases hempty : value = ""
      · simp [isSettable, hname, hempty, Option.filter_some]
      · by_cases hzero : '\x00' ∈ value.toList <;> simp [isSettable, hname, hempty, hzero, Option.filter_some]

end Load

end Variables

/-- A value that the text of a source gives, if there is one, else the value below. -/
def Overlays {α : Type} (given : Option String) (read : String → Option α) (below v : α) : Prop :=
  match given with
  | some text => read text = some v
  | none => v = below

/-- A value that comes from the first of these that says something: a flag, a variable, and a file; else the default. -/
def Decided {α : Type} (flag : Option String) (readFlag : String → Option α) (setting : Option String)
    (readSetting : String → Option α) (file : Option α) (default v : α) : Prop :=
  match flag, setting, file with
  | some text, _, _ => readFlag text = some v
  | none, some text, _ => readSetting text = some v
  | none, none, some given => v = given
  | none, none, none => v = default

theorem Decided.of_overlays {α : Type} {flag setting : Option String} {readFlag readSetting : String → Option α}
    {file : Option α} {default w v : α} (hsetting : Overlays setting readSetting (file.getD default) w)
    (hflag : Overlays flag readFlag w v) : Decided flag readFlag setting readSetting file default v := by
  cases flag with
  | some text => exact hflag
  | none =>
    have hv : v = w := hflag
    subst hv
    cases setting with
    | some text => exact hsetting
    | none => cases file <;> exact hsetting

namespace Config

/-- A configuration with the settings of variables laid over another, and no fault. -/
structure Overlaid (setting : String → Option String) (c c' : Config) : Prop where
  depth : Overlays (setting depthVariable) (fun raw => (Text.readInt64 raw).toOption) c.maxDepth c'.maxDepth
  level : Overlays (setting levelVariable) some c.logLevel c'.logLevel
  color : Overlays (setting colorVariable) Text.readBool? c.color c'.color
  corpusDir : Overlays (setting corpusDirVariable) some c.corpusDir c'.corpusDir
  rest : c'.path = c.path ∧ c'.fixtures = c.fixtures ∧ c'.corpora = c.corpora
  valid : c'.issues = []

section Overlay

variable {lookup : String → Option String} {c : Config}

theorem overlay_eq (lookup : String → Option String) (name : String) (c : Config)
    (set : Config → String → List ConfigIssue × Config) : overlay lookup name c set =
      match (lookup name).filter (· ≠ "") with
      | some raw => set c raw
      | none => ([], c) := by
  unfold overlay
  cases lookup name with
  | none => rfl
  | some raw => by_cases hempty : raw = "" <;> simp [hempty, Option.filter_some]

theorem overlay_put {α : Type} {name : String} {set : Config → String → List ConfigIssue × Config}
    (get : Config → α) (put : Config → α → Config) (read : String → Option α) (hput : ∀ c, put c (get c) = c)
    (hread : ∀ c raw a, read raw = some a → set c raw = ([], put c a))
    (hnone : ∀ c raw, read raw = none → (set c raw).1 ≠ []) (h : (overlay lookup name c set).1 = []) :
    ∃ a, (overlay lookup name c set).2 = put c a ∧ Overlays ((lookup name).filter (· ≠ "")) read (get c) a := by
  rw [overlay_eq] at h ⊢
  generalize (lookup name).filter (· ≠ "") = given at h ⊢
  cases given with
  | none => exact ⟨get c, (hput c).symm, rfl⟩
  | some raw =>
    cases ha : read raw with
    | none => exact absurd h (hnone c raw ha)
    | some a => exact ⟨a, by simp [hread c raw a ha], ha⟩

theorem overlay_depth (h : (overlay lookup depthVariable c (setDepth depthVariable)).1 = []) :
    ∃ depth, (overlay lookup depthVariable c (setDepth depthVariable)).2 = { c with maxDepth := depth } ∧
      Overlays ((lookup depthVariable).filter (· ≠ "")) (fun raw => (Text.readInt64 raw).toOption) c.maxDepth depth := by
  refine overlay_put Config.maxDepth (fun c depth => { c with maxDepth := depth }) _ (fun _ => rfl) ?_ ?_ h
  all_goals intro c raw
  · intro depth hread
    cases hraw : Text.readInt64 raw with
    | error cause => simp [hraw, Except.toOption] at hread
    | ok n => simpa [setDepth, hraw, Except.toOption] using hread
  · intro hread
    cases hraw : Text.readInt64 raw with
    | error cause => simp [setDepth, hraw]
    | ok n => simp [hraw, Except.toOption] at hread

theorem overlay_color (h : (overlay lookup colorVariable c (setColor colorVariable)).1 = []) :
    ∃ color, (overlay lookup colorVariable c (setColor colorVariable)).2 = { c with color } ∧
      Overlays ((lookup colorVariable).filter (· ≠ "")) Text.readBool? c.color color :=
  overlay_put Config.color (fun c color => { c with color }) _ (fun _ => rfl)
    (fun c raw color hread => by simp [setColor, hread]) (fun c raw hread => by simp [setColor, hread]) h

theorem overlay_text (lookup : String → Option String) (name : String) (c : Config) (get : Config → String) (put : Config → String → Config)
    (hput : ∀ c, put c (get c) = c) : ∃ s, (overlay lookup name c fun c raw => ([], put c raw)).2 = put c s ∧
      Overlays ((lookup name).filter (· ≠ "")) some (get c) s := by
  apply overlay_put get put some hput (fun _ _ _ hread => by rw [Option.some.inj hread]) (fun _ _ hread => by cases hread)
  rw [overlay_eq]
  generalize (lookup name).filter (· ≠ "") = given
  cases given <;> rfl

theorem applyVariables_overlaid {c' : Config} (h : c.applyVariables lookup = ([], c')) :
    Overlaid (fun name => (lookup name).filter (· ≠ "")) c c' := by
  unfold applyVariables at h
  dsimp only at h
  split at h
  · next hnone =>
    obtain ⟨hdepth, hcolor⟩ := List.append_eq_nil_iff.mp hnone
    obtain ⟨depth, hc₁, hdepth⟩ := overlay_depth hdepth
    rw [hc₁] at h hcolor
    obtain ⟨level, hc₂, hlevel⟩ := overlay_text lookup levelVariable { c with maxDepth := depth } Config.logLevel
      (fun c raw => { c with logLevel := raw }) (fun _ => rfl)
    rw [hc₂] at h hcolor
    obtain ⟨color, hc₃, hcolor⟩ := overlay_color hcolor
    rw [hc₃] at h
    obtain ⟨dir, hc₄, hdir⟩ := overlay_text lookup corpusDirVariable
      { c with maxDepth := depth, logLevel := level, color := color } Config.corpusDir (fun c raw => { c with corpusDir := raw }) (fun _ => rfl)
    rw [hc₄] at h
    obtain ⟨hvalid, rfl⟩ := Prod.mk.inj h
    exact ⟨hdepth, hlevel, hcolor, hdir, ⟨rfl, rfl, rfl⟩, hvalid⟩
  · next hsome =>
    exact absurd (Prod.mk.inj h).1 hsome

end Overlay

section Source

variable {reader : ConfigReader} {f : Files} {named : String} {c : Config}

/-- The path of the configuration file in effect, if there is one: a named file, else the nearest one. -/
def source? (f : Files) (named : String) : Option String :=
  if named ≠ "" then some (Path.absolute f.workDir named)
  else (find f f.workDir).toOption.map (Path.absolute f.workDir)

/-- The settings that a configuration file gives. Without a file none are given. -/
def Gives (reader : ConfigReader) (f : Files) (source : Option String) (file : ConfigFile) : Prop :=
  match source with
  | none => file = .empty
  | some path => ∃ content, f.open? path = .ok (some content) ∧ reader.settings content = .ok file

/-- The directory that relative directories are seen from: that of the configuration file, else the working directory. -/
def home (f : Files) (source : Option String) : String := (source.map Path.parent).getD f.workDir

/-- The variables that the file of variables in a directory gives. Without a file none are given. -/
def GivesVariables (reader : ConfigReader) (f : Files) (dir : String) (file : Variables) : Prop :=
  match f.find (Path.join [dir, ".env"]) with
  | .error _ => file = []
  | .ok (.file content) => reader.variables? content = some file
  | .ok (.directory _) => False

def given (s : String) : Option String := if s = "" then none else some s

theorem absolute_ne_empty (f : Files) (path : String) : Path.absolute f.workDir path ≠ "" := by
  obtain ⟨ns, -, hpath⟩ := Path.exists_absolute_eq f.here path
  rw [Files.workDir, hpath]
  simp [Path.ofNames]

theorem checked_eq_ok {c' : Config} (h : c.checked = .ok c') : c' = c ∧ c.issues = [] := by
  unfold checked at h
  split at h
  · next hvalid => exact ⟨(Except.ok.inj h).symm, hvalid⟩
  · cases h

theorem loadBy_eq_ok {path : String} (h : loadBy reader f path = .ok c) :
    ∃ content file, f.open? (Path.absolute f.workDir path) = .ok (some content) ∧
      reader.settings content = .ok file ∧ c = file.toConfig (Path.absolute f.workDir path) := by
  unfold loadBy at h
  by_cases hempty : path = ""
  · simp [hempty, throw, throwThe, MonadExceptOf.throw, bind, Except.bind] at h
  · simp only [hempty, if_false] at h
    split at h
    · cases h
    · cases h
    · next content hopen =>
      split at h
      · cases h
      · next file hread => exact ⟨content, file, hopen, hread, (checked_eq_ok h).1⟩

/-- A configuration with the settings of a file, and defaults for those that the file does not give. -/
structure FromFile (f : Files) (source : Option String) (file : ConfigFile) (c : Config) : Prop where
  path : c.path = source.getD ""
  depth : c.maxDepth = file.maxDepth.getD default.maxDepth
  level : c.logLevel = (given file.logLevel).getD default.logLevel
  color : c.color = file.color.getD default.color
  corpusDir : c.corpusDir = ((given file.corpusDir).map (resolveDir (home f source))).getD
    (resolveDir (home f source) default.corpusDir)
  fixtures : c.fixtures = resolveDir (home f source) ((given file.fixtures).getD default.fixtures)

theorem fromFile_toConfig (file : ConfigFile) (path : String) : FromFile f (some path) file (file.toConfig path) := by
  have hor (s otherwise : String) : (if s = "" then otherwise else s) = (given s).getD otherwise := by
    unfold given
    split <;> rfl
  constructor
  · rfl
  · rfl
  · exact hor _ _
  · rfl
  · unfold given
    by_cases hempty : file.corpusDir = "" <;> simp [ConfigFile.toConfig, resolveDirs, home, hempty]
  · exact congrArg (resolveDir (Path.parent path)) (hor _ _)

theorem base_eq_ok (h : base reader f named f.workDir = .ok c) :
    ∃ file, Gives reader f (source? f named) file ∧ FromFile f (source? f named) file c := by
  have hload {path : String} (h : loadBy reader f path = .ok c) :
      ∃ file, Gives reader f (some (Path.absolute f.workDir path)) file ∧
        FromFile f (some (Path.absolute f.workDir path)) file c := by
    obtain ⟨content, file, hopen, hread, rfl⟩ := loadBy_eq_ok h
    exact ⟨file, ⟨content, hopen, hread⟩, fromFile_toConfig file _⟩
  unfold base at h
  unfold source?
  by_cases hnamed : named ≠ ""
  · rw [if_pos hnamed] at h ⊢
    exact hload h
  · rw [if_neg hnamed] at h ⊢
    cases hfind : find f f.workDir with
    | ok path =>
      rw [hfind] at h
      exact hload h
    | error e =>
      rw [hfind] at h
      obtain rfl := Except.ok.inj h
      exact ⟨.empty, rfl, rfl, rfl, rfl, rfl, rfl, rfl⟩

theorem FromFile.variablesPath_eq {file : ConfigFile} (h : FromFile f (source? f named) file c) :
    c.variablesPath f.workDir = Path.join [home f (source? f named), ".env"] := by
  have hpath := h.path
  unfold variablesPath home
  cases hsource : source? f named with
  | none => simp [hpath, hsource]
  | some path =>
    have hne : path ≠ "" := by
      unfold source? at hsource
      split at hsource
      · exact Option.some.inj hsource ▸ absolute_ne_empty f named
      · obtain ⟨found, -, rfl⟩ := Option.map_eq_some_iff.mp hsource
        exact absolute_ne_empty f found
    simp [hpath, hsource, hne]

theorem loadVariables_eq_ok {dir : String} {process vars : Variables}
    (h : loadVariables reader f (Path.join [dir, ".env"]) process = .ok vars) :
    ∃ file, GivesVariables reader f dir file ∧ (file.map Prod.fst).Nodup ∧ vars = process.load file := by
  unfold loadVariables at h
  unfold GivesVariables
  split at h
  · next hfind =>
    rw [hfind]
    exact ⟨[], rfl, List.nodup_nil, (Except.ok.inj h).symm⟩
  · cases h
  · next content hfind =>
    rw [hfind]
    split at h
    · next file hread => exact ⟨file, hread, reader.nodup content file hread, (Except.ok.inj h).symm⟩
    · cases h

theorem resolveBy_eq_ok {process vars : Variables}
    (h : resolveBy reader f process named f.workDir = .ok (c, vars)) :
    ∃ file beside below, Gives reader f (source? f named) file ∧
      GivesVariables reader f (home f (source? f named)) beside ∧ FromFile f (source? f named) file below ∧
      Overlaid (fun name => (vars.lookup name).filter (· ≠ "")) below c ∧
      (beside.map Prod.fst).Nodup ∧ vars = process.load beside := by
  obtain ⟨below, hbase, h⟩ := bind_eq_ok.mp h
  obtain ⟨vars', hvars, h⟩ := bind_eq_ok.mp h
  obtain ⟨file, hgives, hfile⟩ := base_eq_ok hbase
  rw [hfile.variablesPath_eq] at hvars
  obtain ⟨beside, hvariables, hnodup, hload⟩ := loadVariables_eq_ok hvars
  split at h
  · next c' happly =>
    obtain ⟨rfl, rfl⟩ := Prod.mk.inj (Except.ok.inj h)
    exact ⟨file, beside, below, hgives, hvariables, hfile, applyVariables_overlaid happly, hnodup, hload⟩
  · cases h

end Source

section Depth

theorem effectiveDepth_of_valid {c : Config} (h : c.issues = []) : (effectiveDepth c.maxDepth.toInt : Int) = c.maxDepth.toInt := by
  have hdepth : depthIssues c.maxDepth = [] := (List.append_eq_nil_iff.mp (List.append_eq_nil_iff.mp h).1).1
  unfold depthIssues at hdepth
  split at hdepth
  · cases hdepth
  · next hpos =>
    split at hdepth
    · cases hdepth
    · next hmax =>
      rw [Int64.le_iff_toInt_le] at hpos
      rw [Int64.lt_iff_toInt_lt] at hmax
      have hlimit : (Int64.ofNat TreeWalk.maxDepth).toInt = 100000 := by decide
      have hzero : (0 : Int64).toInt = 0 := by decide
      rw [hlimit] at hmax
      rw [hzero] at hpos
      rw [effectiveDepth, if_neg hpos, TreeWalk.maxDepth]
      omega

end Depth

end Config

namespace Command

open Config

/-- Where the settings of a configuration come from, given the settings of its file and the variables of the file beside
it. -/
structure Settled (reader : ConfigReader) (inv : Invocation) (flags : Parsed) (file : ConfigFile) (beside : Variables)
    (c : Config) : Prop where
  file_given : Gives reader inv.files (source? inv.files (flags.text "config")) file
  variables_given : GivesVariables reader inv.files (home inv.files (source? inv.files (flags.text "config"))) beside
  depth : Decided (flags.value? "max-depth") (fun text => (Text.readMarkedInt64 text).toOption)
    (Variables.setting? inv.environment beside depthVariable) (fun text => (Text.readInt64 text).toOption)
    file.maxDepth Config.default.maxDepth c.maxDepth
  level : Decided (flags.value? "log-level") some (Variables.setting? inv.environment beside levelVariable) some
    (given file.logLevel) Config.default.logLevel c.logLevel
  color : Decided (flags.value? "color") Text.readBool? (Variables.setting? inv.environment beside colorVariable)
    Text.readBool? file.color Config.default.color c.color
  /-- No flag gives the directory of corpora. A variable gives it as it is. -/
  corpusDir : Decided none some (Variables.setting? inv.environment beside corpusDirVariable) some
    ((given file.corpusDir).map (resolveDir (home inv.files (source? inv.files (flags.text "config")))))
    (resolveDir (home inv.files (source? inv.files (flags.text "config"))) Config.default.corpusDir) c.corpusDir
  fixtures : c.fixtures = resolveDir (home inv.files (source? inv.files (flags.text "config")))
    ((given file.fixtures).getD Config.default.fixtures)
  valid : c.issues = []
  limit : ∀ output, ((Interpreter.new output c.maxDepth.toInt).machine.limit : Int) = c.maxDepth.toInt

theorem applyFlags_overlays {command : Command} {flags : Parsed} (hflags : flags.Sound command.flags) (c : Config) :
    Overlays (flags.value? "max-depth") (fun text => (Text.readMarkedInt64 text).toOption) c.maxDepth
      (applyFlags flags c).maxDepth ∧
    Overlays (flags.value? "log-level") some c.logLevel (applyFlags flags c).logLevel ∧
    Overlays (flags.value? "color") Text.readBool? c.color (applyFlags flags c).color := by
  refine ⟨?_, ?_, ?_⟩
  · cases hgiven : flags.value? "max-depth" with
    | none => simp [Overlays, applyFlags, Parsed.number?, hgiven]
    | some text =>
      obtain ⟨n, hn⟩ := readMarkedInt64_of_given hflags hgiven
      simp [Overlays, applyFlags, Parsed.number?, hgiven, hn, Except.toOption]
  · cases hgiven : flags.value? "log-level" <;> simp [Overlays, applyFlags, hgiven]
  · cases hgiven : flags.value? "color" with
    | none => simp [Overlays, applyFlags, Parsed.switch?, hgiven]
    | some text =>
      obtain ⟨b, hb⟩ := readBool?_of_given hflags hgiven
      simp [Overlays, applyFlags, Parsed.switch?, hgiven, hb]

/-- In a configuration that comes into effect, a flag decides before a variable of the process, this before the file of
variables, this before the configuration file, and this before the default. It does not matter how the files are read,
nor how the flags are, as long as they are flags of the command with values that these take; what is read from the words
of a command line is of this kind. -/
theorem configure_settles :
    (∀ (command : Command) (words : List String) (flags : Parsed),
      readFlags command.flags words .empty = .ok flags → flags.Sound command.flags) ∧
    ∀ (reader : ConfigReader) (inv : Invocation) (command : Command) (flags : Parsed) (c : Config) (vars : Variables),
      flags.Sound command.flags → configureBy reader inv flags = .ok (c, vars) →
      ∃ file beside, Settled reader inv flags file beside c := by
  refine ⟨fun command words flags => readFlags_sound Parsed.sound_empty, ?_⟩
  intro reader inv command flags c vars hflags h
  obtain ⟨⟨c₁, vars₁⟩, hresolve, h⟩ := bind_eq_ok.mp h
  obtain ⟨c₂, hchecked, h⟩ := bind_eq_ok.mp h
  obtain ⟨rfl, rfl⟩ := Prod.mk.inj (Except.ok.inj h)
  obtain ⟨rfl, hvalid⟩ := checked_eq_ok hchecked
  obtain ⟨file, beside, below, hgives, hvariables, hfile, hover, hnodup, rfl⟩ := resolveBy_eq_ok hresolve
  have hsetting {name : String} (hname : name ≠ "") :
      ((inv.environment.load beside).lookup name).filter (· ≠ "") = Variables.setting? inv.environment beside name :=
    Variables.filter_lookup_load hnodup hname
  obtain ⟨hdepth, hlevel, hcolor⟩ := applyFlags_overlays hflags c₁
  refine ⟨file, beside, hgives, hvariables, ?_, ?_, ?_, ?_, ?_, hvalid, fun _ => effectiveDepth_of_valid hvalid⟩
  · have hbelow := hover.depth
    rw [hfile.depth, hsetting (by decide)] at hbelow
    exact .of_overlays hbelow hdepth
  · have hbelow := hover.level
    rw [hfile.level, hsetting (by decide)] at hbelow
    exact .of_overlays hbelow hlevel
  · have hbelow := hover.color
    rw [hfile.color, hsetting (by decide)] at hbelow
    exact .of_overlays hbelow hcolor
  · have hbelow := hover.corpusDir
    rw [hfile.corpusDir, hsetting (by decide)] at hbelow
    exact .of_overlays hbelow rfl
  · exact hover.rest.2.1.trans hfile.fixtures

def sample (entries : List (String × Entry)) (environment : Variables) : Invocation :=
  ⟨[], ⟨.directory entries, []⟩, environment, fun _ => none, false, ⟨"", ""⟩⟩

/-- A flag, a variable of the process, a file of variables and a configuration file each give a setting; the file of
variables and the configuration file also give settings that are given above them. -/
def layered : Invocation :=
  sample [("rinha.yml", .file "log_level: info\nmax_depth: 7\n".toUTF8),
    (".env", .file "RINHA_MAX_DEPTH=9\nRINHA_CORPUS_DIR=c\nRINHA_COLOR=true\n".toUTF8)] [("RINHA_COLOR", "false")]

theorem configure_settles_layered :
    readFlags root.flags ["--max-depth", "5"] .empty = .ok ⟨[("max-depth", "5")], []⟩ ∧
    configure layered ⟨[("max-depth", "5")], []⟩ = .ok (⟨"/rinha.yml", 5, "info", false, "c", "/fixtures", []⟩,
      [("RINHA_COLOR", "false"), ("RINHA_MAX_DEPTH", "9"), ("RINHA_CORPUS_DIR", "c")]) ∧
    ∃ file beside, Settled .standard layered ⟨[("max-depth", "5")], []⟩ file beside
      ⟨"/rinha.yml", 5, "info", false, "c", "/fixtures", []⟩ := by
  have hflags : readFlags root.flags ["--max-depth", "5"] .empty = .ok ⟨[("max-depth", "5")], []⟩ := by decide +kernel
  have hconfigure : configure layered ⟨[("max-depth", "5")], []⟩ =
      .ok (⟨"/rinha.yml", 5, "info", false, "c", "/fixtures", []⟩,
        [("RINHA_COLOR", "false"), ("RINHA_MAX_DEPTH", "9"), ("RINHA_CORPUS_DIR", "c")]) := by decide +kernel
  have hsound := configure_settles.1 root _ _ hflags
  exact ⟨hflags, hconfigure, configure_settles.2 .standard layered root _ _ _ hsound hconfigure⟩

/-- A file of variables gives the directory of corpora with a zero character in it. The process defines no variable, yet
the default comes into effect. -/
theorem configure_passes_over_zero :
    Variables.read? "RINHA_CORPUS_DIR=a\x00b\n".toUTF8 = some [(corpusDirVariable, "a\x00b")] ∧
    (configure (sample [(".env", .file "RINHA_CORPUS_DIR=a\x00b\n".toUTF8)] []) .empty).toOption.map (·.1.corpusDir) =
      some "/.rinha/corpus" := by
  decide +kernel

end Command

end TreeWalk
