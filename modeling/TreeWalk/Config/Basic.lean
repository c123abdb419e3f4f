import TreeWalk.Eval.Interpreter
import TreeWalk.Files.Path
import TreeWalk.Text.Number

/-!
# Configuration

The settings that all commands share, and what makes them valid. All faults of a configuration
are reported together.
-/

namespace TreeWalk

/-- A git repository of programs, under a name of its own. At most one of `rev` and `tag` is set. -/
structure CorpusSpec where
  name : String
  url : String
  rev : String
  tag : String
deriving DecidableEq, Repr, Inhabited

structure Config where
  /-- The file that the settings came from; empty if there was none. -/
  path : String
  maxDepth : Int64
  logLevel : String
  color : Bool
  corpusDir : String
  fixtures : String
  corpora : List CorpusSpec
deriving DecidableEq, Repr, Inhabited

inductive ConfigIssue where
  | depthNotPositive (depth : Int64)
  | depthTooLarge (depth : Int64)
  | unknownLevel (name : String)
  | unnamedCorpus (index : Nat)
  | repeatedCorpus (index : Nat) (name : String)
  | corpusWithoutUrl (index : Nat)
  | corpusWithRevAndTag (index : Nat)
  | depthNotInteger (source raw : String)
  | colorNotBoolean (source raw : String)
deriving DecidableEq, Repr

def unknownLevelText (name : String) : String :=
  s!"log_level {Text.quote name} is not one of debug, info, warn, error"

def ConfigIssue.message : ConfigIssue → String
  | depthNotPositive depth => s!"max_depth must be positive, got {Text.decimal depth}"
  | depthTooLarge depth => s!"max_depth must be at most {TreeWalk.maxDepth}, got {Text.decimal depth}"
  | unknownLevel name => unknownLevelText name
  | unnamedCorpus index => s!"corpora[{index}] missing name"
  | repeatedCorpus index name => s!"corpora[{index}] duplicates name {Text.quote name}"
  | corpusWithoutUrl index => s!"corpora[{index}] missing url"
  | corpusWithRevAndTag index => s!"corpora[{index}] sets both rev and tag"
  | depthNotInteger source raw => s!"{source} must be an integer, got {Text.quote raw}"
  | colorNotBoolean source raw => s!"{source} must be a boolean, got {Text.quote raw}"

def ConfigIssue.report (issues : List ConfigIssue) : String :=
  "config validation failed:" ++ String.join (issues.map fun issue => "\n- " ++ issue.message)

namespace Config

def fileName : String := "rinha.yml"

def default : Config :=
  ⟨"", Int64.ofNat defaultDepth, "warn", true, Path.join [".rinha", "corpus"], "fixtures", []⟩

/-- A relative directory, seen from `base`. -/
def resolveDir (base dir : String) : String :=
  if dir ≠ "" && !Path.isAbsolute dir then Path.join [base, dir] else dir

def resolveDirs (base : String) (c : Config) : Config :=
  { c with corpusDir := resolveDir base c.corpusDir, fixtures := resolveDir base c.fixtures }

def depthIssues (depth : Int64) : List ConfigIssue :=
  if depth ≤ 0 then [.depthNotPositive depth]
  else if Int64.ofNat TreeWalk.maxDepth < depth then [.depthTooLarge depth]
  else []

def levelIssues (name : String) : List ConfigIssue :=
  if (Log.Level.ofName? name).isNone then [.unknownLevel name] else []

def corpusIssues (seen : List String) (index : Nat) (c : CorpusSpec) : List ConfigIssue :=
  (if c.name = "" then [.unnamedCorpus index]
    else if c.name ∈ seen then [.repeatedCorpus index c.name]
    else []) ++
  (if c.url = "" then [.corpusWithoutUrl index] else []) ++
  (if c.rev ≠ "" && c.tag ≠ "" then [.corpusWithRevAndTag index] else [])

def corporaIssues : (seen : List String) → (index : Nat) → List CorpusSpec → List ConfigIssue
  | _, _, [] => []
  | seen, index, c :: rest => corpusIssues seen index c ++ corporaIssues (c.name :: seen) (index + 1) rest

def issues (c : Config) : List ConfigIssue :=
  depthIssues c.maxDepth ++ levelIssues c.logLevel ++ corporaIssues [] 0 c.corpora

def findCorpus? (c : Config) (name : String) : Option CorpusSpec := c.corpora.find? (·.name = name)

/-- The level of a configuration's log; an unknown level counts as warnings. -/
def level (c : Config) : Log.Level := (Log.Level.ofName? c.logLevel).getD .warn

/-- Overlays a setting by a variable that is set and not empty. -/
def overlay (lookup : String → Option String) (name : String) (c : Config)
    (set : Config → String → List ConfigIssue × Config) : List ConfigIssue × Config :=
  match lookup name with
  | some raw => if raw = "" then ([], c) else set c raw
  | none => ([], c)

def setDepth (source : String) (c : Config) (raw : String) : List ConfigIssue × Config :=
  match Text.readInt64 raw with
  | .ok depth => ([], { c with maxDepth := depth })
  | .error _ => ([.depthNotInteger source raw], c)

def setColor (source : String) (c : Config) (raw : String) : List ConfigIssue × Config :=
  match Text.readBool? raw with
  | some color => ([], { c with color })
  | none => ([.colorNotBoolean source raw], c)

def depthVariable : String := "RINHA_MAX_DEPTH"
def levelVariable : String := "RINHA_LOG_LEVEL"
def colorVariable : String := "RINHA_COLOR"
def corpusDirVariable : String := "RINHA_CORPUS_DIR"

/-- Overlays the settings that variables give. The issues are those of the variables, or if they
have none, those of the result. -/
def applyVariables (lookup : String → Option String) (c : Config) : List ConfigIssue × Config :=
  let (depth, c) := overlay lookup depthVariable c (setDepth depthVariable)
  let (_, c) := overlay lookup levelVariable c fun c raw => ([], { c with logLevel := raw })
  let (color, c) := overlay lookup colorVariable c (setColor colorVariable)
  let (_, c) := overlay lookup corpusDirVariable c fun c raw => ([], { c with corpusDir := raw })
  match depth ++ color with
  | [] => (c.issues, c)
  | found => (found, c)

end Config

end TreeWalk
