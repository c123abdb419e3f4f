import TreeWalk.Config.Basic
import TreeWalk.Config.Variables
import TreeWalk.Files.Tree
import TreeWalk.Yaml.Decode

/-!
# Loading a configuration

A configuration file is named, or it is the nearest one upward from the working directory.
Variables stand above the file: those of the process, then those of a file of variables beside
the configuration file.
-/

namespace TreeWalk

/-- The settings that a file gives. A text that is empty is not given. -/
structure ConfigFile where
  maxDepth : Option Int64
  logLevel : String
  color : Option Bool
  corpusDir : String
  fixtures : String
  corpora : List CorpusSpec
deriving DecidableEq, Repr, Inhabited

inductive ConfigError where
  | emptyPath
  | unopened (path : String) (error : PathError)
  | misread (path : String) (cause : Yaml.Misread)
  | invalid (issues : List ConfigIssue)
  /-- The file of variables is malformed, or a directory. -/
  | variableFile (path : String) (directory : Bool)
  | notFound (start : String)
deriving DecidableEq, Repr

def Yaml.Misread.message : Yaml.Misread → ByteArray
  | malformed => "<yaml error>".toUTF8
  | misfits issues => Yaml.issuesText issues

def ConfigError.message : ConfigError → ByteArray
  | emptyPath => "config: empty path".toUTF8
  | unopened path error => s!"config: open {path}: {error.message}".toUTF8
  | misread path cause => s!"config: parse {path}: ".toUTF8 ++ cause.message
  | invalid issues => (ConfigIssue.report issues).toUTF8
  | variableFile path _ => s!"config: load {path}: <dotenv error>".toUTF8
  | notFound start => s!"config: {Config.fileName} not found from {start}".toUTF8

namespace ConfigFile

open Yaml in
def corpus : Node → Decoder (Option CorpusSpec) :=
  readRecord "driver.CorpusSpec" [
    .of "name" readText fun c s => { c with name := s },
    .of "url" readText fun c s => { c with url := s },
    .of "rev" readText fun c s => { c with rev := s },
    .of "tag" readText fun c s => { c with tag := s }] ⟨"", "", "", ""⟩

def empty : ConfigFile := ⟨none, "", none, "", "", []⟩

open Yaml in
def settings : Node → Decoder (Option ConfigFile) :=
  readRecord "driver.configFile" [
    .of "max_depth" readWord fun c n => { c with maxDepth := some n },
    .of "log_level" readText fun c s => { c with logLevel := s },
    .of "color" readBool fun c b => { c with color := some b },
    .of "corpus_dir" readText fun c s => { c with corpusDir := s },
    .of "fixtures" readText fun c s => { c with fixtures := s },
    .of "corpora" (readList "[]driver.CorpusSpec" corpus) fun c l => { c with corpora := l }] empty

def read (content : ByteArray) : Except Yaml.Misread ConfigFile := Yaml.readDocument settings empty content

def toConfig (file : ConfigFile) (path : String) : Config :=
  let or (given otherwise : String) := if given = "" then otherwise else given
  Config.resolveDirs (Path.parent path) {
    path
    maxDepth := file.maxDepth.getD Config.default.maxDepth
    logLevel := or file.logLevel Config.default.logLevel
    color := file.color.getD Config.default.color
    corpusDir := or file.corpusDir Config.default.corpusDir
    fixtures := or file.fixtures Config.default.fixtures
    corpora := file.corpora }

end ConfigFile

/-- A way to read configuration files and files of variables. -/
structure ConfigReader where
  settings : ByteArray → Except Yaml.Misread ConfigFile
  variables? : ByteArray → Option Variables
  nodup : ∀ content file, variables? content = some file → (file.map Prod.fst).Nodup

def ConfigReader.standard : ConfigReader := ⟨ConfigFile.read, Variables.read?, fun _ _ => Variables.nodup_read?⟩

namespace Config

def checked (c : Config) : Except ConfigError Config :=
  match c.issues with
  | [] => .ok c
  | issues => .error (.invalid issues)

def loadBy (reader : ConfigReader) (f : Files) (path : String) : Except ConfigError Config := do
  if path = "" then throw .emptyPath
  let path := Path.absolute f.workDir path
  match f.open? path with
  | .error e => throw (.unopened path e)
  | .ok none => throw (.misread path .malformed)
  | .ok (some content) =>
    match reader.settings content with
    | .error cause => throw (.misread path cause)
    | .ok file => (file.toConfig path).checked

def load (f : Files) (path : String) : Except ConfigError Config := loadBy .standard f path

/-- A directory and those above it, the deepest first, for its names from the last to the first. -/
def upward : List String → List (List String)
  | [] => [[]]
  | name :: above => (name :: above).reverse :: upward above

def fileIn (directory : List String) : String := Path.ofNames true (directory ++ [fileName])

def startDirectory (f : Files) (start : String) : List String :=
  let path := Path.absolute f.workDir start
  if f.isFile path then (Path.names path).dropLast else Path.names path

/-- The nearest configuration file in a directory or above it. -/
def find (f : Files) (start : String) : Except ConfigError String :=
  match ((upward (startDirectory f start).reverse).map fileIn).find? f.isFile with
  | some path => .ok path
  | none => .error (.notFound start)

/-- The configuration before variables count: that of a named file, else of the nearest file,
else the default one seen from the working directory. -/
def base (reader : ConfigReader) (f : Files) (named workDir : String) : Except ConfigError Config :=
  if named ≠ "" then loadBy reader f named
  else
    match find f workDir with
    | .ok path => loadBy reader f path
    | .error _ => .ok (Config.default.resolveDirs workDir)

def variablesPath (c : Config) (workDir : String) : String :=
  Path.join [if c.path = "" then workDir else Path.parent c.path, ".env"]

def loadVariables (reader : ConfigReader) (f : Files) (path : String) (vars : Variables) :
    Except ConfigError Variables :=
  match f.find path with
  | .error _ => .ok vars
  | .ok (.directory _) => .error (.variableFile path true)
  | .ok (.file content) =>
    match reader.variables? content with
    | some file => .ok (vars.load file)
    | none => .error (.variableFile path false)

/-- The effective configuration, and the variables after those of the file are added. -/
def resolveBy (reader : ConfigReader) (f : Files) (vars : Variables) (named workDir : String) :
    Except ConfigError (Config × Variables) := do
  let c ← base reader f named workDir
  let vars ← loadVariables reader f (c.variablesPath workDir) vars
  match c.applyVariables (fun name => vars.lookup name) with
  | ([], c) => .ok (c, vars)
  | (issues, _) => .error (.invalid issues)

def resolve (f : Files) (vars : Variables) (named workDir : String) : Except ConfigError (Config × Variables) :=
  resolveBy .standard f vars named workDir

end Config

end TreeWalk
