import TreeWalk.Command.Help
import TreeWalk.Config.Load
import TreeWalk.Corpus.Fetch
import TreeWalk.Fixture.Run
import TreeWalk.Syntax.Render

/-!
# Running a command line

A command line is run on a file tree, variables and the repositories that URLs lead to. What it
writes and its exit code are the result, together with the file tree that it leaves. Flags are
read first, then the number of arguments is checked, then the configuration is loaded, and then
the command does its work.
-/

namespace TreeWalk

structure Invocation where
  args : List String
  files : Files
  environment : Variables
  remote : Remote
  terminal : Bool
  clock : Log.Clock

structure Report where
  code : Nat
  stdout : ByteArray
  stderr : ByteArray
  files : Files

inductive Paint where
  | alarm
  | red
  | green
  | yellow
deriving DecidableEq, Repr

def Paint.code : Paint → String
  | alarm => "31;1"
  | red => "31"
  | green => "32"
  | yellow => "33"

def Paint.apply (p : Paint) (on : Bool) (text : ByteArray) : ByteArray :=
  if on then s!"\x1b[{p.code}m".toUTF8 ++ text ++ "\x1b[0m".toUTF8 else text

def allowsColor (vars : Variables) : Bool := ((vars.lookup "NO_COLOR").getD "") = ""

structure Progress where
  stdout : ByteArray
  stderr : ByteArray
  files : Files
  color : Bool

structure Context where
  invocation : Invocation
  config : Config
  /-- The variables after those beside the configuration are added. -/
  environment : Variables
  flags : Parsed

/-- Work that writes, and may end in an error, which is a text. -/
abbrev Work := ExceptT ByteArray (StateM Progress)

namespace Work

def write (text : ByteArray) : Work Unit := modify fun p => { p with stdout := p.stdout ++ text }

def writeText (text : String) : Work Unit := write text.toUTF8

def log (clock : Log.Clock) (level : Log.Level) (records : List Log.Record) : Work Unit :=
  let lines := (records.filter fun r => r.level.enabledAt level).map fun r => (r.line clock).toUTF8
  modify fun p => { p with stderr := lines.foldl (· ++ ·) p.stderr }

def fail {α : Type} (message : ByteArray) : Work α := throw message

def failText {α : Type} (message : String) : Work α := throw message.toUTF8

end Work

namespace Context

def log (c : Context) (records : List Log.Record) : Work Unit :=
  Work.log c.invocation.clock c.config.level records

/-- The argument at an index; the number of arguments has been checked before. -/
def arg (c : Context) (n : Nat) : String := (c.flags.args[n]?).getD ""

def runProgram (c : Context) (path : String) : Work Unit := do
  match Program.load c.invocation.files path with
  | .error e => Work.failText e.message
  | .ok p =>
    let (outcome, i) := (Interpreter.new .unlimited c.config.maxDepth.toInt).run p
    c.log i.records
    Work.write i.machine.output.text
    match outcome with
    | .ok _ => return
    | .error e =>
      c.log [Log.debug "run failed" [Log.attr "program" path, Log.attr "error" e.text]]
      Work.failText e.text

def showProgram (c : Context) (path : String) : Work Unit :=
  match Program.load c.invocation.files path with
  | .error e => Work.failText e.message
  | .ok p => Work.writeText (p.expression.render ++ "\n")

def indented (text : ByteArray) : ByteArray :=
  text.data.toList.foldl (fun out b => if b = 10 then out ++ "\n    ".toUTF8 else out.push b) "    ".toUTF8

def fixtureLines (color : Bool) (r : FixtureResult) : ByteArray :=
  let (paint, word) :=
    if r.skipped then (Paint.yellow, "SKIP") else if r.passed then (.green, "PASS") else (.red, "FAIL")
  let first := paint.apply color word.toUTF8 ++ s!" {r.name}\n".toUTF8
  if r.passed then first
  else r.mismatches.foldl (fun out m => out ++ indented m.message ++ "\n".toUTF8) first

def testFixtures (c : Context) (root : String) : Work Unit := do
  let (results, records) := Fixture.runAll c.invocation.files c.config.maxDepth.toInt root
  c.log records
  match results with
  | .error e => Work.fail e.message
  | .ok results =>
    let color := c.invocation.terminal && c.config.color && allowsColor c.environment
    results.forM fun r => Work.write (fixtureLines color r)
    let skipped := (results.filter (·.skipped)).length
    let failed := (results.filter (!·.passed)).length
    let passed := results.length - skipped - failed
    Work.writeText s!"{passed} passed, {failed} failed, {skipped} skipped\n"
    if 0 < failed then Work.failText s!"{failed} fixture(s) failed"

/-- The corpus that an argument asks for: a configured one by its name, or else a URL. A flag for
the revision stands above the configured one. -/
def corpusRequest (c : Context) (target : String) : CorpusRequest :=
  let asked : CorpusRequest := ⟨target, c.flags.text "rev", c.flags.text "tag", c.flags.text "branch"⟩
  match c.config.findCorpus? target with
  | none => asked
  | some spec =>
    if asked.rev = "" && asked.tag = "" && asked.branch = "" then
      ⟨spec.url, spec.rev, spec.tag, ""⟩
    else { asked with url := spec.url }

def fetchCorpus (c : Context) (target : String) : Work Unit := do
  let fetch := (c.corpusRequest target).fetch c.invocation.remote c.config.corpusDir c.invocation.files
  c.log fetch.log
  modify fun p => { p with files := fetch.files }
  match fetch.outcome with
  | .error e => Work.failText e.message
  | .ok checkout =>
    match fetch.files.discoverPrograms checkout.dir with
    | .error e => Work.failText e.message
    | .ok programs =>
      c.log [Log.info "corpus ready"
        [Log.attr "commit" checkout.commit, Log.attr "programs" (toString programs.length)]]
      Work.writeText (checkout.dir ++ "\n")

def corpusLine (spec : CorpusSpec) : String :=
  let revision :=
    if spec.tag ≠ "" then "tag " ++ spec.tag else if spec.rev ≠ "" then spec.rev else "HEAD"
  spec.name ++ "\t" ++ spec.url ++ "\t" ++ revision ++ "\n"

def listCorpora (c : Context) : Work Unit :=
  if c.config.corpora.isEmpty then
    Work.failText ("no corpora declared in " ++
      if c.config.path = "" then Config.fileName else c.config.path)
  else Work.writeText (String.join (c.config.corpora.map corpusLine))

end Context

namespace Command

def versionText : String := "rinha 0.1.0-dev\n"

def perform (c : Command) (ctx : Context) : Work Unit :=
  match c with
  | root =>
    if ctx.flags.args.isEmpty then Work.writeText root.helpText else ctx.runProgram (ctx.arg 0)
  | run => ctx.runProgram (ctx.arg 0)
  | display => ctx.showProgram (ctx.arg 0)
  | test => ctx.testFixtures (if ctx.flags.args.isEmpty then ctx.config.fixtures else ctx.arg 0)
  | fetch => ctx.fetchCorpus (ctx.arg 0)
  | list => ctx.listCorpora
  | version => Work.writeText versionText
  | help => Work.writeText (ofWords ctx.flags.args).1.helpText
  | corpus | completion => Work.writeText c.helpText

def applyFlags (flags : Parsed) (c : Config) : Config :=
  { c with
    maxDepth := (flags.number? "max-depth").getD c.maxDepth
    logLevel := (flags.value? "log-level").getD c.logLevel
    color := (flags.switch? "color").getD c.color }

def configureBy (reader : ConfigReader) (inv : Invocation) (flags : Parsed) :
    Except ConfigError (Config × Variables) := do
  let (c, vars) ← Config.resolveBy reader inv.files inv.environment (flags.text "config") inv.files.workDir
  return (← (applyFlags flags c).checked, vars)

def configure (inv : Invocation) (flags : Parsed) : Except ConfigError (Config × Variables) :=
  configureBy .standard inv flags

def loadContext (inv : Invocation) (flags : Parsed) : Work Context := do
  match configure inv flags with
  | .error e => Work.fail e.message
  | .ok (c, vars) =>
    modify fun p => { p with color := p.color && c.color }
    let ctx : Context := ⟨inv, c, vars, flags⟩
    ctx.log [Log.debug "configuration resolved"
      [Log.attr "path" c.path, Log.attr "max_depth" (Text.decimal c.maxDepth)]]
    return ctx

def execute (inv : Invocation) (c : Command) (words : List String) : Work Unit := do
  match readFlags c.flags words Parsed.empty with
  | .error e => Work.failText e.message
  | .ok flags =>
    if (flags.switch? "help").getD false || !c.isRunnable then Work.writeText c.helpText
    else
      match c.arityError? flags.args with
      | some message => Work.failText message
      | none => c.perform (← loadContext inv flags)

end Command

/-- Runs a command line. An error is written at the end, and gives the exit code 1. -/
def Invocation.run (inv : Invocation) : Report :=
  let (c, words) := Command.ofWords inv.args
  let start : Progress := ⟨.empty, .empty, inv.files, inv.terminal && allowsColor inv.environment⟩
  match (c.execute inv words).run start with
  | (.ok _, p) => ⟨0, p.stdout, p.stderr, p.files⟩
  | (.error message, p) =>
    let text := "error: ".toUTF8 ++ message ++ "\n".toUTF8
    ⟨1, p.stdout, p.stderr ++ Paint.alarm.apply p.color text, p.files⟩

end TreeWalk
