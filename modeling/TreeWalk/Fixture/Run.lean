import TreeWalk.Eval.Interpreter
import TreeWalk.Fixture.Manifest
import TreeWalk.Program.Load

/-!
# Running fixtures

A fixture's program is run by an interpreter of its own, and what it printed and how it ended are
compared with the manifest. A mismatch of the output and one of the ending are both reported.
-/

namespace TreeWalk

inductive Mismatch where
  | output
  | noFault (want : FaultKind)
  | noFaultKind (want : FaultKind) (got : Failure)
  | otherFault (want got : FaultKind) (failure : Failure)
  | failed (failure : Failure)
  | noResult (want : String)
  | otherKind (want : String) (got : Kind) (shown : ByteArray)
  | otherValue (want : Yaml.Datum) (shown : ByteArray)

def Mismatch.message : Mismatch → ByteArray
  | output => "stdout mismatch (-want +got):".toUTF8
  | noFault want => s!"expected {want.name} error, program succeeded".toUTF8
  | noFaultKind want got => s!"expected {want.name} error, got {got.text}".toUTF8
  | otherFault want got failure => s!"expected {want.name} error, got {got.name}: {failure.text}".toUTF8
  | failed failure => s!"unexpected error: {failure.text}".toUTF8
  | noResult want => s!"expected {want} result, got nothing".toUTF8
  | otherKind want got shown =>
    s!"expected {want} result, got {got.name} (".toUTF8 ++ shown ++ ")".toUTF8
  | otherValue want shown => "expected result ".toUTF8 ++ want.display ++ ", got ".toUTF8 ++ shown

structure FixtureResult where
  name : String
  dir : String
  description : String
  skipped : Bool
  stdout : List ByteArray
  /-- How the program ended; a fixture that is skipped has no ending. -/
  ending : Option Outcome
  store : Store
  mismatches : List Mismatch

namespace FixtureResult

def passed (r : FixtureResult) : Bool := r.skipped || r.mismatches.isEmpty

end FixtureResult

inductive FixtureError where
  | manifest (error : ManifestError)
  | program (error : LoadError)
  | search (error : SearchError)
  | inFixture (dir : String) (error : FixtureError)

def FixtureError.message : FixtureError → ByteArray
  | manifest error => error.message
  | program error => error.message.toUTF8
  | search error => error.message.toUTF8
  | inFixture dir error => s!"fixture {dir}: ".toUTF8 ++ error.message

namespace Fixture

/-- Puts a byte before lines: a line feed starts a new line, any other byte the first line. -/
def addByte (b : UInt8) : List (List UInt8) → List (List UInt8)
  | [] => [[b]]
  | line :: rest => if b = 10 then [] :: line :: rest else (b :: line) :: rest

def splitAtFeeds (bytes : List UInt8) : List (List UInt8) := bytes.foldr addByte [[]]

/-- The lines of a text. A line feed at its very end starts no line. -/
def lines (text : ByteArray) : List ByteArray :=
  let bytes := text.data.toList
  if bytes.isEmpty then []
  else
    let body := if bytes.getLast? = some 10 then bytes.dropLast else bytes
    (splitAtFeeds body).map List.toByteArray

/-- Whether a value is the expected one. Truth values have to be written as such; all else is
compared by its text. -/
def isExpected (want : Yaml.Datum) (got : Value) : Bool :=
  match got, want with
  | .bool b, .bool wanted => b = wanted
  | .bool _, _ => false
  | got, want => Text.sameBytes want.display got.format

def checkValue (want : ExpectedResult) (got : Value) : List Mismatch :=
  match got.kind? with
  | none => [.noResult want.kind]
  | some kind =>
    if kind.name ≠ want.kind then [.otherKind want.kind kind got.format]
    else
      match want.value with
      | .null => []
      | value => if isExpected value got then [] else [.otherValue value got.format]

def checkFault (want : FaultKind) : Outcome → List Mismatch
  | .ok _ => [.noFault want]
  | .error (.fault fault) =>
    if fault.kind = want then [] else [.otherFault want fault.kind (.fault fault)]
  | .error failure => [.noFaultKind want failure]

def checkOutcome (expect : Expectation) (outcome : Outcome) : List Mismatch :=
  match FaultKind.ofName? expect.error with
  | some want => checkFault want outcome
  | none =>
    match outcome with
    | .error failure => [.failed failure]
    | .ok value =>
      match expect.result with
      | some want => checkValue want value
      | none => []

def sameLines (a b : List ByteArray) : Bool := a.map ByteArray.data = b.map ByteArray.data

/-- All mismatches of a run that printed `stdout` and ended in `outcome`. -/
def check (expect : Expectation) (stdout : List ByteArray) (outcome : Outcome) : List Mismatch :=
  (if sameLines expect.stdout stdout then [] else [.output]) ++ checkOutcome expect outcome

def runBy (read : ByteArray → Except Yaml.Misread Manifest) (f : Files) (depth : Int) (dir : String) :
    Except FixtureError FixtureResult × List Log.Record :=
  match Manifest.loadBy read f dir with
  | .error e => (.error (.manifest e), [])
  | .ok m =>
    if m.skip then (.ok ⟨Path.base dir, dir, m.description, true, [], none, Store.empty, []⟩, [])
    else
      match Program.load f (Path.join [dir, m.entry]) with
      | .error e => (.error (.program e), [])
      | .ok p =>
        let (outcome, i) := (Interpreter.new .unlimited depth).run p
        let stdout := lines i.machine.output.text
        (.ok ⟨Path.base dir, dir, m.description, false, stdout, some outcome, i.machine.store,
          check m.expect stdout outcome⟩, i.records)

def run (f : Files) (depth : Int) (dir : String) : Except FixtureError FixtureResult × List Log.Record :=
  runBy Manifest.read f depth dir

end Fixture

namespace Entry

def isFixture (entries : List (String × Entry)) : Bool :=
  (entries.lookup Manifest.fileName).isSome || (entries.lookup Manifest.defaultEntry).isSome

mutual

def fixtures (path : String) : Entry → List String
  | file _ => []
  | directory entries => (if isFixture entries then [path] else []) ++ fixturesBelow path entries

def fixturesBelow (path : String) : List (String × Entry) → List String
  | [] => []
  | (name, e) :: rest =>
    (if isHidden name then [] else e.fixtures (Path.join [path, name])) ++ fixturesBelow path rest

end

end Entry

def Files.discoverFixtures (f : Files) (root : String) : Except SearchError (List String) := do
  let e ← f.searchRoot "fixtures" root
  return sortPaths (e.fixtures root)

namespace Fixture

/-- The name of a fixture among those below `root`: the way from there to its directory. -/
def nameIn (root : String) (r : FixtureResult) : String :=
  match Path.relative? root r.dir with
  | some way => if way = "." then r.name else way
  | none => r.name

def runEach (f : Files) (depth : Int) (root : String) :
    List String → Except FixtureError (List FixtureResult) × List Log.Record
  | [] => (.ok [], [])
  | dir :: dirs =>
    match run f depth dir with
    | (.error e, log) => (.error (.inFixture dir e), log)
    | (.ok r, log) =>
      let (rest, more) := runEach f depth root dirs
      (rest.map ({ r with name := nameIn root r } :: ·), log ++ more)

/-- Runs all fixtures below a directory. -/
def runAll (f : Files) (depth : Int) (root : String) :
    Except FixtureError (List FixtureResult) × List Log.Record :=
  match f.discoverFixtures root with
  | .error e => (.error (.search e), [])
  | .ok dirs => runEach f depth root dirs

end Fixture

end TreeWalk
