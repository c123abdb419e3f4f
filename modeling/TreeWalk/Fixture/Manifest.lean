import TreeWalk.Config.Load
import TreeWalk.Eval.Fault

/-!
# Manifests

A fixture is a directory with a program and a manifest that says what the program does: the
lines it prints, and the kind of fault or the result that it ends with.
-/

namespace TreeWalk

/-- A result that is expected: the kind of a value, and its text unless that is left open. -/
structure ExpectedResult where
  kind : String
  value : Yaml.Datum
deriving Inhabited

structure Expectation where
  stdout : List ByteArray
  /-- The kind of fault; empty if no fault is expected. -/
  error : String
  result : Option ExpectedResult
deriving Inhabited

structure Manifest where
  description : String
  entry : String
  skip : Bool
  expect : Expectation
deriving Inhabited

inductive ManifestIssue where
  | unknownError (name : String)
  | errorAndResult
  | unknownResultKind (name : String)
deriving DecidableEq, Repr

def ManifestIssue.message : ManifestIssue → String
  | unknownError name => FaultKind.unknownName name
  | errorAndResult => "expect.error and expect.result are mutually exclusive"
  | unknownResultKind name => "unknown result kind " ++ Text.quote name

inductive ManifestError where
  | unopened (path : String) (error : PathError)
  | misread (path : String) (cause : Yaml.Misread)
  | invalid (path : String) (issue : ManifestIssue)
deriving DecidableEq, Repr

def ManifestError.message : ManifestError → ByteArray
  | unopened path error => s!"manifest: open {path}: {error.message}".toUTF8
  | misread path cause => s!"manifest: parse {path}: ".toUTF8 ++ cause.message
  | invalid path issue => s!"manifest {path}: {issue.message}".toUTF8

namespace Manifest

def fileName : String := "manifest.yml"

def defaultEntry : String := "program.json"

def empty : Manifest := ⟨"", "", false, ⟨[], "", none⟩⟩

open Yaml in
def expectedResult : Node → Decoder (Option ExpectedResult) :=
  readRecord "fixtures.ExpectedResult" [
    .of "kind" readText fun r s => { r with kind := s },
    .of "value" readDatum fun r d => { r with value := d }] ⟨"", .null⟩

open Yaml in
def expectation : Node → Decoder (Option Expectation) :=
  readRecord "fixtures.Expect" [
    .of "stdout" (readList "[]string" readBytes) fun e lines => { e with stdout := lines },
    .of "error" readText fun e s => { e with error := s },
    .of "result" expectedResult fun e r => { e with result := some r }] empty.expect

open Yaml in
def contents : Node → Decoder (Option Manifest) :=
  readRecord "fixtures.Manifest" [
    .of "description" readText fun m s => { m with description := s },
    .of "entry" readText fun m s => { m with entry := s },
    .of "skip" readBool fun m b => { m with skip := b },
    .of "expect" expectation fun m e => { m with expect := e }] empty

/-- The first fault of a manifest's expectations. -/
def issue? (m : Manifest) : Option ManifestIssue :=
  let error := m.expect.error
  if error ≠ "" && (FaultKind.ofName? error).isNone then some (.unknownError error)
  else
    match m.expect.result with
    | none => none
    | some r =>
      if error ≠ "" then some .errorAndResult
      else if (Kind.ofName? r.kind).isNone then some (.unknownResultKind r.kind)
      else none

def pathIn (dir : String) : String := Path.join [dir, fileName]

def read (content : ByteArray) : Except Yaml.Misread Manifest := Yaml.readDocument contents empty content

/-- Loads the manifest of a directory; one without a manifest expects no output. -/
def loadBy (read : ByteArray → Except Yaml.Misread Manifest) (f : Files) (dir : String) :
    Except ManifestError Manifest :=
  let path := pathIn dir
  match f.open? path with
  | .error e =>
    if e.cause = .notFound then .ok { empty with entry := defaultEntry } else .error (.unopened path e)
  | .ok none => .error (.misread path .malformed)
  | .ok (some content) =>
    match read content with
    | .error cause => .error (.misread path cause)
    | .ok m =>
      let m := if m.entry = "" then { m with entry := defaultEntry } else m
      match m.issue? with
      | some issue => .error (.invalid path issue)
      | none => .ok m

def load (f : Files) (dir : String) : Except ManifestError Manifest := loadBy read f dir

end Manifest

end TreeWalk
