import TreeWalk.Command.Run

/-!
# The program

Collects what a command line can see, runs it, and carries out what it leaves. Files are read from
the working directory down, with the configuration files above it and the paths that arguments
name. Repositories are not reached from here, so that only checkouts already there are found.
-/

namespace TreeWalk

partial def readEntry (path : String) : IO (Option Entry) := do
  match ← (IO.FS.realPath path).toBaseIO with
  | .error _ => return none
  | .ok real =>
    if ← real.isDir then
      let entries ← (← real.readDir).toList.filterMapM fun e => do
        return (← readEntry e.path.toString).map fun found => (e.fileName, found)
      return some (.directory entries)
    else
      match ← (IO.FS.readBinFile path).toBaseIO with
      | .ok content => return some (.file content)
      | .error _ => return none

def addPath (tree : Entry) (path : String) : IO Entry := do
  let place := Path.names path
  if (tree.at? place).isSome then return tree
  match ← readEntry path with
  | some e => return tree.put place e
  | none => return tree

def collectFiles (workDir : String) (args : List String) : IO Files := do
  let here := Path.names workDir
  let mut tree := Entry.directory []
  for directory in Config.upward here.reverse do
    for name in [Config.fileName, ".env"] do
      tree ← addPath tree (Path.ofNames true (directory ++ [name]))
  let below := (← readEntry workDir).getD (.directory [])
  tree := tree.put here below
  for word in args do
    let named := (splitEquals word.toList).2.getD word
    tree ← addPath tree (Path.absolute workDir named)
  return ⟨tree, here⟩

def collectVariables : IO Variables := do
  let names := [Config.depthVariable, Config.levelVariable, Config.colorVariable,
    Config.corpusDirVariable, "NO_COLOR"]
  names.filterMapM fun name => do return (← IO.getEnv name).map (name, ·)

partial def makeAdded (path : String) (before : Option Entry) : Entry → IO Unit
  | .file _ => return
  | .directory entries => do
    if before.isNone then IO.FS.createDirAll path
    for (name, e) in entries do
      makeAdded (path ++ "/" ++ name) (before.bind (·.child? name)) e

end TreeWalk

open TreeWalk in
def main (args : List String) : IO UInt32 := do
  let workDir := (← IO.currentDir).toString
  let files ← collectFiles workDir args
  let out ← IO.getStdout
  let err ← IO.getStderr
  let now := toString (← IO.monoMsNow)
  let report := Invocation.run
    ⟨args, files, ← collectVariables, fun _ => none, ← out.isTty, ⟨now, "0s"⟩⟩
  makeAdded "" (some files.root) report.files.root
  out.write report.stdout
  err.write report.stderr
  return report.code.toUInt32
