import TreeWalk.Files.Tree
import TreeWalk.Syntax.Decode
import TreeWalk.Text.Space

/-!
# Programs in files

A program is read from a file, and a directory is searched for files of programs. The search
leaves out directories whose names start with a dot, other than the one it starts in.
-/

namespace TreeWalk

inductive LoadError where
  | unreadable (error : PathError)
  | undecoded (path : String) (error : DecodeError)

def LoadError.message : LoadError → String
  | unreadable error => "load program: " ++ error.message
  | undecoded path error => "load program " ++ path ++ ": " ++ error.message

/-- Loads a program. One without a name takes that of its file. -/
def Program.load (f : Files) (path : String) : Except LoadError Program :=
  match f.readFile path with
  | .error e => .error (.unreadable e)
  | .ok content =>
    match Program.decode content with
    | .error e => .error (.undecoded path e)
    | .ok p => .ok (if p.name = "" then { p with name := Path.base path } else p)

structure SearchError where
  wanted : String
  directory : String
  error : PathError

def SearchError.message (e : SearchError) : String :=
  "discover " ++ e.wanted ++ " in " ++ e.directory ++ ": " ++ e.error.message

def Files.searchRoot (f : Files) (wanted directory : String) : Except SearchError Entry :=
  match f.find directory with
  | .ok e => .ok e
  | .error cause => .error ⟨wanted, directory, ⟨"lstat", directory, cause⟩⟩

/-- Directories that a search leaves out. -/
def isHidden (name : String) : Bool := name.startsWith "."

def isProgramPath (path : String) : Bool := Text.foldsTo (Path.extension path) ".json"

def sortPaths (paths : List String) : List String := paths.mergeSort fun a b => a ≤ b

namespace Entry

mutual

/-- The paths of the programs in an entry at `path`. -/
def programs (path : String) : Entry → List String
  | file _ => if isProgramPath path then [path] else []
  | directory entries => programsBelow path entries

def programsBelow (path : String) : List (String × Entry) → List String
  | [] => []
  | (name, e) :: rest =>
    (if e.isDirectory && isHidden name then [] else e.programs (Path.join [path, name])) ++
      programsBelow path rest

end

end Entry

def Files.discoverPrograms (f : Files) (directory : String) : Except SearchError (List String) := do
  let e ← f.searchRoot "programs" directory
  return sortPaths (e.programs directory)

end TreeWalk
