import TreeWalk.Files.Path

/-!
# File trees

The files that a program can see, as a value: a tree of directories with files at its leaves, and
a working directory in it. A place in the tree is the list of names that leads to it. A path is
followed name by name, and each name has to stand in a directory.
-/

namespace TreeWalk

inductive Entry where
  | file (content : ByteArray)
  | directory (entries : List (String × Entry))
deriving Inhabited

namespace Entry

def isDirectory : Entry → Bool
  | file _ => false
  | directory _ => true

def child? (name : String) : Entry → Option Entry
  | file _ => none
  | directory entries => entries.lookup name

def at? : List String → Entry → Option Entry
  | [], e => some e
  | name :: place, e => (e.child? name).bind (at? place)

def setChild (name : String) (e : Entry) : List (String × Entry) → List (String × Entry)
  | [] => [(name, e)]
  | (other, old) :: rest =>
    if other = name then (name, e) :: rest else (other, old) :: setChild name e rest

/-- Puts an entry at a place, with the directories on the way. -/
def put : Entry → List String → Entry → Entry
  | _, [], new => new
  | directory entries, name :: place, new =>
    directory (setChild name (put ((entries.lookup name).getD (directory [])) place new) entries)
  | file content, _ :: _, _ => file content

def remove : Entry → List String → Entry
  | file content, _ => file content
  | e, [] => e
  | directory entries, [name] => directory (entries.filter fun (other, _) => other ≠ name)
  | directory entries, name :: place =>
    match entries.lookup name with
    | some e => directory (setChild name (remove e place) entries)
    | none => directory entries

/-- Adds a file, or a directory if its path ends in a slash. -/
def addFile (e : Entry) (path : String) (content : ByteArray) : Entry :=
  let place := Path.names path
  if !path.endsWith "/" then e.put place (file content)
  else if (e.at? place).isSome then e
  else e.put place (directory [])

def ofFiles (files : List (String × ByteArray)) : Entry :=
  files.foldl (fun e (path, content) => e.addFile path content) (directory [])

mutual

/-- The paths of all entries below a directory, those of directories with a slash at the end. -/
def listing (path : String) : Entry → List String
  | file _ => [path]
  | directory entries => (path ++ "/") :: listingBelow (path ++ "/") entries

def listingBelow (start : String) : List (String × Entry) → List String
  | [] => []
  | (name, e) :: rest => e.listing (start ++ name) ++ listingBelow start rest

end

end Entry

inductive PathCause where
  | notFound
  | notDirectory
  | isDirectory
deriving DecidableEq, Repr

def PathCause.message : PathCause → String
  | notFound => "no such file or directory"
  | notDirectory => "not a directory"
  | isDirectory => "is a directory"

structure PathError where
  action : String
  path : String
  cause : PathCause
deriving DecidableEq, Repr

def PathError.message (e : PathError) : String := e.action ++ " " ++ e.path ++ ": " ++ e.cause.message

structure Files where
  root : Entry
  here : List String
deriving Inhabited

namespace Files

def workDir (f : Files) : String := Path.ofNames true f.here

def at? (f : Files) (place : List String) : Option Entry := f.root.at? place

/-- Follows one segment of a path. -/
def follow (f : Files) (place : List String) (segment : String) : Except PathCause (List String) :=
  match f.at? place with
  | none => .error .notFound
  | some (.file _) => .error .notDirectory
  | some (.directory entries) =>
    if segment = "" || segment = "." then .ok place
    else if segment = ".." then .ok place.dropLast
    else if (entries.lookup segment).isSome then .ok (place ++ [segment])
    else .error .notFound

def origin (f : Files) (path : String) : List String := if Path.isAbsolute path then [] else f.here

def locate (f : Files) (path : String) : Except PathCause (List String) :=
  if path = "" then .error .notFound else (Path.segments path).foldlM f.follow (f.origin path)

def find (f : Files) (path : String) : Except PathCause Entry := do
  match f.at? (← f.locate path) with
  | some e => .ok e
  | none => .error .notFound

def exists? (f : Files) (path : String) : Bool := (f.find path).isOk

def isFile (f : Files) (path : String) : Bool :=
  match f.find path with
  | .ok e => !e.isDirectory
  | .error _ => false

/-- Opens a path; a directory can be opened but holds no text. -/
def open? (f : Files) (path : String) : Except PathError (Option ByteArray) :=
  match f.find path with
  | .ok (.file content) => .ok (some content)
  | .ok (.directory _) => .ok none
  | .error cause => .error ⟨"open", path, cause⟩

def readFile (f : Files) (path : String) : Except PathError ByteArray := do
  match ← f.open? path with
  | some content => .ok content
  | none => .error ⟨"read", path, .isDirectory⟩

def put (f : Files) (place : List String) (e : Entry) : Files := { f with root := f.root.put place e }

def remove (f : Files) (place : List String) : Files := { f with root := f.root.remove place }

/-- Makes the directories that are missing on the way. `walked` are the names before `names`. -/
def makeDirectoriesFrom (absolute : Bool) :
    (walked place names : List String) → Files → Except PathError (List String × Files)
  | _, place, [], f => .ok (place, f)
  | walked, place, name :: names, f =>
    if name = ".." then makeDirectoriesFrom absolute (walked ++ [name]) place.dropLast names f
    else
      match f.at? (place ++ [name]) with
      | some (.file _) => .error ⟨"mkdir", Path.ofNames absolute (walked ++ [name]), .notDirectory⟩
      | some (.directory _) => makeDirectoriesFrom absolute (walked ++ [name]) (place ++ [name]) names f
      | none =>
        makeDirectoriesFrom absolute (walked ++ [name]) (place ++ [name]) names
          (f.put (place ++ [name]) (.directory []))

def makeDirectories (f : Files) (path : String) : Except PathError (List String × Files) :=
  makeDirectoriesFrom (Path.isAbsolute path) [] (f.origin path) (Path.names path) f

end Files

end TreeWalk
