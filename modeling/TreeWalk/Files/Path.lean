/-!
# Paths

A path is a text whose names are divided by slashes; an absolute one starts with a slash. Paths
are simplified by their text alone: `.` and empty names are dropped, and `..` takes the name
before it away.
-/

namespace TreeWalk.Path

def splitSlashes : List Char → List (List Char)
  | [] => [[]]
  | c :: cs =>
    if c = '/' then [] :: splitSlashes cs
    else
      match splitSlashes cs with
      | first :: rest => (c :: first) :: rest
      | [] => [[c]]

def segments (path : String) : List String := (splitSlashes path.toList).map String.ofList

def isAbsolute (path : String) : Bool := path.toList.head? = some '/'

/-- Adds a segment to the names so far, the last name first. -/
def addSegment (absolute : Bool) (names : List String) (segment : String) : List String :=
  if segment = "" || segment = "." then names
  else if segment = ".." then
    match names with
    | last :: rest => if last = ".." then ".." :: names else rest
    | [] => if absolute then [] else [".."]
  else segment :: names

def simplify (absolute : Bool) (segments : List String) : List String :=
  (segments.foldl (addSegment absolute) []).reverse

def names (path : String) : List String := simplify (isAbsolute path) (segments path)

def ofNames (absolute : Bool) (names : List String) : String :=
  if absolute then "/" ++ "/".intercalate names
  else if names.isEmpty then "."
  else "/".intercalate names

/-- The shortest path with the same names. -/
def clean (path : String) : String := ofNames (isAbsolute path) (names path)

/-- Joins paths with slashes and simplifies the result; empty paths do not count. -/
def join (paths : List String) : String :=
  match paths.dropWhile (· = "") with
  | [] => ""
  | paths => clean ("/".intercalate paths)

def parent (path : String) : String :=
  ofNames (isAbsolute path) (simplify (isAbsolute path) (segments path).dropLast)

def base (path : String) : String :=
  match ((segments path).filter (· ≠ "")).getLast? with
  | some name => name
  | none => if path = "" then "." else "/"

def extension (path : String) : String :=
  let last := (((segments path).getLast?).getD "").toList
  if '.' ∈ last then "." ++ String.ofList (last.reverse.takeWhile (· ≠ '.')).reverse else ""

/-- The path as seen from the root, for a working directory. -/
def absolute (workDir path : String) : String :=
  if isAbsolute path then clean path else join [workDir, path]

def dropCommon : List String → List String → List String × List String
  | a :: as, b :: bs => if a = b then dropCommon as bs else (a :: as, b :: bs)
  | as, bs => (as, bs)

/-- The path from one directory to another. There is none if only one of them is absolute, or if
the way leads out of a directory whose name is not known. -/
def relative? (start target : String) : Option String :=
  if isAbsolute start ≠ isAbsolute target then none
  else
    let (up, down) := dropCommon (names start) (names target)
    if up.head? = some ".." then none
    else some (ofNames false (up.map (fun _ => "..") ++ down))

end TreeWalk.Path
