import TreeWalk.Text.Space

/-!
# Requests for a corpus

A corpus is a git repository of programs. A request names one by its URL, at a revision that is
given as a commit, a tag or a branch, or not at all.
-/

namespace TreeWalk

structure CorpusRequest where
  url : String
  rev : String
  tag : String
  branch : String
deriving DecidableEq, Repr, Inhabited

structure Revision where
  name : String
  descriptor : String
deriving DecidableEq, Repr

namespace CorpusRequest

def conflictText : String := "corpus: rev, tag and branch are mutually exclusive"

/-- The revision of a request; none if it gives more than one. Fields of blanks are not given. -/
def revision? (r : CorpusRequest) : Option Revision :=
  let rev := Text.trim r.rev
  let tag := Text.trim r.tag
  let branch := Text.trim r.branch
  if 1 < ([rev, tag, branch].filter (· ≠ "")).length then none
  else if rev ≠ "" then some ⟨rev, rev⟩
  else if tag ≠ "" then some ⟨"refs/tags/" ++ tag, tag⟩
  else if branch ≠ "" then some ⟨"refs/remotes/origin/" ++ branch, branch⟩
  else some ⟨"HEAD", "HEAD"⟩

def isSegmentChar (c : Char) : Bool := c.isAlphanum || c = '.' || c = '-' || c = '_'

def dropStart (start cs : List Char) : List Char :=
  if start.isPrefixOf cs then cs.drop start.length else cs

def dropEnd (ending cs : List Char) : List Char :=
  if ending.isSuffixOf cs then cs.take (cs.length - ending.length) else cs

/-- A directory name for a URL. The scheme and a final `.git` are left out, other characters than
letters, digits, dots, dashes and underscores become underscores, and underscores at the ends are
dropped. -/
def directoryName (url : String) : String :=
  let cs := Text.trimList Text.isSpace url.toList
  let cs := dropStart "http://".toList (dropStart "https://".toList cs)
  let cs := (dropEnd ".git".toList cs).map fun c => if isSegmentChar c then c else '_'
  let cs := Text.trimList (· = '_') cs
  if cs.isEmpty then "corpus" else String.ofList cs

/-- Whether a text is a full commit hash: forty hexadecimal digits. -/
def isHash (s : String) : Bool :=
  s.length = 40 && s.toList.all fun c =>
    c.isDigit || ('a' ≤ c && c ≤ 'f') || ('A' ≤ c && c ≤ 'F')

end CorpusRequest

end TreeWalk
