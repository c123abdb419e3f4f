import TreeWalk.Corpus.Repository
import TreeWalk.Corpus.Request
import TreeWalk.Log.Record

/-!
# Fetching a corpus

Checkouts are kept in a base directory, one for each URL and commit. A repository is cloned into
a scratch directory beside the checkouts, the wanted commit is checked out there, and the result
is renamed to the commit's hash. A checkout that is already there is used as it is.
-/

namespace TreeWalk

structure Checkout where
  dir : String
  commit : String
deriving DecidableEq, Repr

inductive FetchError where
  | noUrl
  | conflict
  | directory (error : PathError)
  | notCloned (url : String)
  | unresolved (descriptor : String)
  | noWorktree (cause : String)
  | notCheckedOut (descriptor cause : String)
deriving DecidableEq, Repr

def FetchError.message : FetchError → String
  | noUrl => "corpus: url is required"
  | conflict => CorpusRequest.conflictText
  | directory error => error.message
  | notCloned url => s!"git clone {url}: repository not found"
  | unresolved descriptor => s!"resolve revision {descriptor}: reference not found"
  | noWorktree cause => cause
  | notCheckedOut descriptor cause => s!"git checkout {descriptor}: {cause}"

structure Fetch where
  outcome : Except FetchError Checkout
  files : Files
  log : List Log.Record

namespace CorpusRequest

/-- The name of a scratch directory that no entry has. -/
def scratchName (entries : List (String × Entry)) : String :=
  let numbered (n : Nat) := s!"git-fetch-{n}"
  ((List.range (entries.length + 1)).map numbered |>.find? fun name =>
    (entries.lookup name).isNone).getD (numbered entries.length)

def entriesAt (f : Files) (place : List String) : List (String × Entry) :=
  match f.at? place with
  | some (.directory entries) => entries
  | _ => []

def reused (url commit : String) : Log.Record :=
  Log.debug "corpus checkout reused" [Log.attr "url" url, Log.attr "commit" commit]

/-- Fetches from a clone in the scratch directory at `scratch`. `place` is the place of the
directory `dir`, which holds the checkouts. -/
def fromClone (resolver : Resolver) (r : CorpusRequest) (repository : Repository) (revision : Revision) (dir : String)
    (place scratch : List String) (f : Files) : Fetch :=
  match resolver.resolve? repository revision.name with
  | none => ⟨.error (.unresolved revision.descriptor), f.remove scratch, []⟩
  | some commit =>
    let target := Path.join [dir, commit.hash]
    if (f.at? (place ++ [commit.hash])).isSome then
      ⟨.ok ⟨target, commit.hash⟩, f.remove scratch, [reused r.url commit.hash]⟩
    else
      match repository.damage with
      | some (.noWorktree cause) => ⟨.error (.noWorktree cause), f.remove scratch, []⟩
      | some (.unreadable cause) => ⟨.error (.notCheckedOut revision.descriptor cause), f.remove scratch, []⟩
      | none =>
        let f := f.put scratch commit.tree
        let f := (f.remove scratch).put (place ++ [commit.hash]) commit.tree
        ⟨.ok ⟨target, commit.hash⟩, f, [Log.info "corpus fetched"
          [Log.attr "url" r.url, Log.attr "commit" commit.hash, Log.attr "dir" target]]⟩

def fromRemote (resolver : Resolver) (remote : Remote) (r : CorpusRequest) (revision : Revision) (dir : String)
    (place : List String) (f : Files) : Fetch :=
  let scratch := place ++ [scratchName (entriesAt f place)]
  let cloning := Log.info "cloning corpus" [Log.attr "url" r.url, Log.attr "revision" revision.descriptor]
  let f := f.put scratch (.directory [])
  match remote r.url with
  | none => ⟨.error (.notCloned r.url), f.remove scratch, [cloning]⟩
  | some repository =>
    let head := ((repository.resolve? "HEAD").map Commit.tree).getD (.directory [])
    let fetch := fromClone resolver r repository revision dir place scratch (f.put scratch head)
    { fetch with log := cloning :: fetch.log }

/-- Fetches a corpus into the base directory `base`. A full hash names its checkout, so that an
existing one is used without a clone. -/
def fetchBy (resolver : Resolver) (remote : Remote) (base : String) (r : CorpusRequest) (f : Files) : Fetch :=
  if Text.isBlank r.url then ⟨.error .noUrl, f, []⟩
  else
    match r.revision? with
    | none => ⟨.error .conflict, f, []⟩
    | some revision =>
      let dir := Path.join [base, directoryName r.url]
      match f.makeDirectories dir with
      | .error e => ⟨.error (.directory e), f, []⟩
      | .ok (place, f) =>
        if isHash r.rev && (f.at? (place ++ [r.rev])).isSome then
          ⟨.ok ⟨Path.join [dir, r.rev], r.rev⟩, f, [reused r.url r.rev]⟩
        else fromRemote resolver remote r revision dir place f

def fetch (remote : Remote) (base : String) (r : CorpusRequest) (f : Files) : Fetch := r.fetchBy .named remote base f

end CorpusRequest

end TreeWalk
