import TreeWalk.Files.Tree

/-!
# Repositories

A repository as a clone of it shows it: its commits, each with the files of its tree, and the
references of the clone.
-/

namespace TreeWalk

structure Commit where
  hash : String
  files : List (String × ByteArray)
deriving Inhabited

def Commit.tree (c : Commit) : Entry := Entry.ofFiles c.files

inductive Damage where
  | noWorktree (cause : String)
  | unreadable (cause : String)
deriving DecidableEq, Repr

structure Repository where
  commits : List Commit
  references : List (String × String)
  damage : Option Damage
deriving Inhabited

/-- The repositories that URLs lead to. -/
abbrev Remote := String → Option Repository

namespace Repository

def commit? (r : Repository) (hash : String) : Option Commit := r.commits.find? (·.hash = hash)

/-- The references that a name may stand for, in the order of preference. -/
def candidates (name : String) : List String :=
  [name, "refs/" ++ name, "refs/tags/" ++ name, "refs/heads/" ++ name, "refs/remotes/" ++ name]

def resolve? (r : Repository) (name : String) : Option Commit :=
  (r.commit? name).or <|
    ((candidates name).findSome? fun reference => r.references.lookup reference).bind r.commit?

theorem commit?_isSome_iff {r : Repository} {hash : String} :
    (r.commit? hash).isSome ↔ ∃ c ∈ r.commits, c.hash = hash := by
  simp [commit?, List.find?_isSome]

end Repository

/-- How it is found out which commit of a repository a revision stands for. Besides hashes and references there may be
abbreviated hashes, ancestors and dates. -/
structure Resolver where
  resolve? : Repository → String → Option Commit
  mem_commits : ∀ {r name c}, resolve? r name = some c → c ∈ r.commits
  resolves_hash : ∀ {r : Repository} {c : Commit}, c ∈ r.commits → ∃ d, resolve? r c.hash = some d ∧ d.hash = c.hash

def Resolver.named : Resolver where
  resolve? := Repository.resolve?
  mem_commits h := by
    rw [Repository.resolve?, Option.or_eq_some_iff] at h
    rcases h with h | ⟨-, h⟩
    · exact List.mem_of_find?_eq_some h
    · obtain ⟨hash, -, hfind⟩ := Option.bind_eq_some_iff.mp h
      exact List.mem_of_find?_eq_some hfind
  resolves_hash hc := by
    obtain ⟨d, hd⟩ := Option.isSome_iff_exists.mp (Repository.commit?_isSome_iff.mpr ⟨_, hc, rfl⟩)
    refine ⟨d, by rw [Repository.resolve?, hd, Option.some_or], ?_⟩
    simpa using List.find?_some hd

end TreeWalk
