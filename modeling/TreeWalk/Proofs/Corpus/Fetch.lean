import Mathlib.Data.List.Nodup
import Mathlib.Data.List.Perm.Subperm
import TreeWalk.Corpus.Fetch
import TreeWalk.Proofs.Files.Tree

/-!
# What one fetch does

The directory of a URL has a proper name, and the scratch directory in it has a name that nothing else has and that no
commit can have. A fetch leaves the files as they are apart from the directory of the URL, which is made if it is
missing, and at most one checkout, which is put there whole.
-/

namespace TreeWalk.CorpusRequest

section Names

theorem mem_of_mem_trimList {p : Char → Bool} {cs : List Char} {c : Char} (h : c ∈ Text.trimList p cs) : c ∈ cs := by
  have hreverse := List.mem_reverse.mp ((List.dropWhile_sublist p).mem (List.mem_reverse.mp h))
  exact (List.dropWhile_sublist p).mem hreverse

/-- What is left of a URL without blanks around it, the scheme and a final `.git`. -/
def stem (url : String) : List Char :=
  dropEnd ".git".toList (dropStart "http://".toList (dropStart "https://".toList (Text.trimList Text.isSpace url.toList)))

def segmentChar (c : Char) : Char := if isSegmentChar c then c else '_'

theorem directoryName_eq (url : String) :
    directoryName url =
      if (Text.trimList (· = '_') ((stem url).map segmentChar)).isEmpty then "corpus"
      else String.ofList (Text.trimList (· = '_') ((stem url).map segmentChar)) := rfl

theorem isSegmentChar_of_mem {url : String} {c : Char} (h : c ∈ (directoryName url).toList) : isSegmentChar c = true := by
  rw [directoryName_eq] at h
  split at h
  · have hall : ("corpus".toList.all isSegmentChar) = true := by decide
    exact List.all_eq_true.mp hall c h
  · rw [String.toList_ofList] at h
    obtain ⟨d, -, rfl⟩ := List.mem_map.mp (mem_of_mem_trimList h)
    unfold segmentChar
    split
    · assumption
    · decide

theorem directoryName_ne_empty (url : String) : directoryName url ≠ "" := by
  rw [directoryName_eq]
  split
  · decide
  · next hne => simpa [String.ofList_eq_empty_iff] using hne

theorem isName_directoryName {url : String} (hdot : directoryName url ≠ ".") (hup : directoryName url ≠ "..") :
    Path.IsName (directoryName url) where
  ne_empty := directoryName_ne_empty url
  ne_dot := hdot
  ne_up := hup
  no_slash hslash := absurd (isSegmentChar_of_mem hslash) (by decide)

theorem isHash_iff {s : String} : isHash s = true ↔ s.length = 40 ∧
    ∀ c ∈ s.toList, (c.isDigit || ('a' ≤ c && c ≤ 'f') || ('A' ≤ c && c ≤ 'F')) = true := by
  simp [isHash]

theorem isName_of_isHash {s : String} (h : isHash s = true) : Path.IsName s := by
  obtain ⟨hlength, hdigits⟩ := isHash_iff.mp h
  refine ⟨?_, ?_, ?_, fun hslash => absurd (hdigits '/' hslash) (by decide)⟩
  all_goals
    rintro rfl
    exact absurd hlength (by decide)

def scratchStart : List Char := "git-fetch-".toList

theorem not_scratch_of_isHash {s : String} (h : isHash s = true) : ¬scratchStart <+: s.toList := by
  intro hstart
  have hg : 'g' ∈ s.toList := hstart.mem (by decide)
  exact absurd ((isHash_iff.mp h).2 'g' hg) (by decide)

theorem exists_scratchName (entries : List (String × Entry)) : ∃ n : Nat, scratchName entries = s!"git-fetch-{n}" := by
  unfold scratchName
  dsimp only
  cases hfind : ((List.range (entries.length + 1)).map fun n : Nat => s!"git-fetch-{n}").find?
      fun name => (entries.lookup name).isNone with
  | none => exact ⟨entries.length, rfl⟩
  | some name =>
    obtain ⟨n, -, hn⟩ := List.mem_map.mp (List.mem_of_find?_eq_some hfind)
    exact ⟨n, hn.symm⟩

theorem scratchName_start (entries : List (String × Entry)) : scratchStart <+: (scratchName entries).toList := by
  obtain ⟨n, hn⟩ := exists_scratchName entries
  have htext : (scratchName entries).toList = scratchStart ++ (toString n).toList :=
    (congrArg String.toList hn).trans String.toList_append
  exact htext ▸ List.prefix_append _ _

/-- Among one more candidates than there are entries, one is the name of no entry. -/
theorem lookup_scratchName (entries : List (String × Entry)) : entries.lookup (scratchName entries) = none := by
  unfold scratchName
  dsimp only
  cases hfind : ((List.range (entries.length + 1)).map fun n : Nat => s!"git-fetch-{n}").find?
      fun name => (entries.lookup name).isNone with
  | some name => simpa using List.find?_some hfind
  | none =>
    have hinjective : Function.Injective fun n : Nat => s!"git-fetch-{n}" := by
      intro m n heq
      have htext : toString m = toString n := by simpa using heq
      have hdigits : Nat.toDigits 10 m = Nat.toDigits 10 n := by
        simpa [Nat.toString_eq_repr] using congrArg String.toList htext
      calc m = Nat.ofDigitChars 10 (Nat.toDigits 10 m) 0 := (Nat.ofDigitChars_toDigits (by decide) (by decide)).symm
        _ = Nat.ofDigitChars 10 (Nat.toDigits 10 n) 0 := by rw [hdigits]
        _ = n := Nat.ofDigitChars_toDigits (by decide) (by decide)
    have htaken : ((List.range (entries.length + 1)).map fun n : Nat => s!"git-fetch-{n}") ⊆ entries.map Prod.fst := by
      intro name hname
      have hsome := List.find?_eq_none.mp hfind name hname
      obtain ⟨e, he⟩ : ∃ e, (name, e) ∈ entries := by simpa using hsome
      exact List.mem_map.mpr ⟨_, he, rfl⟩
    have hlength := (List.subperm_of_subset (List.nodup_range.map hinjective) htaken).length_le
    simp only [List.length_map, List.length_range] at hlength
    omega

end Names

section Effect

variable {resolver : Resolver} {remote : Remote} {r : CorpusRequest} {revision : Revision} {dir : String}
  {place : List String} {f : Files} {entries : List (String × Entry)}

/-- How a fetch ends once the directory at `place` is there, with these entries: the files are as before, or they have
one checkout more, which is the tree of a commit. -/
def Settles (commits : List Commit) (dir : String) (place : List String) (entries : List (String × Entry)) (f : Files)
    (fetch : Fetch) : Prop :=
  (∃ e, fetch.outcome = .error e ∧ fetch.files = f) ∨
  ∃ hash, isHash hash = true ∧ fetch.outcome = .ok ⟨Path.join [dir, hash], hash⟩ ∧
    ((entries.lookup hash).isSome ∧ fetch.files = f ∨
      entries.lookup hash = none ∧ ∃ c ∈ commits, c.hash = hash ∧ fetch.files = f.put (place ++ [hash]) c.tree)

theorem at?_child {name : String} (h : f.at? place = some (.directory entries)) :
    f.at? (place ++ [name]) = entries.lookup name := by
  rw [Files.at?_concat, h]
  rfl

theorem remove_scratch (hplace : f.at? place = some (.directory entries)) (e : Entry) :
    (f.put (place ++ [scratchName entries]) e).remove (place ++ [scratchName entries]) = f := by
  simp only [Files.remove, Files.put, Entry.remove_put hplace (lookup_scratchName entries)]

/-- The scratch directory stands in the place of no checkout. -/
theorem at?_beside_scratch (hplace : f.at? place = some (.directory entries)) {hash : String} (hhash : isHash hash = true)
    (e : Entry) : (f.put (place ++ [scratchName entries]) e).at? (place ++ [hash]) = entries.lookup hash := by
  have hne : hash ≠ scratchName entries := by
    rintro rfl
    exact not_scratch_of_isHash hhash (scratchName_start entries)
  rw [Files.at?_put, Entry.at?_put_apart hplace hne]
  exact at?_child hplace

theorem fromClone_found (hplace : f.at? place = some (.directory entries)) {repository : Repository} {c : Commit}
    (hresolve : resolver.resolve? repository revision.name = some c) (hhash : isHash c.hash = true)
    (hpresent : (entries.lookup c.hash).isSome) (head : Entry) :
    fromClone resolver r repository revision dir place (place ++ [scratchName entries])
      (f.put (place ++ [scratchName entries]) head) =
        ⟨.ok ⟨Path.join [dir, c.hash], c.hash⟩, f, [reused r.url c.hash]⟩ := by
  unfold fromClone
  rw [hresolve]
  dsimp only
  rw [at?_beside_scratch hplace hhash, if_pos hpresent, remove_scratch hplace]

theorem fromClone_settles (hplace : f.at? place = some (.directory entries)) {repository : Repository}
    (hhash : ∀ c ∈ repository.commits, isHash c.hash = true) (head : Entry) :
    Settles repository.commits dir place entries f
      (fromClone resolver r repository revision dir place (place ++ [scratchName entries])
        (f.put (place ++ [scratchName entries]) head)) := by
  cases hresolve : resolver.resolve? repository revision.name with
  | none =>
    unfold fromClone
    rw [hresolve]
    exact .inl ⟨_, rfl, remove_scratch hplace head⟩
  | some c =>
    have hc := resolver.mem_commits hresolve
    by_cases hpresent : (entries.lookup c.hash).isSome
    · rw [fromClone_found hplace hresolve (hhash c hc) hpresent]
      exact .inr ⟨c.hash, hhash c hc, rfl, .inl ⟨hpresent, rfl⟩⟩
    · unfold fromClone
      rw [hresolve]
      dsimp only
      rw [at?_beside_scratch hplace (hhash c hc), if_neg hpresent]
      split
      · exact .inl ⟨_, rfl, remove_scratch hplace head⟩
      · exact .inl ⟨_, rfl, remove_scratch hplace head⟩
      · have htwice : (f.put (place ++ [scratchName entries]) head).put (place ++ [scratchName entries]) c.tree =
            f.put (place ++ [scratchName entries]) c.tree := by
          simp only [Files.put, Entry.put_put]
        refine .inr ⟨c.hash, hhash c hc, rfl, .inr ⟨Option.not_isSome_iff_eq_none.mp hpresent, c, hc, rfl, ?_⟩⟩
        dsimp only
        rw [htwice, remove_scratch hplace]

def commits (remote : Remote) (r : CorpusRequest) : List Commit := ((remote r.url).map Repository.commits).getD []

theorem fromRemote_fromClone (hplace : f.at? place = some (.directory entries)) {repository : Repository}
    (hremote : remote r.url = some repository) :
    ∃ head log, fromRemote resolver remote r revision dir place f =
      { fromClone resolver r repository revision dir place (place ++ [scratchName entries])
          (f.put (place ++ [scratchName entries]) head) with log := log } := by
  have hentries : entriesAt f place = entries := by rw [entriesAt, hplace]
  have htwice (e : Entry) : (f.put (place ++ [scratchName entries]) (.directory [])).put
      (place ++ [scratchName entries]) e = f.put (place ++ [scratchName entries]) e := by
    simp only [Files.put, Entry.put_put]
  unfold fromRemote
  rw [hentries, hremote]
  dsimp only
  rw [htwice]
  exact ⟨_, _, rfl⟩

theorem fromRemote_settles (hplace : f.at? place = some (.directory entries))
    (hhash : ∀ c ∈ commits remote r, isHash c.hash = true) :
    Settles (commits remote r) dir place entries f (fromRemote resolver remote r revision dir place f) := by
  unfold commits at hhash ⊢
  cases hremote : remote r.url with
  | none =>
    have hentries : entriesAt f place = entries := by rw [entriesAt, hplace]
    unfold fromRemote
    rw [hentries, hremote]
    exact .inl ⟨_, rfl, remove_scratch hplace _⟩
  | some repository =>
    obtain ⟨head, log, hfetch⟩ := @fromRemote_fromClone resolver remote r revision dir place f entries hplace repository hremote
    rw [hremote] at hhash
    rw [hfetch]
    exact fromClone_settles hplace hhash head

theorem reuse_settles (hplace : f.at? place = some (.directory entries))
    (hhash : ∀ c ∈ commits remote r, isHash c.hash = true) :
    Settles (commits remote r) dir place entries f
      (if isHash r.rev && (f.at? (place ++ [r.rev])).isSome then
          ⟨.ok ⟨Path.join [dir, r.rev], r.rev⟩, f, [reused r.url r.rev]⟩
        else fromRemote resolver remote r revision dir place f) := by
  by_cases hreuse : isHash r.rev = true ∧ (entries.lookup r.rev).isSome
  · rw [at?_child hplace, if_pos (by simpa using hreuse)]
    exact .inr ⟨r.rev, hreuse.1, rfl, .inl ⟨hreuse.2, rfl⟩⟩
  · rw [at?_child hplace, if_neg (by simpa using hreuse)]
    exact fromRemote_settles hplace hhash

theorem fetch_refused (resolver : Resolver) {base : String} (h : Text.isBlank r.url = true ∨ r.revision? = none) :
    ∃ e, fetchBy resolver remote base r f = ⟨.error e, f, []⟩ := by
  unfold fetchBy
  by_cases hurl : Text.isBlank r.url = true
  · exact ⟨_, if_pos hurl⟩
  · rw [if_neg hurl, h.resolve_left hurl]
    exact ⟨_, rfl⟩

theorem fetch_eq {base : String} {made : Files} (hurl : ¬Text.isBlank r.url = true) (hrevision : r.revision? = some revision)
    (hmake : f.makeDirectories (Path.join [base, directoryName r.url]) = .ok (place, made)) :
    fetchBy resolver remote base r f =
      if isHash r.rev && (made.at? (place ++ [r.rev])).isSome then
        ⟨.ok ⟨Path.join [Path.join [base, directoryName r.url], r.rev], r.rev⟩, made, [reused r.url r.rev]⟩
      else fromRemote resolver remote r revision (Path.join [base, directoryName r.url]) place made := by
  unfold fetchBy
  rw [if_neg hurl, hrevision]
  dsimp only
  rw [hmake]

/-- A request with a URL and one revision at most makes the directory of its URL if it is missing, and does all else in
there. -/
theorem fetch_settles (resolver : Resolver) {base : String} (hname : Path.IsName (directoryName r.url))
    (hbase : f.at? (f.place base) = some (.directory entries))
    (hfile : ∀ content, entries.lookup (directoryName r.url) ≠ some (.file content))
    (hhash : ∀ c ∈ commits remote r, isHash c.hash = true) (hurl : Text.isBlank r.url = false)
    (hrevision : r.revision? ≠ none) :
    ∃ made below, made.at? (f.place base ++ [directoryName r.url]) = some (.directory below) ∧
      (made = f ∨ entries.lookup (directoryName r.url) = none ∧ below = [] ∧
        made = f.put (f.place base ++ [directoryName r.url]) (.directory [])) ∧
      Settles (commits remote r) (Path.join [base, directoryName r.url]) (f.place base ++ [directoryName r.url]) below
        made (fetchBy resolver remote base r f) := by
  obtain ⟨revision, hrevision⟩ := Option.ne_none_iff_exists'.mp hrevision
  rw [fetch_eq (by simp [hurl]) hrevision (Files.makeDirectories_join hname hbase hfile)]
  generalize hmade : (if (entries.lookup (directoryName r.url)).isSome then f
    else f.put (f.place base ++ [directoryName r.url]) (.directory [])) = made
  obtain ⟨below, hbelow, hhow⟩ : ∃ below, made.at? (f.place base ++ [directoryName r.url]) = some (.directory below) ∧
      (made = f ∨ entries.lookup (directoryName r.url) = none ∧ below = [] ∧
        made = f.put (f.place base ++ [directoryName r.url]) (.directory [])) := by
    cases hlookup : entries.lookup (directoryName r.url) with
    | none =>
      have hput : made = f.put (f.place base ++ [directoryName r.url]) (.directory []) := by simpa [hlookup] using hmade.symm
      refine ⟨[], ?_, .inr ⟨rfl, rfl, hput⟩⟩
      rw [hput, Files.at?_put, Entry.at?_put_child hbase, if_pos rfl, Entry.at?_nil]
    | some e =>
      have hsame : made = f := by simpa [hlookup] using hmade.symm
      cases e with
      | file content => exact absurd hlookup (hfile content)
      | directory below => exact ⟨below, by rw [hsame, at?_child hbase, hlookup], .inl hsame⟩
  exact ⟨made, below, hbelow, hhow, reuse_settles hbelow hhash⟩

end Effect

end TreeWalk.CorpusRequest
