import Mathlib.Data.List.Infix
import TreeWalk.Proofs.Corpus.Fetch

/-!
# The checkouts of a base directory

Requests are fetched one after another into one base directory that is empty at first. The directories of their URLs
then hold whole checkouts and nothing else, whatever goes wrong on the way: each call keeps the checkouts it finds, and
adds the directory of its URL and one checkout at most.
-/

namespace TreeWalk

open CorpusRequest

/-- A request, with the repositories that URLs lead to and the revisions that are understood when it is fetched. -/
structure FetchCall where
  resolver : Resolver
  remote : Remote
  request : CorpusRequest

namespace FetchCall

def name (call : FetchCall) : String := directoryName call.request.url

def run (base : String) (f : Files) (call : FetchCall) : Fetch := call.request.fetchBy call.resolver call.remote base f

def runAll (base : String) (f : Files) (calls : List FetchCall) : Files :=
  calls.foldl (fun f call => (call.run base f).files) f

/-- The directory of the URL has a proper name. The commits that can be fetched go by their hashes, and `tree` says
which tree a hash stands for. -/
structure Honest (tree : String → Entry) (call : FetchCall) : Prop where
  ne_dot : call.name ≠ "."
  ne_up : call.name ≠ ".."
  isHash_hash : ∀ c ∈ commits call.remote call.request, isHash c.hash = true
  tree_hash : ∀ c ∈ commits call.remote call.request, c.tree = tree c.hash

theorem Honest.isName {tree : String → Entry} {call : FetchCall} (h : call.Honest tree) : Path.IsName call.name :=
  isName_directoryName h.ne_dot h.ne_up

end FetchCall

structure Cache (tree : String → Entry) (base : String) (place : List String) (f : Files) : Prop where
  located : f.place base = place
  directory : ∃ entries, f.at? place = some (.directory entries)
  no_file : ∀ name content, f.at? (place ++ [name]) ≠ some (.file content)
  checkout : ∀ name hash e, f.at? (place ++ [name, hash]) = some e → isHash hash = true ∧ e = tree hash

/-- What a call leaves of a cache with the files `before`. -/
structure Kept (tree : String → Entry) (place : List String) (call : FetchCall) (before : Files) (fetch : Fetch) :
    Prop where
  /-- Each checkout is the whole tree of its commit. -/
  checkout : ∀ name hash e, fetch.files.at? (place ++ [name, hash]) = some e → isHash hash = true ∧ e = tree hash
  /-- No scratch directory is left beside the checkouts. -/
  no_scratch : ∀ name entry, scratchStart <+: entry.toList → fetch.files.at? (place ++ [name, entry]) = none
  /-- The checkouts of before are still there as they were. -/
  unchanged : ∀ name hash e, before.at? (place ++ [name, hash]) = some e →
    fetch.files.at? (place ++ [name, hash]) = some e
  /-- Without a URL, or with more than one revision, nothing happens. -/
  refused : Text.isBlank call.request.url = true ∨ call.request.revision? = none →
    (∃ e, fetch.outcome = .error e) ∧ fetch.files = before
  /-- Otherwise the directory of the URL is there. -/
  directory : Text.isBlank call.request.url = false → call.request.revision? ≠ none →
    ∃ entries, fetch.files.at? (place ++ [call.name]) = some (.directory entries)
  /-- A call that fails adds at most that directory. -/
  failed : ∀ e, fetch.outcome = .error e → ∀ other, other ≠ place ++ [call.name] →
    (fetch.files.at? other).map Entry.face = (before.at? other).map Entry.face
  /-- A call that succeeds adds at most that directory and the checkout of the commit that it gives. -/
  fetched : ∀ c, fetch.outcome = .ok c → fetch.files.place c.dir = place ++ [call.name, c.commit] ∧
    fetch.files.at? (place ++ [call.name, c.commit]) = some (tree c.commit) ∧
    ∀ other, other ≠ place ++ [call.name] → ¬(place ++ [call.name, c.commit]) <+: other →
      (fetch.files.at? other).map Entry.face = (before.at? other).map Entry.face

namespace Cache

variable {tree : String → Entry} {base : String} {place : List String} {f : Files}

theorem of_empty (h : f.at? (f.place base) = some (.directory [])) : Cache tree base (f.place base) f where
  located := rfl
  directory := ⟨[], h⟩
  no_file name content := by simp [at?_child h]
  checkout name hash e := by
    have hnone : f.at? (f.place base ++ [name, hash]) = none := Entry.at?_of_at? h [name, hash]
    simp [hnone]

section Make

variable {name : String}

theorem at?_make (h : Cache tree base place f) (hnew : f.at? (place ++ [name]) = none) (other hash : String) :
    (f.put (place ++ [name]) (.directory [])).at? (place ++ [other, hash]) = f.at? (place ++ [other, hash]) := by
  obtain ⟨entries, hplace⟩ := h.directory
  rw [Files.at?_put, Entry.at?_put_child hplace]
  by_cases hother : other = name
  · have hnone := Entry.at?_of_none hnew [hash]
    rw [List.append_assoc] at hnone
    rw [if_pos hother, hother]
    exact hnone.symm
  · rw [if_neg hother]
    rfl

theorem make (h : Cache tree base place f) (hnew : f.at? (place ++ [name]) = none) :
    Cache tree base place (f.put (place ++ [name]) (.directory [])) := by
  obtain ⟨entries, hplace⟩ := h.directory
  refine ⟨h.located, ?_, ?_, ?_⟩
  · have hbase := Entry.at?_put_below hplace [name] [] (.directory [])
    rw [List.append_nil, Entry.put_cons] at hbase
    exact ⟨_, hbase⟩
  · intro other content
    rw [Files.at?_put, Entry.at?_put_child hplace]
    by_cases hother : other = name
    · simp [hother]
    · rw [if_neg hother]
      exact h.no_file other content
  · intro other hash e hfound
    rw [h.at?_make hnew] at hfound
    exact h.checkout other hash e hfound

end Make

section Add

variable {name hash : String} {below : List (String × Entry)}

theorem at?_add (h : Cache tree base place f) (hdir : f.at? (place ++ [name]) = some (.directory below)) (x : Entry)
    (other hash' : String) :
    (f.put (place ++ [name, hash]) x).at? (place ++ [other, hash']) =
      if other = name ∧ hash' = hash then some x else f.at? (place ++ [other, hash']) := by
  obtain ⟨entries, hplace⟩ := h.directory
  by_cases hother : other = name
  · subst hother
    have hchild := Entry.at?_put_child hdir hash hash' [] x
    rw [List.append_assoc, List.append_assoc] at hchild
    by_cases hhash : hash' = hash
    · rw [if_pos ⟨rfl, hhash⟩]
      exact hchild.trans (if_pos hhash)
    · rw [if_neg (fun hboth => hhash hboth.2)]
      exact hchild.trans (if_neg hhash)
  · rw [if_neg (fun hboth => hother hboth.1), Files.at?_put, Entry.at?_put_apart hplace hother]
    rfl

theorem add (h : Cache tree base place f) (hdir : f.at? (place ++ [name]) = some (.directory below))
    (hhash : isHash hash = true) : Cache tree base place (f.put (place ++ [name, hash]) (tree hash)) := by
  obtain ⟨entries, hplace⟩ := h.directory
  refine ⟨h.located, ?_, ?_, ?_⟩
  · have hbase := Entry.at?_put_below hplace [name, hash] [] (tree hash)
    rw [List.append_nil, Entry.put_cons] at hbase
    exact ⟨_, hbase⟩
  · intro other content
    by_cases hother : other = name
    · subst hother
      have hchild := Entry.at?_put_below hdir [hash] [] (tree hash)
      rw [List.append_nil, List.append_assoc, List.singleton_append, Entry.put_cons] at hchild
      rw [Files.at?_put]
      intro hfile
      have hboth := hchild.symm.trans hfile
      simp at hboth
    · rw [Files.at?_put, Entry.at?_put_apart hplace hother]
      exact h.no_file other content
  · intro other hash' e hfound
    rw [h.at?_add hdir] at hfound
    by_cases hnew : other = name ∧ hash' = hash
    · rw [if_pos hnew] at hfound
      rw [hnew.2]
      exact ⟨hhash, (Option.some.inj hfound).symm⟩
    · rw [if_neg hnew] at hfound
      exact h.checkout other hash' e hfound

end Add

theorem no_scratch (h : Cache tree base place f) (name : String) {entry : String} (hentry : scratchStart <+: entry.toList) :
    f.at? (place ++ [name, entry]) = none := by
  cases hfound : f.at? (place ++ [name, entry]) with
  | none => rfl
  | some e => exact absurd hentry (not_scratch_of_isHash (h.checkout name entry e hfound).1)

section Call

variable {call : FetchCall}

/-- A call that is not refused makes the directory of its URL if it is missing, and then fails, finds the checkout it
wants, or adds it. -/
theorem run_cases (h : Cache tree base place f) (hcall : call.Honest tree)
    (hurl : Text.isBlank call.request.url = false) (hrevision : call.request.revision? ≠ none) :
    ∃ made below, Cache tree base place made ∧ made.at? (place ++ [call.name]) = some (.directory below) ∧
      (∀ other hash, made.at? (place ++ [other, hash]) = f.at? (place ++ [other, hash])) ∧
      (∀ other, other ≠ place ++ [call.name] → (made.at? other).map Entry.face = (f.at? other).map Entry.face) ∧
      ((∃ e, (call.run base f).outcome = .error e ∧ (call.run base f).files = made) ∨
        ∃ hash, isHash hash = true ∧
          (call.run base f).outcome = .ok ⟨Path.join [Path.join [base, call.name], hash], hash⟩ ∧
          (made.at? (place ++ [call.name, hash]) = some (tree hash) ∧ (call.run base f).files = made ∨
            made.at? (place ++ [call.name, hash]) = none ∧
              (call.run base f).files = made.put (place ++ [call.name, hash]) (tree hash))) := by
  obtain ⟨entries, hplace⟩ := h.directory
  have hfile (content : ByteArray) : entries.lookup call.name ≠ some (.file content) := by
    have hno := h.no_file call.name content
    rwa [at?_child hplace] at hno
  obtain ⟨made, below, hbelow, hmade, hsettles⟩ := fetch_settles call.resolver hcall.isName (h.located.symm ▸ hplace) hfile
    hcall.isHash_hash hurl hrevision
  rw [h.located] at hbelow hmade hsettles
  have hcache : Cache tree base place made ∧
      (∀ other hash, made.at? (place ++ [other, hash]) = f.at? (place ++ [other, hash])) ∧
      ∀ other, other ≠ place ++ [call.name] → (made.at? other).map Entry.face = (f.at? other).map Entry.face := by
    rcases hmade with rfl | ⟨hnone, -, rfl⟩
    · exact ⟨h, fun _ _ => rfl, fun _ _ => rfl⟩
    · have hnew : f.at? (place ++ [call.name]) = none := (at?_child hplace).trans hnone
      exact ⟨h.make hnew, h.at?_make hnew, fun other hother => Entry.face_at?_put_empty hplace hnone hother⟩
  obtain ⟨hcache, hsame, hface⟩ := hcache
  refine ⟨made, below, hcache, hbelow, hsame, hface, ?_⟩
  have hlookup (hash : String) : made.at? (place ++ [call.name, hash]) = below.lookup hash := by
    have hchild : made.at? (place ++ [call.name] ++ [hash]) = below.lookup hash := at?_child hbelow
    rwa [List.append_assoc] at hchild
  rcases hsettles with hfailed | ⟨hash, hhash, hok, hfiles⟩
  · exact .inl hfailed
  · refine .inr ⟨hash, hhash, hok, ?_⟩
    rcases hfiles with ⟨hpresent, hfiles⟩ | ⟨hnone, c, hc, rfl, hfiles⟩
    · obtain ⟨e, he⟩ := Option.isSome_iff_exists.mp hpresent
      have hfound := (hlookup hash).trans he
      rw [(hcache.checkout _ _ _ hfound).2] at hfound
      exact .inl ⟨hfound, hfiles⟩
    · rw [hcall.tree_hash c hc, List.append_assoc] at hfiles
      exact .inr ⟨(hlookup c.hash).trans hnone, hfiles⟩

theorem run (h : Cache tree base place f) (hcall : call.Honest tree) : Cache tree base place (call.run base f).files := by
  by_cases hrefused : Text.isBlank call.request.url = true ∨ call.request.revision? = none
  · obtain ⟨e, he⟩ := fetch_refused call.resolver hrefused
    rw [FetchCall.run, he]
    exact h
  · rw [not_or] at hrefused
    obtain ⟨made, below, hmade, hdir, -, -, hends⟩ := h.run_cases hcall (by simpa using hrefused.1) hrefused.2
    rcases hends with ⟨e, -, hfiles⟩ | ⟨hash, hhash, -, ⟨-, hfiles⟩ | ⟨-, hfiles⟩⟩
    · exact hfiles ▸ hmade
    · exact hfiles ▸ hmade
    · exact hfiles ▸ hmade.add hdir hhash

theorem runAll (h : Cache tree base place f) {calls : List FetchCall} (hcalls : ∀ call ∈ calls, call.Honest tree) :
    Cache tree base place (FetchCall.runAll base f calls) := by
  induction calls generalizing f with
  | nil => exact h
  | cons call calls ih =>
    exact ih (h.run (hcalls call (by simp))) (fun other hother => hcalls other (by simp [hother]))

theorem kept_of_refused (h : Cache tree base place f) {fetch : Fetch} {e : FetchError} (herror : fetch.outcome = .error e)
    (hfiles : fetch.files = f)
    (hrefused : Text.isBlank call.request.url = true ∨ call.request.revision? = none) : Kept tree place call f fetch where
  checkout := hfiles ▸ h.checkout
  no_scratch name _ hentry := hfiles ▸ h.no_scratch name hentry
  unchanged _ _ _ hfound := hfiles ▸ hfound
  refused _ := ⟨⟨e, herror⟩, hfiles⟩
  directory hurl hrevision := by simp [hurl, hrevision] at hrefused
  failed _ _ _ _ := by rw [hfiles]
  fetched c hok := by simp [herror] at hok

theorem kept_of_fetched {fetch : Fetch} (h : Cache tree base place fetch.files) (hname : Path.IsName call.name)
    {hash : String} (hhash : isHash hash = true)
    (hok : fetch.outcome = .ok ⟨Path.join [Path.join [base, call.name], hash], hash⟩)
    (hfound : fetch.files.at? (place ++ [call.name, hash]) = some (tree hash))
    (hold : ∀ other hash' e, f.at? (place ++ [other, hash']) = some e → fetch.files.at? (place ++ [other, hash']) = some e)
    (hface : ∀ other, other ≠ place ++ [call.name] → ¬(place ++ [call.name, hash]) <+: other →
      (fetch.files.at? other).map Entry.face = (f.at? other).map Entry.face)
    (haccepted : ¬(Text.isBlank call.request.url = true ∨ call.request.revision? = none)) :
    Kept tree place call f fetch where
  checkout := h.checkout
  no_scratch name _ hentry := h.no_scratch name hentry
  unchanged := hold
  refused hrefused := absurd hrefused haccepted
  directory _ _ := by
    have hsplit : fetch.files.root.at? ((place ++ [call.name]) ++ [hash]) = some (tree hash) := by
      rw [List.append_assoc]
      exact hfound
    rw [Entry.at?_append] at hsplit
    obtain ⟨sub, hsub, hbelow⟩ := Option.bind_eq_some_iff.mp hsplit
    obtain ⟨entries, -, rfl, -, -⟩ := Entry.exists_of_at?_cons hbelow
    exact ⟨entries, hsub⟩
  failed e herror := by simp [hok] at herror
  fetched c hc := by
    rw [hok] at hc
    obtain rfl := Except.ok.inj hc
    refine ⟨?_, hfound, hface⟩
    rw [Files.place_join _ (isName_of_isHash hhash), Files.place_join _ hname, h.located, List.append_assoc]
    rfl

theorem kept (h : Cache tree base place f) (hcall : call.Honest tree) : Kept tree place call f (call.run base f) := by
  by_cases hrefused : Text.isBlank call.request.url = true ∨ call.request.revision? = none
  · obtain ⟨e, he⟩ := fetch_refused call.resolver hrefused
    have hrun : call.run base f = ⟨.error e, f, []⟩ := he
    exact h.kept_of_refused (by rw [hrun]) (by rw [hrun]) hrefused
  · have hafter := h.run hcall
    have haccepted := not_or.mp hrefused
    obtain ⟨made, below, hmade, hdir, hsame, hface, hends⟩ := h.run_cases hcall (by simpa using haccepted.1) haccepted.2
    rcases hends with ⟨e, herror, hfiles⟩ | ⟨hash, hhash, hok, ⟨hfound, hfiles⟩ | ⟨hnone, hfiles⟩⟩
    · exact {
        checkout := hafter.checkout
        no_scratch := fun name _ hentry => hafter.no_scratch name hentry
        unchanged := fun other hash e hfound => by rw [hfiles, hsame, hfound]
        refused := fun hno => absurd hno hrefused
        directory := fun _ _ => ⟨below, by rw [hfiles, hdir]⟩
        failed := fun _ _ other hother => by rw [hfiles, hface other hother]
        fetched := fun c hok => by simp [herror] at hok }
    · apply hafter.kept_of_fetched hcall.isName hhash hok (by rw [hfiles, hfound]) _ _ hrefused
      · intro other hash' e hold
        rw [hfiles, hsame, hold]
      · intro other hother _
        rw [hfiles, hface other hother]
    · have hnew : (made.put (place ++ [call.name, hash]) (tree hash)).at? (place ++ [call.name, hash]) = some (tree hash) := by
        rw [hmade.at?_add hdir, if_pos ⟨rfl, rfl⟩]
      apply hafter.kept_of_fetched hcall.isName hhash hok (by rw [hfiles, hnew]) _ _ hrefused
      · intro other hash' e hold
        -- a checkout of before is not at the new one's place, where nothing was
        have hne : ¬(other = call.name ∧ hash' = hash) := by
          intro hboth
          rw [hsame, ← hboth.1, ← hboth.2, hold] at hnone
          cases hnone
        rw [hfiles, hmade.at?_add hdir, if_neg hne, hsame, hold]
      · intro other hother hbelow
        have hput : ((made.root.put (place ++ [call.name] ++ [hash]) (tree hash)).at? other).map Entry.face =
            (made.root.at? other).map Entry.face := Entry.face_at?_put hdir (by simpa using hbelow)
        rw [List.append_assoc] at hput
        rw [hfiles, ← hface other hother]
        exact hput

end Call

end Cache

/-- Requests are fetched one after another into a base directory that is empty at first. Each call leaves whole checkouts
only, keeps those that were there, and adds no more than the directory of its URL and the checkout it gives. -/
theorem FetchCall.run_keeps_cache {tree : String → Entry} {base : String} {start : Files}
    (hstart : start.at? (start.place base) = some (.directory [])) {calls : List FetchCall}
    (hcalls : ∀ call ∈ calls, call.Honest tree) {call : FetchCall} (hcall : call.Honest tree) :
    Kept tree (start.place base) call (runAll base start calls) (call.run base (runAll base start calls)) :=
  ((Cache.of_empty hstart).runAll hcalls).kept hcall

def Commit.sample : Commit := ⟨"0123456789abcdef0123456789abcdef01234567", [("src/main.rinha", ByteArray.empty)]⟩

def FetchCall.sample (url : String) (damage : Option Damage) : FetchCall where
  resolver := .named
  remote _ := some ⟨[Commit.sample], [("HEAD", Commit.sample.hash)], damage⟩
  request := ⟨url, "", "", ""⟩

theorem FetchCall.sample_honest {url : String} (damage : Option Damage) (hdot : directoryName url ≠ ".")
    (hup : directoryName url ≠ "..") : (FetchCall.sample url damage).Honest fun _ => Commit.sample.tree where
  ne_dot := hdot
  ne_up := hup
  isHash_hash c hc := by
    rw [show c = Commit.sample from List.mem_singleton.mp hc]
    decide
  tree_hash c hc := by rw [show c = Commit.sample from List.mem_singleton.mp hc]

def Files.emptyBase : Files := ⟨.directory [("base", .directory [])], []⟩

/-- After a checkout that fails for damage, another URL with the same directory gets its checkout. -/
theorem FetchCall.run_keeps_cache_afterDamage :
    Kept (fun _ => Commit.sample.tree) (Files.emptyBase.place "/base") (.sample "http://a.b/c" none)
      (runAll "/base" .emptyBase [.sample "https://a.b/c.git" (some (.unreadable "bad"))])
      ((FetchCall.sample "http://a.b/c" none).run "/base"
        (runAll "/base" .emptyBase [.sample "https://a.b/c.git" (some (.unreadable "bad"))])) ∧
    ((FetchCall.sample "http://a.b/c" none).run "/base"
      (runAll "/base" .emptyBase [.sample "https://a.b/c.git" (some (.unreadable "bad"))])).outcome.toOption =
        some ⟨"/base/a.b_c/0123456789abcdef0123456789abcdef01234567", "0123456789abcdef0123456789abcdef01234567"⟩ := by
  have hfirst : (FetchCall.sample "https://a.b/c.git" (some (.unreadable "bad"))).Honest fun _ => Commit.sample.tree :=
    FetchCall.sample_honest _ (by decide) (by decide)
  have hsecond : (FetchCall.sample "http://a.b/c" none).Honest fun _ => Commit.sample.tree :=
    FetchCall.sample_honest _ (by decide) (by decide)
  have hbase : Files.emptyBase.at? (Files.emptyBase.place "/base") = some (.directory []) := by rfl
  exact ⟨FetchCall.run_keeps_cache hbase (by simpa using hfirst) hsecond, by decide +kernel⟩

end TreeWalk
