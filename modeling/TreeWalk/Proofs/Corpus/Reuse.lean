import TreeWalk.Proofs.Corpus.Cache
import TreeWalk.Proofs.Corpus.Containment

/-!
# Checkouts that are used again

Once a request has got a checkout, the checkout stays, and every later request for the same commit from the same URL gets
it and changes nothing. A full hash is looked up among the checkouts before anything is cloned. That gives what the clone
would have given if the repository has a commit of this hash, and only then: other URLs may share the directory.
-/

namespace TreeWalk

namespace CorpusRequest

section Spelling

variable {r : CorpusRequest} {s : String}

theorem not_isSpace_of_hex {c : Char} (h : (c.isDigit || ('a' ≤ c && c ≤ 'f') || ('A' ≤ c && c ≤ 'F')) = true) :
    Text.isSpace c = false := by
  have hrange : (0x30 ≤ c.toNat ∧ c.toNat ≤ 0x39 ∨ 0x61 ≤ c.toNat ∧ c.toNat ≤ 0x66) ∨ 0x41 ≤ c.toNat ∧ c.toNat ≤ 0x46 := by
    simpa [Char.isDigit, Char.le_def, UInt32.le_iff_toNat_le] using h
  simp only [Text.isSpace, Bool.or_eq_false_iff, Bool.and_eq_false_iff, decide_eq_false_iff_not, beq_eq_false_iff_ne]
  omega

theorem trim_of_isHash (h : isHash s = true) : Text.trim s = s := by
  have hhex := (isHash_iff.mp h).2
  rw [Text.trim, Text.trimList_of_all_not fun c hc => not_isSpace_of_hex (hhex c hc), String.ofList_toList]

theorem ne_empty_of_isHash (h : isHash s = true) : s ≠ "" := (isName_of_isHash h).ne_empty

theorem name_of_isHash {revision : Revision} (h : isHash r.rev = true) (hrevision : r.revision? = some revision) :
    revision.name = r.rev := by
  unfold revision? at hrevision
  dsimp only at hrevision
  rw [trim_of_isHash h] at hrevision
  split at hrevision
  · cases hrevision
  · rw [if_pos (ne_empty_of_isHash h)] at hrevision
    exact congrArg Revision.name (Option.some.inj hrevision).symm

def unblank (s : String) : String := if Text.isBlank s then "" else s

def tidy (r : CorpusRequest) : CorpusRequest := ⟨r.url, unblank r.rev, unblank r.tag, unblank r.branch⟩

theorem trim_unblank (s : String) : Text.trim (unblank s) = Text.trim s := by
  unfold unblank
  split
  · next h => exact (Text.trim_eq_empty_iff.mpr h).symm
  · rfl

theorem revision?_tidy (r : CorpusRequest) : r.tidy.revision? = r.revision? := by
  simp only [revision?, tidy, trim_unblank]

theorem not_isBlank_of_isHash (h : isHash s = true) : ¬Text.isBlank s = true := by
  rw [← Text.trim_eq_empty_iff, trim_of_isHash h]
  exact ne_empty_of_isHash h

theorem fromRemote_tidy (resolver : Resolver) (remote : Remote) (r : CorpusRequest) (revision : Revision) (dir : String)
    (place : List String) (f : Files) :
    fromRemote resolver remote r.tidy revision dir place f = fromRemote resolver remote r revision dir place f := by
  have hurl : r.tidy.url = r.url := rfl
  unfold fromRemote fromClone
  rw [hurl]

theorem fetchBy_tidy (resolver : Resolver) (remote : Remote) (base : String) (r : CorpusRequest) (f : Files) :
    fetchBy resolver remote base r.tidy f = fetchBy resolver remote base r f := by
  have hurl : r.tidy.url = r.url := rfl
  unfold fetchBy
  simp only [hurl, revision?_tidy, fromRemote_tidy]
  by_cases hhash : isHash r.rev = true
  · have hrev : r.tidy.rev = r.rev := if_neg (not_isBlank_of_isHash hhash)
    rw [hrev]
  · -- neither spelling of the revision names a checkout
    have hrev : isHash r.tidy.rev = false := by
      change isHash (unblank r.rev) = false
      unfold unblank
      split
      · rfl
      · simpa using hhash
    simp only [hrev, hhash, Bool.false_and, Bool.false_eq_true, if_false]

theorem revision?_eq_none_iff :
    r.revision? = none ↔ 2 ≤ ([r.rev, r.tag, r.branch].filter fun s => !Text.isBlank s).length := by
  have hset : ([Text.trim r.rev, Text.trim r.tag, Text.trim r.branch].filter (· ≠ "")).length =
      ([r.rev, r.tag, r.branch].filter fun s => !Text.isBlank s).length := by
    have htrim : ((fun s => decide (s ≠ "")) ∘ Text.trim) = fun s => !Text.isBlank s := by
      funext s
      simp [Text.trim_eq_empty_iff]
    change (([r.rev, r.tag, r.branch].map Text.trim).filter _).length = _
    rw [List.filter_map, List.length_map, htrim]
  unfold revision?
  dsimp only
  rw [hset]
  constructor
  · intro h
    by_contra hone
    rw [if_neg (by omega)] at h
    split_ifs at h
  · intro h
    rw [if_pos (by omega)]

end Spelling

section Clone

variable {resolver : Resolver} {remote : Remote} {r : CorpusRequest} {revision : Revision} {base dir : String}
  {place : List String} {f : Files} {entries : List (String × Entry)}

theorem fromRemote_found (hplace : f.at? place = some (.directory entries)) {repository : Repository} {c : Commit}
    (hremote : remote r.url = some repository) (hresolve : resolver.resolve? repository revision.name = some c)
    (hhash : isHash c.hash = true) (hpresent : (entries.lookup c.hash).isSome) :
    (fromRemote resolver remote r revision dir place f).outcome = .ok ⟨Path.join [dir, c.hash], c.hash⟩ ∧
      (fromRemote resolver remote r revision dir place f).files = f := by
  obtain ⟨head, log, hfetch⟩ := @fromRemote_fromClone resolver remote r revision dir place f entries hplace repository hremote
  rw [hfetch, fromClone_found hplace hresolve hhash hpresent]
  exact ⟨rfl, rfl⟩

theorem fromRemote_eq_ok {checkout : Checkout} (h : (fromRemote resolver remote r revision dir place f).outcome = .ok checkout) :
    ∃ repository c, remote r.url = some repository ∧ resolver.resolve? repository revision.name = some c ∧
      checkout.commit = c.hash := by
  unfold fromRemote at h
  cases hremote : remote r.url with
  | none => simp [hremote] at h
  | some repository =>
    simp only [hremote, fromClone] at h
    cases hresolve : resolver.resolve? repository revision.name with
    | none => simp [hresolve] at h
    | some c =>
      refine ⟨repository, c, rfl, hresolve, ?_⟩
      simp only [hresolve] at h
      split_ifs at h
      · exact congrArg Checkout.commit (Except.ok.inj h).symm
      · split at h
        · cases h
        · cases h
        · exact congrArg Checkout.commit (Except.ok.inj h).symm

/-- What a fetch gives if it clones the repository in any case. -/
def fetchAnew (resolver : Resolver) (remote : Remote) (base : String) (r : CorpusRequest) (f : Files) : Fetch :=
  if Text.isBlank r.url then ⟨.error .noUrl, f, []⟩
  else
    match r.revision? with
    | none => ⟨.error .conflict, f, []⟩
    | some revision =>
      match f.makeDirectories (Path.join [base, directoryName r.url]) with
      | .error e => ⟨.error (.directory e), f, []⟩
      | .ok (place, f) => fromRemote resolver remote r revision (Path.join [base, directoryName r.url]) place f

/-- A request that is answered without a clone: it gives one revision, the full hash of a checkout that is there. -/
structure SkipsClone (base : String) (r : CorpusRequest) (f : Files) : Prop where
  url : Text.isBlank r.url = false
  revision : r.revision? ≠ none
  isHash : isHash r.rev = true
  present : ∃ place made, f.makeDirectories (Path.join [base, directoryName r.url]) = .ok (place, made) ∧
    (made.at? (place ++ [r.rev])).isSome

theorem fetchBy_eq_fetchAnew (h : ¬SkipsClone base r f) : fetchBy resolver remote base r f = fetchAnew resolver remote base r f := by
  unfold fetchBy fetchAnew
  by_cases hurl : Text.isBlank r.url = true
  · rw [if_pos hurl, if_pos hurl]
  · rw [if_neg hurl, if_neg hurl]
    cases hrevision : r.revision? with
    | none => rfl
    | some revision =>
      dsimp only
      cases hmake : f.makeDirectories (Path.join [base, directoryName r.url]) with
      | error e => rfl
      | ok made =>
        dsimp only
        refine if_neg fun hpresent => h ⟨by simpa using hurl, by simp [hrevision], ?_, made.1, made.2, hmake, ?_⟩
        · exact (Bool.and_eq_true_iff.mp hpresent).1
        · exact (Bool.and_eq_true_iff.mp hpresent).2

/-- Leaving the clone out changes nothing if the repository has a commit of the hash, and only then. -/
theorem SkipsClone.fetch_eq_iff {above : List (String × Entry)} (h : SkipsClone base r f)
    (horigin : f.at? (f.origin (Path.join [base, directoryName r.url])) = some (.directory above)) :
    (fetchBy resolver remote base r f).outcome = (fetchAnew resolver remote base r f).outcome ∧
        (fetchBy resolver remote base r f).files = (fetchAnew resolver remote base r f).files ↔
      ∃ repository, remote r.url = some repository ∧ (repository.commit? r.rev).isSome := by
  obtain ⟨place, made, hmake, hpresent⟩ := h.present
  obtain ⟨revision, hrevision⟩ := Option.ne_none_iff_exists'.mp h.revision
  obtain ⟨entries, hplace⟩ := (Files.made_of_makeDirectoriesFrom horigin hmake).directory
  have hname := name_of_isHash h.isHash hrevision
  have hurl : ¬Text.isBlank r.url = true := by simp [h.url]
  have hanew : fetchAnew resolver remote base r f =
      fromRemote resolver remote r revision (Path.join [base, directoryName r.url]) place made := by
    unfold fetchAnew
    rw [if_neg hurl, hrevision]
    dsimp only
    rw [hmake]
  rw [fetch_eq hurl hrevision hmake, if_pos (by simp [h.isHash, hpresent]), hanew]
  dsimp only
  constructor
  · rintro ⟨houtcome, -⟩
    obtain ⟨repository, c, hremote, hresolve, hcommit⟩ := fromRemote_eq_ok houtcome.symm
    exact ⟨repository, hremote, Repository.commit?_isSome_iff.mpr ⟨c, resolver.mem_commits hresolve, hcommit.symm⟩⟩
  · rintro ⟨repository, hremote, hcommit⟩
    obtain ⟨found, hfound, hrev⟩ := Repository.commit?_isSome_iff.mp hcommit
    obtain ⟨c, hresolve, hc⟩ := resolver.resolves_hash hfound
    rw [hrev] at hresolve hc
    rw [at?_child hplace] at hpresent
    rw [← hc] at hpresent hresolve ⊢
    have hfound := @fromRemote_found resolver remote r revision (Path.join [base, directoryName r.url]) place made entries hplace
      repository c hremote (by rw [hname, ← hc, hresolve]) (hc ▸ h.isHash) hpresent
    exact ⟨hfound.1.symm, hfound.2.symm⟩

end Clone

end CorpusRequest

open CorpusRequest

namespace FetchCall

variable {base url hash : String} {start f : Files} {call later : FetchCall} {calls : List FetchCall} {checkout : Checkout}

/-- The commits that the URL leads to go by their hashes. -/
def Hashed (call : FetchCall) : Prop := ∀ c ∈ commits call.remote call.request, isHash c.hash = true

theorem run_grows (hf : f.Standing) (hcall : call.Hashed) : f.Grows (fun _ => True) (call.run base f).files := by
  obtain ⟨entries, horigin⟩ := hf.exists_origin (Path.join [base, directoryName call.request.url])
  exact (fetch_grows call.resolver horigin hcall).mono fun _ _ => trivial

theorem runAll_grows (hf : f.Standing) (hcalls : ∀ call ∈ calls, call.Hashed) :
    f.Grows (fun _ => True) (runAll base f calls) := by
  induction calls generalizing f with
  | nil => exact .refl f
  | cons call calls ih =>
    have hfirst : f.Grows (fun _ => True) (call.run base f).files := run_grows hf (hcalls call (by simp))
    exact hfirst.trans (ih (hfirst.standing hf) fun other hother => hcalls other (by simp [hother]))

/-- A checkout of the commit is in the directory of the URL, and it stays there however the files grow. -/
structure Stored (base url hash : String) (f : Files) : Prop where
  given : Text.isBlank url = false
  isHash : isHash hash = true
  stays : ∃ place, ∀ grown, f.Grows (fun _ => True) grown →
    grown.makeDirectories (Path.join [base, directoryName url]) = .ok (place, grown) ∧
      ∃ entries, grown.at? place = some (.directory entries) ∧ (entries.lookup hash).isSome

theorem Stored.grows {f' : Files} (h : Stored base url hash f) (hgrows : f.Grows (fun _ => True) f') :
    Stored base url hash f' := by
  obtain ⟨place, hstays⟩ := h.stays
  exact ⟨h.given, h.isHash, place, fun grown hgrown => hstays grown (hgrows.trans hgrown)⟩

theorem stored_of_run (hf : f.Standing) (hcall : call.Hashed) (hok : (call.run base f).outcome = .ok checkout) :
    checkout.dir = Path.join [Path.join [base, call.name], checkout.commit] ∧
      Stored base call.request.url checkout.commit (call.run base f).files := by
  have hurl : Text.isBlank call.request.url = false := by
    by_contra hblank
    obtain ⟨e, he⟩ := fetch_refused call.resolver (.inl (by simpa using hblank))
    rw [run, he] at hok
    cases hok
  obtain ⟨above, horigin⟩ := hf.exists_origin (Path.join [base, directoryName call.request.url])
  rcases fetch_cases call.resolver horigin hcall with ⟨e, herror, -⟩ | ⟨place, made, below, hmake, hbelow, hsettles⟩
  · rw [run, herror] at hok
    cases hok
  · have hmade := Files.made_of_makeDirectoriesFrom horigin hmake
    have hgrows : made.Grows (fun _ => True) (call.run base f).files := (hsettles.grows hbelow).mono fun _ _ => trivial
    rcases hsettles with ⟨e, herror, -⟩ | ⟨hash, hhash, hgiven, hfiles⟩
    · rw [run, herror] at hok
      cases hok
    · obtain rfl := Except.ok.inj (hgiven.symm.trans hok)
      have hthere : ((call.run base f).files.at? (place ++ [hash])).isSome := by
        rcases hfiles with ⟨hpresent, hfiles⟩ | ⟨-, c, -, -, hfiles⟩
        · rw [run, hfiles, at?_child hbelow]
          exact hpresent
        · rw [run, hfiles, Files.at?_put, Entry.at?_put_child hbelow, if_pos rfl, Entry.at?_nil]
          rfl
      refine ⟨rfl, hurl, hhash, place, fun grown hgrown => ?_⟩
      have hlater := hgrows.trans hgrown
      have hsame : grown.origin (Path.join [base, directoryName call.request.url]) =
          f.origin (Path.join [base, directoryName call.request.url]) := by
        rw [Files.origin, Files.origin, hlater.here, hmade.grows.here]
      obtain ⟨entries, hentries⟩ := hlater.exists_directory hbelow
      refine ⟨?_, entries, hentries, ?_⟩
      · rw [Files.makeDirectories, hsame]
        exact hmade.again _ grown hlater
      · rw [← at?_child hentries]
        exact hgrown.isSome hthere

/-- The call asks for the commit of this hash: by the hash itself, or by a revision that stands for it in the
repository. -/
def Wants (call : FetchCall) (hash : String) : Prop :=
  ∃ revision, call.request.revision? = some revision ∧
    (call.request.rev = hash ∨ isHash call.request.rev = false ∧
      ∃ repository c, call.remote call.request.url = some repository ∧
        call.resolver.resolve? repository revision.name = some c ∧ c.hash = hash)

/-- The call makes nothing of a checkout that is there. -/
structure Reuses (base : String) (f : Files) (checkout : Checkout) (call : FetchCall) : Prop where
  same : ∀ given, (call.run base f).outcome = .ok given → given.commit = checkout.commit →
    given = checkout ∧ (call.run base f).files = f
  found : call.Wants checkout.commit → (call.run base f).outcome = .ok checkout ∧ (call.run base f).files = f

theorem Stored.reuses (h : Stored base call.request.url checkout.commit f)
    (hdir : checkout.dir = Path.join [Path.join [base, call.name], checkout.commit]) (hcall : call.Hashed) :
    Reuses base f checkout call := by
  obtain ⟨place, hstays⟩ := h.stays
  obtain ⟨hmake, entries, hplace, hpresent⟩ := hstays f (.refl f)
  have hurl : ¬Text.isBlank call.request.url = true := by simp [h.given]
  have hcheckout : checkout = ⟨Path.join [Path.join [base, call.name], checkout.commit], checkout.commit⟩ := by
    rw [← hdir]
  constructor
  · intro given hgiven hcommit
    have hrevision : call.request.revision? ≠ none := by
      intro hnone
      obtain ⟨e, he⟩ := fetch_refused call.resolver (.inr hnone)
      rw [run, he] at hgiven
      cases hgiven
    obtain ⟨revision, hrevision⟩ := Option.ne_none_iff_exists'.mp hrevision
    have hsettles : Settles (commits call.remote call.request) (Path.join [base, call.name]) place entries f
        (call.run base f) := by
      rw [run, fetch_eq hurl hrevision hmake]
      exact reuse_settles hplace hcall
    rcases hsettles with ⟨e, herror, -⟩ | ⟨hash, -, hok, hfiles⟩
    · rw [herror] at hgiven
      cases hgiven
    · obtain rfl := Except.ok.inj (hok.symm.trans hgiven)
      obtain rfl : hash = checkout.commit := hcommit
      rcases hfiles with ⟨-, hfiles⟩ | ⟨hnone, -⟩
      · exact ⟨hcheckout.symm, hfiles⟩
      · simp [hnone] at hpresent
  · rintro ⟨revision, hrevision, hwants⟩
    rw [run, fetch_eq hurl hrevision hmake]
    rcases hwants with hrev | ⟨hrev, repository, c, hremote, hresolve, hc⟩
    · rw [hrev, at?_child hplace, if_pos (by simp [h.isHash, hpresent])]
      exact ⟨congrArg _ hcheckout.symm, rfl⟩
    · rw [if_neg (by simp [hrev])]
      rw [← hc] at hpresent hcheckout
      rw [hcheckout]
      exact fromRemote_found hplace hremote hresolve (hc ▸ h.isHash) hpresent

/-- How the answer to a call depends on the spelling of its request. -/
structure Agrees (base : String) (f : Files) (call : FetchCall) : Prop where
  /-- The call gives what a clone gives, unless it skips the clone for a hash that the repository does not have. -/
  anew : (call.run base f).outcome = (fetchAnew call.resolver call.remote base call.request f).outcome ∧
      (call.run base f).files = (fetchAnew call.resolver call.remote base call.request f).files ↔
    (SkipsClone base call.request f →
      ∃ repository, call.remote call.request.url = some repository ∧ (repository.commit? call.request.rev).isSome)
  /-- Revisions of blanks are not given. -/
  blank : call.run base f = run base f ⟨call.resolver, call.remote, call.request.tidy⟩
  /-- Two revisions or more are refused, and nothing is made. -/
  conflict : Text.isBlank call.request.url = false →
    2 ≤ ([call.request.rev, call.request.tag, call.request.branch].filter fun s => !Text.isBlank s).length →
    call.run base f = ⟨.error .conflict, f, []⟩

theorem agrees (hf : f.Standing) (call : FetchCall) : Agrees base f call where
  anew := by
    by_cases hskips : SkipsClone base call.request f
    · obtain ⟨above, horigin⟩ := hf.exists_origin (Path.join [base, directoryName call.request.url])
      rw [imp_iff_right hskips]
      exact hskips.fetch_eq_iff horigin
    · rw [run, fetchBy_eq_fetchAnew hskips]
      simp [hskips]
  blank := (fetchBy_tidy call.resolver call.remote base call.request f).symm
  conflict hurl hmany := by
    unfold run fetchBy
    rw [if_neg (by simp [hurl]), revision?_eq_none_iff.mpr hmany]

/-- After any calls, a call whose URL has given a checkout before gets the same checkout for the same commit and changes
nothing, and every call agrees with a fetch that always clones, up to hashes that its repository does not have. -/
theorem reuse_agrees_with_clone (hstart : start.Standing) (hcalls : ∀ call ∈ calls, call.Hashed) (hlater : later.Hashed) :
    (∀ before first after checkout, calls = before ++ first :: after → first.request.url = later.request.url →
      (first.run base (runAll base start before)).outcome = .ok checkout →
      Reuses base (runAll base start calls) checkout later) ∧
    Agrees base (runAll base start calls) later := by
  refine ⟨?_, agrees ((runAll_grows hstart hcalls).standing hstart) later⟩
  rintro before first after checkout rfl hurl hok
  have hbefore : (runAll base start before).Standing :=
    (runAll_grows hstart fun call hcall => hcalls call (by simp [hcall])).standing hstart
  have hfirst : first.Hashed := hcalls first (by simp)
  obtain ⟨hdir, hstored⟩ := stored_of_run hbefore hfirst hok
  have hafter : (first.run base (runAll base start before)).files.Grows (fun _ => True)
      (runAll base (first.run base (runAll base start before)).files after) :=
    runAll_grows ((run_grows hbefore hfirst).standing hbefore) fun call hcall => hcalls call (by simp [hcall])
  have hall : runAll base start (before ++ first :: after) =
      runAll base (first.run base (runAll base start before)).files after := by
    simp only [runAll, List.foldl_append, List.foldl_cons]
  have hstored' := hstored.grows hafter
  rw [hall]
  rw [hurl] at hstored'
  refine hstored'.reuses ?_ hlater
  rw [hdir, name, name, hurl]

def abbreviating : Resolver where
  resolve? r name := (Resolver.named.resolve? r name).or (r.commits.find? fun c => name.toList.isPrefixOf c.hash.toList)
  mem_commits h := by
    rcases Option.or_eq_some_iff.mp h with h | ⟨-, h⟩
    · exact Resolver.named.mem_commits h
    · exact List.mem_of_find?_eq_some h
  resolves_hash hc := by
    obtain ⟨d, hd, hhash⟩ := Resolver.named.resolves_hash hc
    exact ⟨d, by rw [hd, Option.some_or], hhash⟩

def sampleRemote : Remote := fun url =>
  if url = "https://a.b/c" then some ⟨[Commit.sample], [("HEAD", Commit.sample.hash)], none⟩ else none

def byRevision (url rev : String) : FetchCall := ⟨abbreviating, sampleRemote, url, rev, "", "\t"⟩

def byHash (url : String) : FetchCall := byRevision url Commit.sample.hash

theorem byRevision_hashed (url rev : String) : (byRevision url rev).Hashed := by
  intro c hc
  unfold commits byRevision sampleRemote at hc
  dsimp only at hc
  split at hc
  · rw [List.mem_singleton.mp hc]
    decide
  · simp at hc

theorem byHash_outcome : ((byHash "https://a.b/c").run "/base" .emptyBase).outcome =
    .ok ⟨"/base/a.b_c/0123456789abcdef0123456789abcdef01234567", Commit.sample.hash⟩ := by
  decide +kernel

/-- Beside a URL that leads nowhere, the checkout from another URL with the same directory is given, while a clone would
have failed. -/
theorem reuse_agrees_with_clone_nowhere :
    SkipsClone "/base" (byHash "http://a.b/c").request (runAll "/base" .emptyBase [byHash "https://a.b/c"]) ∧
    ((byHash "http://a.b/c").run "/base" (runAll "/base" .emptyBase [byHash "https://a.b/c"])).outcome ≠
      (fetchAnew abbreviating sampleRemote "/base" (byHash "http://a.b/c").request
        (runAll "/base" .emptyBase [byHash "https://a.b/c"])).outcome := by
  have hname : directoryName "http://a.b/c" = directoryName "https://a.b/c" := by decide +kernel
  obtain ⟨-, hstored⟩ := stored_of_run ⟨_, rfl⟩ (byRevision_hashed _ _) byHash_outcome
  obtain ⟨place, hstays⟩ := hstored.stays
  obtain ⟨hmake, entries, hplace, hpresent⟩ := hstays _ (.refl _)
  refine ⟨⟨by decide +kernel, by decide +kernel, by decide +kernel, place, _, ?_, (at?_child hplace).symm ▸ hpresent⟩, ?_⟩
  · change Files.makeDirectories _ (Path.join ["/base", directoryName "http://a.b/c"]) = _
    rw [hname]
    exact hmake
  · decide +kernel

/-- The commit that the URL has given by its hash is found again as `HEAD`, which stands for a revision of blanks, and by
the beginning of its hash. -/
theorem reuse_agrees_with_clone_abbreviated :
    (((byRevision "https://a.b/c" " ").run "/base" (runAll "/base" .emptyBase [byHash "https://a.b/c"])).outcome =
        .ok ⟨"/base/a.b_c/0123456789abcdef0123456789abcdef01234567", Commit.sample.hash⟩ ∧
      ((byRevision "https://a.b/c" " ").run "/base" (runAll "/base" .emptyBase [byHash "https://a.b/c"])).files =
        runAll "/base" .emptyBase [byHash "https://a.b/c"]) ∧
    (((byRevision "https://a.b/c" "0123456").run "/base" (runAll "/base" .emptyBase [byHash "https://a.b/c"])).outcome =
        .ok ⟨"/base/a.b_c/0123456789abcdef0123456789abcdef01234567", Commit.sample.hash⟩ ∧
      ((byRevision "https://a.b/c" "0123456").run "/base" (runAll "/base" .emptyBase [byHash "https://a.b/c"])).files =
        runAll "/base" .emptyBase [byHash "https://a.b/c"]) := by
  have hstart : Files.emptyBase.Standing := ⟨_, rfl⟩
  have hcalls : ∀ call ∈ [byHash "https://a.b/c"], call.Hashed := by
    intro call hcall
    rw [List.mem_singleton.mp hcall]
    exact byRevision_hashed _ _
  have hreuses (rev : String) :=
    (reuse_agrees_with_clone hstart hcalls (byRevision_hashed "https://a.b/c" rev)).1 [] _ [] _ rfl rfl byHash_outcome
  constructor
  · exact (hreuses " ").found ⟨⟨"HEAD", "HEAD"⟩, by decide +kernel, .inr ⟨by decide +kernel, _, Commit.sample, rfl, rfl, rfl⟩⟩
  · exact (hreuses "0123456").found
      ⟨⟨"0123456", "0123456"⟩, by decide +kernel, .inr ⟨by decide +kernel, _, Commit.sample, rfl, by rfl, rfl⟩⟩

end FetchCall

end TreeWalk
