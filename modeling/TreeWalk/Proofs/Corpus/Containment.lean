import TreeWalk.Proofs.Corpus.Fetch
import TreeWalk.Proofs.Files.Growth
import TreeWalk.Proofs.Text.Space

/-!
# Where corpora are kept

The directory of a URL is a child of the base directory, and a fetch works in there alone, unless the URL is left with
one dot or two for a name: these do not name a child, but the base directory itself and the one above it.
-/

namespace TreeWalk

namespace CorpusRequest

section Growth

variable {remote : Remote} {r : CorpusRequest} {base dir : String} {place : List String} {f : Files}
  {entries : List (String × Entry)}

theorem Settles.grows {commits : List Commit} {fetch : Fetch} (hplace : f.at? place = some (.directory entries))
    (h : Settles commits dir place entries f fetch) : f.Grows (fun p => ∃ name, (place ++ [name]) <+: p) fetch.files := by
  rcases h with ⟨e, -, hfiles⟩ | ⟨hash, -, -, ⟨-, hfiles⟩ | ⟨hnone, c, -, -, hfiles⟩⟩
  · rw [hfiles]
    exact .refl f
  · rw [hfiles]
    exact .refl f
  · rw [hfiles]
    exact (Files.Grows.put hplace hnone c.tree).mono fun _ hp => ⟨hash, hp⟩

theorem fetch_cases (resolver : Resolver) (horigin : f.at? (f.origin (Path.join [base, directoryName r.url])) = some (.directory entries))
    (hhash : ∀ c ∈ commits remote r, isHash c.hash = true) :
    (∃ e, (fetchBy resolver remote base r f).outcome = .error e ∧ (fetchBy resolver remote base r f).files = f) ∨
    ∃ place made below, f.makeDirectories (Path.join [base, directoryName r.url]) = .ok (place, made) ∧
      made.at? place = some (.directory below) ∧
      Settles (commits remote r) (Path.join [base, directoryName r.url]) place below made (fetchBy resolver remote base r f) := by
  by_cases hrefused : Text.isBlank r.url = true ∨ r.revision? = none
  · obtain ⟨e, he⟩ := fetch_refused resolver hrefused
    exact .inl ⟨e, by rw [he], by rw [he]⟩
  · obtain ⟨hurl, hrevision⟩ := not_or.mp hrefused
    obtain ⟨revision, hrevision⟩ := Option.ne_none_iff_exists'.mp hrevision
    unfold fetchBy
    rw [if_neg hurl, hrevision]
    dsimp only
    cases hmake : f.makeDirectories (Path.join [base, directoryName r.url]) with
    | error e => exact .inl ⟨_, rfl, rfl⟩
    | ok made =>
      obtain ⟨place, made⟩ := made
      obtain ⟨below, hbelow⟩ := (Files.made_of_makeDirectoriesFrom horigin hmake).directory
      exact .inr ⟨place, made, below, rfl, hbelow, reuse_settles hbelow hhash⟩

theorem fetch_grows (resolver : Resolver) (horigin : f.at? (f.origin (Path.join [base, directoryName r.url])) = some (.directory entries))
    (hhash : ∀ c ∈ commits remote r, isHash c.hash = true) :
    f.Grows (fun p => Files.OnWay (Path.names (Path.join [base, directoryName r.url]))
        (f.origin (Path.join [base, directoryName r.url])) p ∨ f.place (Path.join [base, directoryName r.url]) <+: p)
      (fetchBy resolver remote base r f).files := by
  rcases fetch_cases resolver horigin hhash with ⟨e, -, hfiles⟩ | ⟨place, made, below, hmake, hbelow, hsettles⟩
  · rw [hfiles]
    exact .refl f
  · have hmade := Files.made_of_makeDirectoriesFrom horigin hmake
    have hplace : place = f.place (Path.join [base, directoryName r.url]) := hmade.place_eq
    refine (hmade.grows.mono fun _ => .inl).trans ((hsettles.grows hbelow).mono ?_)
    rintro p ⟨name, hp⟩
    exact .inr (hplace ▸ (List.prefix_append place [name]).trans hp)

end Growth

section Names

theorem segmentChar_eq_dot {c : Char} (h : segmentChar c = '.') : c = '.' := by
  unfold segmentChar at h
  split at h
  · exact h
  · cases h

theorem segmentChar_eq_underscore {c : Char} : segmentChar c = '_' ↔ c = '_' ∨ isSegmentChar c = false := by
  unfold segmentChar
  by_cases hc : isSegmentChar c <;> simp [hc]

/-- All that is left of the URL are `n` dots, and around them characters that a name does not keep at its ends. -/
def LeavesDots (n : Nat) (url : String) : Prop :=
  ∃ before after, stem url = before ++ List.replicate n '.' ++ after ∧
    ∀ c ∈ before ++ after, c = '_' ∨ isSegmentChar c = false

theorem directoryName_eq_dots_iff {url : String} {n : Nat} (hn : n ≠ 0) :
    directoryName url = String.ofList (List.replicate n '.') ↔ LeavesDots n url := by
  have hcorpus : "corpus" ≠ String.ofList (List.replicate n '.') := by
    intro heq
    have hmem : 'c' ∈ List.replicate n '.' := by
      rw [← String.toList_ofList (l := List.replicate n '.'), ← heq]
      decide
    exact absurd (List.eq_of_mem_replicate hmem) (by decide)
  rw [directoryName_eq]
  constructor
  · intro h
    split at h
    · exact absurd h hcorpus
    · have hdots := String.ofList_injective h
      obtain ⟨before, after, hmap, hends⟩ := Text.exists_append_trimList (· = '_') ((stem url).map segmentChar)
      rw [hdots] at hmap
      obtain ⟨stem', after', hstem, hmap', rfl⟩ := List.map_eq_append_iff.mp hmap
      obtain ⟨before', dots', rfl, rfl, hdots'⟩ := List.map_eq_append_iff.mp hmap'
      have hkept : dots' = List.replicate n '.' := by
        apply List.eq_replicate_iff.mpr
        refine ⟨by simpa using congrArg List.length hdots', fun c hc => segmentChar_eq_dot ?_⟩
        exact List.eq_of_mem_replicate (hdots' ▸ List.mem_map_of_mem hc)
      refine ⟨before', after', hkept ▸ hstem, fun c hc => segmentChar_eq_underscore.mp ?_⟩
      have hdropped := hends (segmentChar c) (by rw [← List.map_append]; exact List.mem_map_of_mem hc)
      simpa using hdropped
  · rintro ⟨before, after, hstem, hends⟩
    have hdots : (List.replicate n '.').map segmentChar = List.replicate n '.' := by
      rw [List.map_replicate]
      rfl
    have htrim : Text.trimList (· = '_') ((stem url).map segmentChar) = List.replicate n '.' := by
      rw [hstem, List.map_append, List.map_append, hdots]
      apply Text.trimList_append
      · rw [← List.map_append]
        intro c hc
        obtain ⟨d, hd, rfl⟩ := List.mem_map.mp hc
        simpa using segmentChar_eq_underscore.mpr (hends d hd)
      · intro c hc
        simp [List.eq_of_mem_replicate (List.mem_of_mem_head? hc)]
      · intro c hc
        simp [List.eq_of_mem_replicate (List.mem_of_mem_getLast? hc)]
    rw [htrim, if_neg (by simp [hn])]

end Names

section Containment

variable {base url : String}

/-- Checkouts from the URL are kept in a directory of their own in the base directory. -/
structure StaysBelow (base url : String) : Prop where
  ne_empty : directoryName url ≠ ""
  alphabet : ∀ c ∈ (directoryName url).toList, isSegmentChar c = true
  isName : Path.IsName (directoryName url)
  child : Path.join [base, directoryName url] = base ++ "/" ++ directoryName url
  ne_base : Path.join [base, directoryName url] ≠ base
  /-- The directory that clones and checkouts are put into is in the base directory. -/
  workplace : ∀ (f : Files) place made, (∃ entries, f.root = .directory entries) →
    f.makeDirectories (Path.join [base, directoryName url]) = .ok (place, made) →
    place = Path.names base ++ [directoryName url]
  /-- What a fetch gives is in that directory. -/
  given : ∀ resolver remote r (f : Files) checkout, r.url = url → (∃ entries, f.root = .directory entries) →
    (∀ c ∈ commits remote r, isHash c.hash = true) → (fetchBy resolver remote base r f).outcome = .ok checkout →
    Path.IsName checkout.commit ∧ checkout.dir = base ++ "/" ++ directoryName url ++ "/" ++ checkout.commit
  /-- What a fetch makes is that directory or stands in it, or it is the base directory or one above that was missing. -/
  added : ∀ resolver remote r (f : Files), r.url = url → (∃ entries, f.root = .directory entries) →
    (∀ c ∈ commits remote r, isHash c.hash = true) →
    f.Grows (fun p => p <+: Path.names base ∨ (Path.names base ++ [directoryName url]) <+: p)
      (fetchBy resolver remote base r f).files

theorem staysBelow_of_isName (habsolute : Path.isAbsolute base = true) (hclean : Path.clean base = base)
    (hroot : base ≠ "/") (hname : Path.IsName (directoryName url)) : StaysBelow base url := by
  have habsolute' : Path.isAbsolute (Path.join [base, directoryName url]) = true := by
    rw [Path.isAbsolute_join base hname, habsolute]
  have hnames : Path.names (Path.join [base, directoryName url]) = Path.names base ++ [directoryName url] :=
    Path.names_join base hname
  have hbase := Path.join_below habsolute hclean hroot hname
  have horigin (f : Files) : f.origin (Path.join [base, directoryName url]) = [] := by
    rw [Files.origin, if_pos habsolute']
  have hdirectory (f : Files) {entries : List (String × Entry)} (hentries : f.root = .directory entries) :
      f.at? (f.origin (Path.join [base, directoryName url])) = some (.directory entries) := by
    rw [horigin, Files.at?, Entry.at?_nil, hentries]
  have hne_root : Path.join [base, directoryName url] ≠ "/" := by
    intro heq
    rw [heq, (by decide : Path.names "/" = [])] at hnames
    simp at hnames
  -- no name on the way leads up
  have hway : ∀ n ∈ Path.names base ++ [directoryName url], Path.IsName n := by
    intro n hn
    exact Path.isName_of_mem_names habsolute' (hnames ▸ hn)
  have hplace (f : Files) : f.place (Path.join [base, directoryName url]) = Path.names base ++ [directoryName url] := by
    have hfold := Files.foldl_step [] hway
    rw [Files.place, hnames, horigin]
    exact hfold
  refine ⟨directoryName_ne_empty url, fun _ => isSegmentChar_of_mem, hname, hbase, ?_, ?_, ?_, ?_⟩
  · intro heq
    simpa [hnames] using congrArg (fun path => (Path.names path).length) heq
  · rintro f place made ⟨entries, hentries⟩ hmake
    exact (Files.made_of_makeDirectoriesFrom (hdirectory f hentries) hmake).place_eq.trans (hplace f)
  · rintro resolver remote r f checkout rfl ⟨entries, hentries⟩ hhash hok
    rcases fetch_cases resolver (hdirectory f hentries) hhash with ⟨e, herror, -⟩ | ⟨_, _, _, -, -, hsettles⟩
    · simp [herror] at hok
    · rcases hsettles with ⟨e, herror, -⟩ | ⟨hash, hhash', hgiven, -⟩
      · simp [herror] at hok
      · obtain rfl := Except.ok.inj (hgiven.symm.trans hok)
        have hcommit := isName_of_isHash hhash'
        exact ⟨hcommit, by rw [Path.join_below habsolute' (Path.clean_join base hname) hne_root hcommit, hbase]⟩
  · rintro resolver remote r f rfl ⟨entries, hentries⟩ hhash
    refine (fetch_grows resolver (hdirectory f hentries) hhash).mono ?_
    rintro p (⟨done, hdone, rfl⟩ | hp)
    · rw [hnames] at hdone
      rw [horigin, Files.foldl_step [] fun n hn => hway n (hdone.mem hn), List.nil_append]
      rcases List.prefix_concat_iff.mp hdone with rfl | hdone
      · exact .inr (List.prefix_refl _)
      · exact .inl hdone
    · exact .inr (hplace f ▸ hp)

/-- Checkouts from a URL stay in the base directory unless one dot or two are all that is left of the URL. One dot makes
them stand in the base directory itself, two in the one above it. -/
theorem staysBelow_iff (habsolute : Path.isAbsolute base = true) (hclean : Path.clean base = base) (hroot : base ≠ "/")
    (url : String) :
    (StaysBelow base url ↔ ¬LeavesDots 1 url ∧ ¬LeavesDots 2 url) ∧
    (LeavesDots 1 url → Path.join [base, directoryName url] = base) ∧
    (LeavesDots 2 url → Path.names (Path.join [base, directoryName url]) = (Path.names base).dropLast) := by
  have hdot : directoryName url = "." ↔ LeavesDots 1 url := directoryName_eq_dots_iff (n := 1) (by decide)
  have hup : directoryName url = ".." ↔ LeavesDots 2 url := directoryName_eq_dots_iff (n := 2) (by decide)
  rw [← hdot, ← hup]
  refine ⟨⟨fun h => ⟨h.isName.ne_dot, h.isName.ne_up⟩, fun h => ?_⟩, fun h => ?_, fun h => ?_⟩
  · exact staysBelow_of_isName habsolute hclean hroot (isName_directoryName h.1 h.2)
  · have hne : base ≠ "" := by
      rintro rfl
      cases habsolute
    rw [h, Path.join_dot hne, hclean]
  · rw [h, Path.names_join_up habsolute]

theorem staysBelow_iff_corpora :
    ¬StaysBelow "/srv/corpora" "../" ∧ Path.join ["/srv/corpora", directoryName "../"] = "/srv" ∧
      StaysBelow "/srv/corpora" "../repo.git" := by
  have habsolute : Path.isAbsolute "/srv/corpora" = true := by decide
  have hclean : Path.clean "/srv/corpora" = "/srv/corpora" := by decide +kernel
  have hup := staysBelow_iff habsolute hclean (by decide) "../"
  have hrepo := staysBelow_iff habsolute hclean (by decide) "../repo.git"
  have hdots : LeavesDots 2 "../" := ⟨[], ['/'], by decide +kernel, by simp [isSegmentChar]⟩
  refine ⟨fun h => (hup.1.mp h).2 hdots, by decide +kernel, hrepo.1.mpr ⟨?_, ?_⟩⟩
  · rw [← directoryName_eq_dots_iff (by decide)]
    decide +kernel
  · rw [← directoryName_eq_dots_iff (by decide)]
    decide +kernel

end Containment

end CorpusRequest

end TreeWalk
