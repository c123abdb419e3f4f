import Mathlib.Data.List.Nodup
import Mathlib.Data.List.TakeWhile
import TreeWalk.Fixture.Run
import TreeWalk.Proofs.Files.Tree
import TreeWalk.Proofs.Text.Order

/-!
# Searches through a tree

Programs and fixtures are looked for in the same way, and only differ in what is picked. A search finds each entry that
is picked once, under the path that leads to it, unless a hidden directory stands on the way. Paths are sorted by their
bytes, which is not the order of the walk: `a-b` is before `a/b`.
-/

namespace TreeWalk

namespace Path

theorem names_descend (root : String) {way : List String} (hway : ∀ n ∈ way, IsName n) :
    names (descend root way) = names root ++ way := by
  induction way generalizing root with
  | nil => simp [descend]
  | cons n way ih =>
    have hrest := ih (join [root, n]) (fun m hm => hway m (by simp [hm]))
    rw [names_join root (hway n (by simp)), List.append_assoc] at hrest
    exact hrest

theorem getLast?_segments_join (root : String) {n : String} (h : IsName n) :
    (segments (join [root, n])).getLast? = some n := by
  have hstack : Stack (isAbsolute root) (names root ++ [n]).reverse := (names_stack root).append (by simpa using h)
  have hslash (m : String) (hm : m ∈ names root ++ [n]) : '/' ∉ m.toList :=
    (hstack.mem (List.mem_reverse.mpr hm)).2
  have hsegments := segments_intercalate (by simp) hslash
  rw [join_name root h, ofNames]
  split
  · have hlead : segments ("" ++ "/" ++ "/".intercalate (names root ++ [n])) = [""] ++ (names root ++ [n]) := by
      rw [segments_append, hsegments]
      rfl
    rw [String.empty_append] at hlead
    rw [hlead, ← List.append_assoc, List.getLast?_concat]
  · rw [if_neg (by simp), hsegments]
    simp

/-- The letters of `json` after a dot, in any case. The long s has the same capital as the small one. -/
def HasJsonExtension (name : String) : Prop :=
  ∃ (stem : List Char) (j s o n : Char), name.toList = stem ++ ['.', j, s, o, n] ∧
    j ∈ ['j', 'J'] ∧ s ∈ ['s', 'S', 'ſ'] ∧ o ∈ ['o', 'O'] ∧ n ∈ ['n', 'N']

section Fold

variable {c : Char}

theorem toNat_toLower (c : Char) :
    c.toLower.toNat = if 65 ≤ c.toNat ∧ c.toNat ≤ 90 then c.toNat + 32 else c.toNat := by
  unfold Char.toLower
  split
  · next h =>
    have hcapital : 65 ≤ c.toNat ∧ c.toNat ≤ 90 := h
    have hlt : c.val.toNat + 32 < 2 ^ 32 := Nat.lt_of_le_of_lt (Nat.add_le_add_right hcapital.2 32) (by decide)
    rw [if_pos hcapital]
    exact (UInt32.toNat_add c.val 32).trans (Nat.mod_eq_of_lt hlt)
  · next h =>
    have hcapital : ¬(65 ≤ c.toNat ∧ c.toNat ≤ 90) := h
    rw [if_neg hcapital]

theorem toLower_eq_iff (small capital : Char) (hsmall : 97 ≤ small.toNat ∧ small.toNat ≤ 122)
    (hcapital : capital.toNat + 32 = small.toNat) : c.toLower = small ↔ c = small ∨ c = capital := by
  rw [← Char.toNat_inj, ← Char.toNat_inj, ← Char.toNat_inj, toNat_toLower]
  split <;> omega

theorem foldChar_eq_iff (small capital : Char) (hsmall : 97 ≤ small.toNat ∧ small.toNat ≤ 122) (hk : small ≠ 'k')
    (hcapital : capital.toNat + 32 = small.toNat) :
    Text.foldChar c = small ↔ c = small ∨ c = capital ∨ (c = 'ſ' ∧ small = 's') := by
  have hascii {d : Char} (hd : 128 ≤ d.toNat) : ¬(d = small ∨ d = capital) := by
    rintro (rfl | rfl) <;> omega
  unfold Text.foldChar
  split
  · next h =>
    have := not_or.mp (hascii (d := c) (by rw [h]; decide))
    subst h
    simpa [this] using eq_comm
  · next hlong =>
    split
    · next h =>
      have := not_or.mp (hascii (d := c) (by rw [h]; decide))
      simp [this, hlong, Ne.symm hk]
    · simp [toLower_eq_iff small capital hsmall hcapital, hlong]

end Fold

theorem foldsTo_json_iff (letters : List Char) : Text.foldsTo ("." ++ String.ofList letters) ".json" = true ↔
    ∃ j s o n, letters = [j, s, o, n] ∧ j ∈ ['j', 'J'] ∧ s ∈ ['s', 'S', 'ſ'] ∧ o ∈ ['o', 'O'] ∧ n ∈ ['n', 'N'] := by
  have hdot : Text.foldChar '.' = '.' := by decide
  have hword : ".json".toList.map Char.toLower = ['.', 'j', 's', 'o', 'n'] := by decide
  have hj (c : Char) : c ∈ ['j', 'J'] ↔ Text.foldChar c = 'j' := by
    simp [foldChar_eq_iff 'j' 'J' (by decide) (by decide) (by decide)]
  have hs (c : Char) : c ∈ ['s', 'S', 'ſ'] ↔ Text.foldChar c = 's' := by
    simp [foldChar_eq_iff 's' 'S' (by decide) (by decide) (by decide)]
  have ho (c : Char) : c ∈ ['o', 'O'] ↔ Text.foldChar c = 'o' := by
    simp [foldChar_eq_iff 'o' 'O' (by decide) (by decide) (by decide)]
  have hn (c : Char) : c ∈ ['n', 'N'] ↔ Text.foldChar c = 'n' := by
    simp [foldChar_eq_iff 'n' 'N' (by decide) (by decide) (by decide)]
  simp only [hj, hs, ho, hn, Text.foldsTo, hword, String.toList_append, String.toList_ofList, List.map_append, beq_iff_eq]
  change Text.foldChar '.' :: letters.map Text.foldChar = _ ↔ _
  rw [hdot, List.cons.injEq, eq_self, true_and]
  constructor
  · intro h
    obtain ⟨j, rest, rfl, hj, h⟩ := List.map_eq_cons_iff.mp h
    obtain ⟨s, rest, rfl, hs, h⟩ := List.map_eq_cons_iff.mp h
    obtain ⟨o, rest, rfl, ho, h⟩ := List.map_eq_cons_iff.mp h
    obtain ⟨n, rest, rfl, hn, h⟩ := List.map_eq_cons_iff.mp h
    obtain rfl := List.map_eq_nil_iff.mp h
    exact ⟨j, s, o, n, rfl, hj, hs, ho, hn⟩
  · rintro ⟨j, s, o, n, rfl, hj, hs, ho, hn⟩
    simp [hj, hs, ho, hn]

theorem exists_stem_iff {last letters : List Char} (hletters : '.' ∉ letters) : (∃ stem, last = stem ++ '.' :: letters) ↔
    '.' ∈ last ∧ (last.reverse.takeWhile (· ≠ '.')).reverse = letters := by
  have hplain : ∀ c ∈ letters.reverse, decide (c ≠ '.') = true := by
    intro c hc
    exact decide_eq_true fun heq => hletters (heq ▸ List.mem_reverse.mp hc)
  constructor
  · rintro ⟨stem, rfl⟩
    refine ⟨by simp, ?_⟩
    rw [List.reverse_append, List.reverse_cons, List.append_assoc, List.takeWhile_append_of_pos hplain]
    simp
  · rintro ⟨hdot, htake⟩
    have hsplit := List.takeWhile_append_dropWhile (p := fun c => decide (c ≠ '.')) (l := last.reverse)
    have hne : last.reverse.dropWhile (fun c => decide (c ≠ '.')) ≠ [] := by
      intro hnil
      have := List.dropWhile_eq_nil_iff.mp hnil '.' (List.mem_reverse.mpr hdot)
      simp at this
    obtain ⟨c, stem, hdrop⟩ := List.exists_cons_of_ne_nil hne
    have hc : c = '.' := by
      have hhead := List.head?_dropWhile_not (fun c => decide (c ≠ '.')) last.reverse
      rw [hdrop] at hhead
      simpa using hhead
    refine ⟨stem.reverse, ?_⟩
    rw [← List.reverse_inj, ← hsplit, hdrop, hc, ← htake]
    simp

theorem isProgramPath_join (root : String) {name : String} (h : IsName name) :
    isProgramPath (join [root, name]) = true ↔ HasJsonExtension name := by
  have hempty : Text.foldsTo "" ".json" = false := by decide
  have hletters {j s o n : Char} (hj : j ∈ ['j', 'J']) (hs : s ∈ ['s', 'S', 'ſ']) (ho : o ∈ ['o', 'O'])
      (hn : n ∈ ['n', 'N']) : '.' ∉ [j, s, o, n] := by
    rintro hdot
    simp only [List.mem_cons, List.not_mem_nil, or_false] at hj hs ho hn hdot
    rcases hdot with rfl | rfl | rfl | rfl <;> simp at hj hs ho hn
  rw [isProgramPath, extension, getLast?_segments_join root h]
  dsimp only [Option.getD_some]
  constructor
  · intro hfold
    split at hfold
    · next hdot =>
      obtain ⟨j, s, o, n, htake, hj, hs, ho, hn⟩ := (foldsTo_json_iff _).mp hfold
      obtain ⟨stem, hstem⟩ := (exists_stem_iff (hletters hj hs ho hn)).mpr ⟨hdot, htake⟩
      exact ⟨stem, j, s, o, n, hstem, hj, hs, ho, hn⟩
    · simp [hempty] at hfold
  · rintro ⟨stem, j, s, o, n, hstem, hj, hs, ho, hn⟩
    obtain ⟨hdot, htake⟩ := (exists_stem_iff (hletters hj hs ho hn)).mp ⟨stem, hstem⟩
    rw [if_pos hdot, htake]
    exact (foldsTo_json_iff _).mpr ⟨j, s, o, n, rfl, hj, hs, ho, hn⟩

end Path

namespace Entry

/-- No name stands twice in a directory. -/
inductive Distinct : Entry → Prop
  | file (content : ByteArray) : Distinct (file content)
  | directory {entries : List (String × Entry)} (hnames : (entries.map Prod.fst).Nodup)
      (hentries : ∀ p ∈ entries, Distinct p.2) : Distinct (directory entries)

theorem lookup_eq_some_iff_mem {entries : List (String × Entry)} (h : (entries.map Prod.fst).Nodup) {name : String}
    {e : Entry} : entries.lookup name = some e ↔ (name, e) ∈ entries := by
  constructor
  · intro hlookup
    obtain ⟨before, after, rfl, -⟩ := List.lookup_eq_some_iff.mp hlookup
    simp
  · intro hmem
    obtain ⟨before, after, rfl⟩ := List.append_of_mem hmem
    refine List.lookup_eq_some_iff.mpr ⟨before, after, rfl, fun p hp => ?_⟩
    have hne : name ∉ before.map Prod.fst := by
      rw [List.map_append, List.nodup_append] at h
      exact fun hin => h.2.2 name hin name (by simp) rfl
    simpa using fun heq : name = p.1 => hne (heq ▸ List.mem_map_of_mem hp)

theorem Distinct.of_at? {e found : Entry} (h : e.Distinct) {place : List String} (hfound : e.at? place = some found) :
    found.Distinct := by
  induction place generalizing e with
  | nil => exact Option.some.inj hfound ▸ h
  | cons name place ih =>
    obtain ⟨entries, child, rfl, hchild, hrest⟩ := exists_of_at?_cons hfound
    cases h with
    | directory hnames hentries =>
      exact ih (hentries (name, child) ((lookup_eq_some_iff_mem hnames).mp hchild)) hrest

/-- A search from `path`, as a function of where it starts. It lists what `pick` chooses, and leaves out hidden
directories other than the one it starts in. -/
structure IsSearch (pick : String → Entry → Bool) (search : String → Entry → List String) : Prop where
  file : ∀ path content, search path (file content) = if pick path (.file content) then [path] else []
  directory : ∀ path entries, search path (directory entries) =
    (if pick path (.directory entries) then [path] else []) ++ entries.flatMap fun p =>
      if p.2.isDirectory && isHidden p.1 then [] else search (Path.join [path, p.1]) p.2

/-- The names of the directories on the way to an entry, itself included. -/
def directoriesOn (way : List String) (e : Entry) : List String := if e.isDirectory then way else way.dropLast

theorem forall_directoriesOn_cons {e found : Entry} {name : String} {way : List String} {p : String → Prop}
    (h : e.at? way = some found) : (∀ n ∈ directoriesOn (name :: way) found, p n) ↔
      (e.isDirectory = true → p name) ∧ ∀ n ∈ directoriesOn way found, p n := by
  cases way with
  | nil =>
    obtain rfl := Option.some.inj h
    cases e <;> simp [directoriesOn, isDirectory]
  | cons m way =>
    obtain ⟨entries, -, rfl, -⟩ := exists_of_at?_cons h
    cases found <;> simp [directoriesOn, isDirectory]

theorem mem_picked_iff {pick : String → Entry → Bool} {path root : String} {e : Entry} :
    path ∈ (if pick root e then [root] else []) ↔ path = root ∧ pick root e = true := by
  split <;> simp_all

theorem WellNamed.isName_of_at? {e found : Entry} (h : e.WellNamed) {way : List String} (hfound : e.at? way = some found)
    {n : String} (hn : n ∈ way) : Path.IsName n := by
  induction way generalizing e with
  | nil => cases hn
  | cons name way ih =>
    obtain ⟨entries, child, rfl, hchild, hrest⟩ := exists_of_at?_cons hfound
    obtain ⟨before, after, rfl, -⟩ := List.lookup_eq_some_iff.mp hchild
    cases h with
    | directory hnames hentries =>
      rcases List.mem_cons.mp hn with rfl | hn
      · exact hnames (n, child) (by simp)
      · exact ih (hentries (name, child) (by simp)) hrest hn

namespace IsSearch

variable {pick : String → Entry → Bool} {search : String → Entry → List String} (hsearch : IsSearch pick search)
include hsearch

/-- What a search finds. The induction is on the tree: the way from a child is that from the root without its first
name. -/
theorem mem_iff {e : Entry} (h : e.Distinct) {root path : String} : path ∈ search root e ↔
    ∃ way found, e.at? way = some found ∧ pick (Path.descend root way) found = true ∧
      (∀ n ∈ directoriesOn way found, isHidden n = false) ∧ path = Path.descend root way := by
  induction h generalizing root with
  | file content =>
    rw [hsearch.file, mem_picked_iff]
    constructor
    · rintro ⟨rfl, hpick⟩
      exact ⟨[], .file content, rfl, hpick, by simp [directoriesOn], rfl⟩
    · rintro ⟨way, found, hfound, hpick, -, hpath⟩
      cases way with
      | nil =>
        obtain rfl := Option.some.inj hfound
        exact ⟨hpath, hpick⟩
      | cons name way => cases hfound
  | @directory entries hnames hentries ih =>
    rw [hsearch.directory, List.mem_append, mem_picked_iff, List.mem_flatMap]
    constructor
    · rintro (⟨rfl, hpick⟩ | ⟨p, hp, hpath⟩)
      · exact ⟨[], .directory entries, rfl, hpick, by simp [directoriesOn], rfl⟩
      · split at hpath
        · cases hpath
        · next hopen =>
          obtain ⟨way, found, hfound, hpick, hway, rfl⟩ := (ih p hp).mp hpath
          have hchild : entries.lookup p.1 = some p.2 := (lookup_eq_some_iff_mem hnames).mpr hp
          refine ⟨p.1 :: way, found, ?_, hpick, (forall_directoriesOn_cons hfound).mpr ⟨?_, hway⟩, rfl⟩
          · rw [at?_cons, child?, hchild]
            exact hfound
          · simpa using hopen
    · rintro ⟨way, found, hfound, hpick, hway, rfl⟩
      cases way with
      | nil =>
        obtain rfl := Option.some.inj hfound
        exact .inl ⟨rfl, hpick⟩
      | cons name way =>
        obtain ⟨_, child, hdirectory, hchild, hrest⟩ := exists_of_at?_cons hfound
        obtain rfl := directory.inj hdirectory
        have hp := (lookup_eq_some_iff_mem hnames).mp hchild
        obtain ⟨hopen, hway⟩ := (forall_directoriesOn_cons hrest).mp hway
        refine .inr ⟨(name, child), hp, ?_⟩
        rw [if_neg (by simpa using hopen)]
        exact (ih (name, child) hp).mpr ⟨way, found, hrest, hpick, hway, rfl⟩

theorem exists_names {e : Entry} (hnamed : e.WellNamed) (h : e.Distinct) {root path : String}
    (hpath : path ∈ search root e) : ∃ way, Path.names path = Path.names root ++ way := by
  obtain ⟨way, found, hfound, -, -, rfl⟩ := (hsearch.mem_iff h).mp hpath
  exact ⟨way, Path.names_descend root fun n hn => hnamed.isName_of_at? hfound hn⟩

/-- Nothing is found twice: the names of a path tell in which child it was found. -/
theorem nodup {e : Entry} (hnamed : e.WellNamed) (h : e.Distinct) (root : String) : (search root e).Nodup := by
  induction h generalizing root with
  | file content =>
    rw [hsearch.file]
    split <;> simp
  | @directory entries hnames hentries ih =>
    cases hnamed with
    | directory hproper hnamed =>
      have hbelow {p : String × Entry} (hp : p ∈ entries) {path : String}
          (hpath : path ∈ if p.2.isDirectory && isHidden p.1 then [] else search (Path.join [root, p.1]) p.2) :
          ∃ way, Path.names path = Path.names root ++ p.1 :: way := by
        split at hpath
        · cases hpath
        · obtain ⟨way, hway⟩ := hsearch.exists_names (hnamed p hp) (hentries p hp) hpath
          refine ⟨way, ?_⟩
          rw [hway, Path.names_join root (hproper p hp), List.append_assoc, List.singleton_append]
      rw [hsearch.directory, List.nodup_append]
      refine ⟨by split <;> simp, List.nodup_flatMap.mpr ⟨fun p hp => ?_, ?_⟩, fun path hpath other hother => ?_⟩
      · split
        · exact List.nodup_nil
        · exact ih p hp (hnamed p hp) _
      · refine (List.pairwise_map.mp hnames).imp_of_mem fun {p q} hp hq hne path hpath hpath' => hne ?_
        obtain ⟨way, hway⟩ := hbelow hp hpath
        obtain ⟨way', hway'⟩ := hbelow hq hpath'
        exact (List.cons.inj (List.append_cancel_left (hway.symm.trans hway'))).1
      · rintro rfl
        obtain ⟨p, hp, hother⟩ := List.mem_flatMap.mp hother
        obtain ⟨way, hway⟩ := hbelow hp hother
        rw [(mem_picked_iff.mp hpath).1] at hway
        simp at hway

end IsSearch

theorem programsBelow_eq (path : String) (entries : List (String × Entry)) : programsBelow path entries =
    entries.flatMap fun p => if p.2.isDirectory && isHidden p.1 then [] else p.2.programs (Path.join [path, p.1]) := by
  induction entries with
  | nil => simp [programsBelow]
  | cons p entries ih => rw [programsBelow, ih, List.flatMap_cons]

theorem programs_isSearch : IsSearch (fun path e => !e.isDirectory && isProgramPath path) programs where
  file path content := by simp [programs, isDirectory]
  directory path entries := by simp [programs, programsBelow_eq, isDirectory]

/-- A hidden file is no fixture, so that it makes no difference whether it is looked at. -/
theorem fixturesBelow_eq (path : String) (entries : List (String × Entry)) : fixturesBelow path entries =
    entries.flatMap fun p => if p.2.isDirectory && isHidden p.1 then [] else p.2.fixtures (Path.join [path, p.1]) := by
  induction entries with
  | nil => simp [fixturesBelow]
  | cons p entries ih =>
    obtain ⟨name, e⟩ := p
    rw [fixturesBelow, ih, List.flatMap_cons]
    cases e <;> simp [isDirectory, fixtures]

theorem fixtures_isSearch :
    IsSearch (fun _ e => match e with | file _ => false | directory entries => isFixture entries) fixtures where
  file path content := by simp [fixtures]
  directory path entries := by rw [fixtures, fixturesBelow_eq]

end Entry

theorem mem_sortPaths {path : String} {paths : List String} : path ∈ sortPaths paths ↔ path ∈ paths :=
  List.mem_mergeSort

theorem pairwise_sortPaths {paths : List String} (h : paths.Nodup) :
    (sortPaths paths).Pairwise (Text.bytes · < Text.bytes ·) := Text.pairwise_mergeSort h

theorem isHidden_eq_false_iff (name : String) : isHidden name = false ↔ name.toList.head? ≠ some '.' := by
  rw [← Bool.not_eq_true, isHidden, String.startsWith_string_iff]
  cases name.toList with
  | nil => simp
  | cons c cs => simp [List.cons_prefix_cons, eq_comm]

namespace Files

variable {f : Files} {root : String} {entries : List (String × Entry)}

theorem discoverPrograms_eq {e : Entry} (h : f.find root = .ok e) :
    f.discoverPrograms root = .ok (sortPaths (e.programs root)) := by
  rw [discoverPrograms, searchRoot, h]
  rfl

theorem discoverFixtures_eq {e : Entry} (h : f.find root = .ok e) :
    f.discoverFixtures root = .ok (sortPaths (e.fixtures root)) := by
  rw [discoverFixtures, searchRoot, h]
  rfl

/-- What a search lists, once and in order. -/
structure Lists (paths : List String) (wanted : String → Prop) : Prop where
  increasing : paths.Pairwise (Text.bytes · < Text.bytes ·)
  mem_iff : ∀ path, path ∈ paths ↔ wanted path

/-- A file below a directory, with the extension of programs and no hidden directory on the way. -/
def IsProgramBelow (root : String) (entries : List (String × Entry)) (path : String) : Prop :=
  ∃ (way : List String) (name : String) (content : ByteArray),
    (Entry.directory entries).at? (way ++ [name]) = some (.file content) ∧ Path.HasJsonExtension name ∧
    (∀ n ∈ way, n.toList.head? ≠ some '.') ∧ path = Path.descend root (way ++ [name])

/-- A directory with a manifest or a program, at most below directories that are not hidden. -/
def IsFixtureBelow (root : String) (entries : List (String × Entry)) (path : String) : Prop :=
  ∃ (way : List String) (inside : List (String × Entry)),
    (Entry.directory entries).at? way = some (.directory inside) ∧
    (∃ p ∈ inside, p.1 = "manifest.yml" ∨ p.1 = "program.json") ∧
    (∀ n ∈ way, n.toList.head? ≠ some '.') ∧ path = Path.descend root way

theorem mem_programs_iff (hnamed : (Entry.directory entries).WellNamed) (hdistinct : (Entry.directory entries).Distinct)
    {path : String} : path ∈ (Entry.directory entries).programs root ↔ IsProgramBelow root entries path := by
  rw [Entry.programs_isSearch.mem_iff hdistinct]
  constructor
  · rintro ⟨way, found, hfound, hpick, hway, rfl⟩
    cases found with
    | directory => simp [Entry.isDirectory] at hpick
    | file content =>
      obtain rfl | ⟨way, name, rfl⟩ := List.eq_nil_or_concat way
      · cases hfound
      · rw [List.concat_eq_append] at *
        have hname := hnamed.isName_of_at? hfound (n := name) (by simp)
        have hjson : Path.HasJsonExtension name := by
          rw [← Path.isProgramPath_join (Path.descend root way) hname]
          simpa [Path.descend, Entry.isDirectory] using hpick
        refine ⟨way, name, content, hfound, hjson, fun n hn => ?_, rfl⟩
        exact (isHidden_eq_false_iff n).mp (hway n (by simpa [Entry.directoriesOn, Entry.isDirectory] using hn))
  · rintro ⟨way, name, content, hfound, hjson, hway, rfl⟩
    have hname := hnamed.isName_of_at? hfound (n := name) (by simp)
    refine ⟨way ++ [name], .file content, hfound, ?_, fun n hn => ?_, rfl⟩
    · have hpath := (Path.isProgramPath_join (Path.descend root way) hname).mpr hjson
      simpa [Path.descend, Entry.isDirectory] using hpath
    · exact (isHidden_eq_false_iff n).mpr (hway n (by simpa [Entry.directoriesOn, Entry.isDirectory] using hn))

theorem isFixture_iff {inside : List (String × Entry)} :
    Entry.isFixture inside = true ↔ ∃ p ∈ inside, p.1 = "manifest.yml" ∨ p.1 = "program.json" := by
  have hlookup (name : String) : (inside.lookup name).isSome = true ↔ ∃ p ∈ inside, p.1 = name := by
    rw [List.lookup_isSome_iff]
    exact exists_congr fun p => and_congr_right fun _ => beq_iff_eq.trans eq_comm
  rw [Entry.isFixture, Bool.or_eq_true, hlookup, hlookup, ← exists_or]
  simp only [← and_or_left]
  rfl

theorem mem_fixtures_iff (hdistinct : (Entry.directory entries).Distinct) {path : String} :
    path ∈ (Entry.directory entries).fixtures root ↔ IsFixtureBelow root entries path := by
  rw [Entry.fixtures_isSearch.mem_iff hdistinct]
  constructor
  · rintro ⟨way, found, hfound, hpick, hway, rfl⟩
    cases found with
    | file => cases hpick
    | directory inside =>
      exact ⟨way, inside, hfound, isFixture_iff.mp hpick, fun n hn => (isHidden_eq_false_iff n).mp (hway n hn), rfl⟩
  · rintro ⟨way, inside, hfound, hpick, hway, rfl⟩
    exact ⟨way, .directory inside, hfound, isFixture_iff.mpr hpick,
      fun n hn => (isHidden_eq_false_iff n).mpr (hway n hn), rfl⟩

/-- Searching a directory for programs and for fixtures finds all that there are and nothing else, each once and in the
order of bytes. There is nothing to search where a path leads nowhere. -/
theorem discovery_exact (hnamed : f.root.WellNamed) (hdistinct : f.root.Distinct) (root : String) :
    (∀ entries, f.find root = .ok (.directory entries) →
      (∃ paths, f.discoverPrograms root = .ok paths ∧ Lists paths (IsProgramBelow root entries)) ∧
      ∃ paths, f.discoverFixtures root = .ok paths ∧ Lists paths (IsFixtureBelow root entries)) ∧
    ∀ cause, f.find root = .error cause →
      (∃ e, f.discoverPrograms root = .error e) ∧ ∃ e, f.discoverFixtures root = .error e := by
  constructor
  · intro entries hfind
    obtain ⟨place, hplace⟩ := exists_at?_of_find hfind
    have hnamed := hnamed.of_at? hplace
    have hdistinct := hdistinct.of_at? hplace
    refine ⟨⟨_, discoverPrograms_eq hfind, ?_, fun path => ?_⟩, ⟨_, discoverFixtures_eq hfind, ?_, fun path => ?_⟩⟩
    · exact pairwise_sortPaths (Entry.programs_isSearch.nodup hnamed hdistinct root)
    · rw [mem_sortPaths, mem_programs_iff hnamed hdistinct]
    · exact pairwise_sortPaths (Entry.fixtures_isSearch.nodup hnamed hdistinct root)
    · rw [mem_sortPaths, mem_fixtures_iff hdistinct]
  · intro cause hfind
    rw [discoverPrograms, discoverFixtures, searchRoot, searchRoot, hfind]
    exact ⟨⟨_, rfl⟩, _, rfl⟩

/-- A hidden directory, with a fixture that holds another one, and files both hidden and in a hidden directory. -/
def hiddenWork : List (String × Entry) :=
  [("a", .directory [("b.Json", .file .empty), ("program.json", .file .empty)]), ("a-b.json", .file .empty),
    (".git", .directory [("c.json", .file .empty)]), (".d.json", .file .empty), ("manifest.yml", .file .empty)]

theorem discovery_exact_hiddenWork :
    let f : Files := ⟨.directory [(".work", .directory hiddenWork)], []⟩
    f.root.WellNamed ∧ f.root.Distinct ∧ f.find ".work" = .ok (.directory hiddenWork) ∧
    (∃ paths, f.discoverPrograms ".work" = .ok paths ∧ Lists paths (IsProgramBelow ".work" hiddenWork)) ∧
    ∃ paths, f.discoverFixtures ".work" = .ok paths ∧ Lists paths (IsFixtureBelow ".work" hiddenWork) := by
  intro f
  have hfiles : ∀ p ∈ hiddenWork, p.2.WellNamed ∧ p.2.Distinct := by
    have ha : ∀ p ∈ [("b.Json", Entry.file .empty), ("program.json", .file .empty)], p.2.WellNamed ∧ p.2.Distinct := by
      simp [Entry.WellNamed.file, Entry.Distinct.file]
    have hgit : ∀ p ∈ [("c.json", Entry.file .empty)], p.2.WellNamed ∧ p.2.Distinct := by
      simp [Entry.WellNamed.file, Entry.Distinct.file]
    intro p hp
    simp only [hiddenWork, List.mem_cons, List.not_mem_nil, or_false] at hp
    rcases hp with rfl | rfl | rfl | rfl | rfl
    · exact ⟨.directory (by decide) fun p hp => (ha p hp).1, .directory (by decide) fun p hp => (ha p hp).2⟩
    · exact ⟨.file _, .file _⟩
    · exact ⟨.directory (by decide) fun p hp => (hgit p hp).1, .directory (by decide) fun p hp => (hgit p hp).2⟩
    · exact ⟨.file _, .file _⟩
    · exact ⟨.file _, .file _⟩
  have hnamed : f.root.WellNamed := by
    have hwork : (Entry.directory hiddenWork).WellNamed := .directory (by decide) fun p hp => (hfiles p hp).1
    exact .directory (by decide) (by simpa using hwork)
  have hdistinct : f.root.Distinct := by
    have hwork : (Entry.directory hiddenWork).Distinct := .directory (by decide) fun p hp => (hfiles p hp).2
    exact .directory (by decide) (by simpa using hwork)
  have hfind : f.find ".work" = .ok (.directory hiddenWork) := by rfl
  exact ⟨hnamed, hdistinct, hfind, (discovery_exact hnamed hdistinct ".work").1 hiddenWork hfind⟩

end Files

end TreeWalk
