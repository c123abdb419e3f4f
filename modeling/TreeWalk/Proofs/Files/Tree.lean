import Mathlib.Data.List.Basic
import TreeWalk.Files.Tree
import TreeWalk.Proofs.Files.Path

/-!
# Places and changes in file trees

What stands at the places of a tree after an entry is put somewhere, or taken away again. A path from the root leads to
the place of its names. Making the directory of a name in a directory that is there makes that directory and no other.
-/

namespace TreeWalk

namespace Entry

/-- All names in a tree are proper ones. -/
inductive WellNamed : Entry → Prop
  | file (content : ByteArray) : WellNamed (file content)
  | directory {entries : List (String × Entry)} (hnames : ∀ p ∈ entries, Path.IsName p.1)
      (hentries : ∀ p ∈ entries, WellNamed p.2) : WellNamed (directory entries)

theorem WellNamed.of_at? {e found : Entry} (h : e.WellNamed) {place : List String} (hfound : e.at? place = some found) :
    found.WellNamed := by
  induction place generalizing e with
  | nil => exact Option.some.inj hfound ▸ h
  | cons name place ih =>
    obtain ⟨child, hchild, hrest⟩ := Option.bind_eq_some_iff.mp hfound
    cases h with
    | file content => cases hchild
    | directory _ hentries =>
      obtain ⟨before, after, rfl, -⟩ := List.lookup_eq_some_iff.mp hchild
      exact ih (hentries (name, child) (by simp)) hrest

section SetChild

variable (name : String) (e : Entry) (entries : List (String × Entry))

theorem lookup_entry (other : String) :
    ((name, e) :: entries).lookup other = if other = name then some e else entries.lookup other := by
  by_cases h : other = name
  · rw [if_pos h, h, List.lookup_cons_self]
  · rw [if_neg h, List.lookup_cons, beq_eq_false_iff_ne.mpr h]

theorem lookup_setChild (other : String) :
    (setChild name e entries).lookup other = if other = name then some e else entries.lookup other := by
  induction entries with
  | nil => rw [setChild, lookup_entry]
  | cons p entries ih =>
    obtain ⟨first, old⟩ := p
    by_cases hfirst : first = name
    · by_cases h : other = name <;> simp [setChild, lookup_entry, hfirst, h]
    · by_cases h : other = name
      · subst h
        simp [setChild, lookup_entry, ih, hfirst, Ne.symm hfirst]
      · simp [setChild, lookup_entry, ih, hfirst, h]

theorem setChild_setChild (e' : Entry) : setChild name e' (setChild name e entries) = setChild name e' entries := by
  induction entries with
  | nil => simp [setChild]
  | cons p entries ih => by_cases hp : p.1 = name <;> simp [setChild, hp, ih]

variable {name e entries}

theorem setChild_of_lookup (h : entries.lookup name = some e) : setChild name e entries = entries := by
  induction entries with
  | nil => simp at h
  | cons p entries ih =>
    obtain ⟨first, old⟩ := p
    rw [lookup_entry] at h
    by_cases hfirst : first = name
    · rw [if_pos hfirst.symm] at h
      simp [setChild, hfirst, Option.some.inj h]
    · rw [if_neg (Ne.symm hfirst)] at h
      simp [setChild, hfirst, ih h]

theorem filter_setChild (h : entries.lookup name = none) :
    (setChild name e entries).filter (fun (other, _) => other ≠ name) = entries := by
  induction entries with
  | nil => simp [setChild]
  | cons p entries ih =>
    obtain ⟨first, old⟩ := p
    rw [lookup_entry] at h
    by_cases hfirst : first = name
    · simp [hfirst] at h
    · rw [if_neg (Ne.symm hfirst)] at h
      simpa [setChild, hfirst] using ih h

end SetChild

section At

variable {e sub x : Entry} {place : List String}

@[simp] theorem at?_nil (e : Entry) : e.at? [] = some e := rfl

theorem at?_cons (name : String) (place : List String) (e : Entry) :
    e.at? (name :: place) = (e.child? name).bind (at? place) := rfl

theorem at?_append (place more : List String) (e : Entry) : e.at? (place ++ more) = (e.at? place).bind (at? more) := by
  induction place generalizing e with
  | nil => rfl
  | cons name place ih =>
    rw [List.cons_append, at?_cons, at?_cons, Option.bind_assoc]
    congr 1
    funext child
    exact ih child

theorem at?_of_at? (h : e.at? place = some sub) (more : List String) : e.at? (place ++ more) = sub.at? more := by
  rw [at?_append, h]
  rfl

theorem at?_of_none (h : e.at? place = none) (more : List String) : e.at? (place ++ more) = none := by
  rw [at?_append, h]
  rfl

theorem exists_of_at?_cons {name : String} (h : e.at? (name :: place) = some sub) :
    ∃ entries child, e = directory entries ∧ entries.lookup name = some child ∧ child.at? place = some sub := by
  obtain ⟨child, hchild, hrest⟩ := Option.bind_eq_some_iff.mp h
  cases e with
  | file content => cases hchild
  | directory entries => exact ⟨entries, child, rfl, hchild, hrest⟩

theorem exists_of_at?_directory {entries : List (String × Entry)} (h : e.at? place = some (directory entries)) :
    ∃ entries', e = directory entries' := by
  cases place with
  | nil => exact ⟨entries, Option.some.inj h⟩
  | cons name place =>
    obtain ⟨entries', -, rfl, -, -⟩ := exists_of_at?_cons h
    exact ⟨entries', rfl⟩

end At

section Put

variable {e sub x : Entry} {place : List String}

theorem put_cons (entries : List (String × Entry)) (name : String) (place : List String) (x : Entry) :
    (directory entries).put (name :: place) x =
      directory (setChild name (((entries.lookup name).getD (directory [])).put place x) entries) := by
  rw [put]

theorem put_append (h : e.at? place = some sub) (more : List String) (x : Entry) :
    e.put (place ++ more) x = e.put place (sub.put more x) := by
  induction place generalizing e with
  | nil =>
    obtain rfl := Option.some.inj h
    cases e <;> rfl
  | cons name place ih =>
    obtain ⟨entries, child, rfl, hchild, hrest⟩ := exists_of_at?_cons h
    rw [List.cons_append, put_cons, put_cons, hchild, Option.getD_some, ih hrest]

theorem at?_put_self (h : e.at? place = some sub) (x : Entry) : (e.put place x).at? place = some x := by
  induction place generalizing e with
  | nil => cases e <;> rfl
  | cons name place ih =>
    obtain ⟨entries, child, rfl, hchild, hrest⟩ := exists_of_at?_cons h
    rw [put_cons, hchild, Option.getD_some, at?_cons, child?, lookup_setChild, if_pos rfl]
    exact ih hrest

theorem put_put (place : List String) (e x y : Entry) : (e.put place x).put place y = e.put place y := by
  induction place generalizing e with
  | nil => cases e <;> rfl
  | cons name place ih =>
    cases e with
    | file content => rfl
    | directory entries =>
      rw [put_cons, put_cons, put_cons, lookup_setChild, if_pos rfl, Option.getD_some, ih, setChild_setChild]

theorem remove_put {entries : List (String × Entry)} (h : e.at? place = some (directory entries)) {name : String}
    (hname : entries.lookup name = none) (x : Entry) : (e.put (place ++ [name]) x).remove (place ++ [name]) = e := by
  induction place generalizing e with
  | nil =>
    obtain rfl := Option.some.inj h
    have hnil (e : Entry) : e.put [] x = x := by cases e <;> rfl
    rw [List.nil_append, put_cons, hnil, remove, filter_setChild hname]
  | cons n place ih =>
    obtain ⟨entries', child, rfl, hchild, hrest⟩ := exists_of_at?_cons h
    obtain ⟨m, more, hmore⟩ := List.exists_cons_of_ne_nil (l := place ++ [name]) (by simp)
    have hback := ih hrest
    rw [hmore] at hback
    rw [List.cons_append, hmore, put_cons, hchild, Option.getD_some, remove, lookup_setChild, if_pos rfl]
    dsimp only
    rw [hback, setChild_setChild, setChild_of_lookup hchild]
    simp

end Put

/-- What is seen of an entry without looking into it: the content of a file. -/
def face : Entry → Option ByteArray
  | file content => some content
  | directory _ => none

section Apart

variable {e sub x : Entry} {place : List String}

theorem at?_put_cons_of_ne {m n : String} (h : m ≠ n) (e x : Entry) (place more : List String) :
    (e.put (n :: place) x).at? (m :: more) = e.at? (m :: more) := by
  cases e with
  | file content => rfl
  | directory entries => rw [put_cons, at?_cons, at?_cons, child?, child?, lookup_setChild, if_neg h]

theorem at?_put_below (h : e.at? place = some sub) (more other : List String) (x : Entry) :
    (e.put (place ++ more) x).at? (place ++ other) = (sub.put more x).at? other := by
  rw [put_append h, at?_of_at? (at?_put_self h _)]

theorem at?_put_apart (h : e.at? place = some sub) {m n : String} (hne : m ≠ n) (more other : List String) (x : Entry) :
    (e.put (place ++ n :: more) x).at? (place ++ m :: other) = e.at? (place ++ m :: other) := by
  rw [at?_put_below h, at?_put_cons_of_ne hne, at?_of_at? h]

theorem at?_put_child {entries : List (String × Entry)} (h : e.at? place = some (directory entries)) (n m : String)
    (more : List String) (x : Entry) :
    (e.put (place ++ [n]) x).at? (place ++ m :: more) = if m = n then x.at? more else e.at? (place ++ m :: more) := by
  by_cases hm : m = n
  · have hnil (e : Entry) : e.put [] x = x := by cases e <;> rfl
    rw [if_pos hm, at?_put_below h, put_cons, at?_cons, child?, lookup_setChild, if_pos hm, hnil]
    rfl
  · rw [if_neg hm, at?_put_apart h hm]

/-- What is put into a directory under a new name is seen at its place and below, and nowhere else. -/
theorem face_at?_put {entries : List (String × Entry)} (h : e.at? place = some (directory entries)) {name : String}
    {other : List String} (hother : ¬(place ++ [name]) <+: other) :
    ((e.put (place ++ [name]) x).at? other).map face = (e.at? other).map face := by
  induction place generalizing e other with
  | nil =>
    obtain rfl := Option.some.inj h
    cases other with
    | nil => rw [List.nil_append, put_cons]; rfl
    | cons m other =>
      have hne : m ≠ name := by
        rintro rfl
        simp at hother
      rw [List.nil_append, at?_put_cons_of_ne hne]
  | cons n place ih =>
    obtain ⟨entries', child, rfl, hchild, hrest⟩ := exists_of_at?_cons h
    cases other with
    | nil => rw [List.cons_append, put_cons]; rfl
    | cons m other =>
      by_cases hne : m = n
      · subst hne
        have hbelow : ((child.put (place ++ [name]) x).at? other).map face = (child.at? other).map face :=
          ih hrest (by simpa using hother)
        rw [List.cons_append, put_cons, hchild, Option.getD_some, at?_cons, at?_cons, child?, child?, lookup_setChild,
          if_pos rfl, hchild]
        exact hbelow
      · rw [List.cons_append, at?_put_cons_of_ne hne]

theorem face_at?_put_empty {entries : List (String × Entry)} (h : e.at? place = some (directory entries)) {name : String}
    (hname : entries.lookup name = none) {other : List String} (hother : other ≠ place ++ [name]) :
    ((e.put (place ++ [name]) (directory [])).at? other).map face = (e.at? other).map face := by
  by_cases hbelow : (place ++ [name]) <+: other
  · obtain ⟨more, rfl⟩ := hbelow
    have hmore : more ≠ [] := fun hnil => hother (by simp [hnil])
    obtain ⟨m, more, rfl⟩ := List.exists_cons_of_ne_nil hmore
    have hnone : e.at? (place ++ [name] ++ m :: more) = none := by
      rw [List.append_assoc, at?_of_at? h]
      simp [at?_cons, child?, hname]
    have hnew : (e.put (place ++ [name]) (directory [])).at? (place ++ [name] ++ m :: more) = none := by
      rw [List.append_assoc, at?_put_below h, put_cons, hname, List.singleton_append, at?_cons, child?, lookup_setChild,
        if_pos rfl]
      rfl
    rw [hnone, hnew]
  · exact face_at?_put h hbelow

end Apart

end Entry

namespace Files

variable {f : Files}

@[simp] theorem at?_put (place : List String) (e : Entry) (other : List String) :
    (f.put place e).at? other = (f.root.put place e).at? other := rfl

theorem at?_concat (place : List String) (n : String) : f.at? (place ++ [n]) = (f.at? place).bind (Entry.child? n) := by
  rw [at?, Entry.at?_append]
  congr 1
  funext e
  rw [Entry.at?_cons]
  cases e.child? n <;> rfl

theorem exists_at?_of_find {path : String} {e : Entry} (h : f.find path = .ok e) : ∃ place, f.at? place = some e := by
  rw [find] at h
  cases hplace : f.locate path with
  | error cause => simp [hplace, bind, Except.bind] at h
  | ok place =>
    simp only [hplace, bind, Except.bind] at h
    split at h
    · next found hfound => exact ⟨place, Except.ok.inj h ▸ hfound⟩
    · cases h

/-- The place that a path stands for, whatever is there. -/
def place (f : Files) (path : String) : List String :=
  (Path.names path).foldl (fun place name => if name = ".." then place.dropLast else place ++ [name]) (f.origin path)

theorem place_join (path : String) {name : String} (h : Path.IsName name) :
    f.place (Path.join [path, name]) = f.place path ++ [name] := by
  have horigin : f.origin (Path.join [path, name]) = f.origin path := by rw [origin, origin, Path.isAbsolute_join path h]
  rw [place, place, Path.names_join path h, horigin, List.foldl_append]
  simp [h.ne_up]

theorem foldl_ups (k : Nat) (start : List String) (proper : List String) (hproper : ∀ n ∈ proper, Path.IsName n) :
    (List.replicate k ".." ++ proper).foldl (fun place name => if name = ".." then place.dropLast else place ++ [name])
      start = (List.replicate k "..").foldl (fun place _ => place.dropLast) start ++ proper := by
  induction k generalizing start with
  | zero =>
    induction proper generalizing start with
    | nil => simp
    | cons n proper ih =>
      have hrest := ih (fun m hm => hproper m (by simp [hm])) (start ++ [n])
      simpa [(hproper n (by simp)).ne_up] using hrest
  | succ k ih => simpa [List.replicate_succ] using ih start.dropLast

section FromRoot

variable {ns : List String}

theorem follow_eq_ok {place place' : List String} {n : String} (hn : Path.IsName n) :
    f.follow place n = .ok place' ↔ place' = place ++ [n] ∧ (f.at? (place ++ [n])).isSome := by
  rw [at?_concat, follow]
  cases f.at? place with
  | none => simp
  | some e =>
    cases e with
    | file content => simp [Entry.child?]
    | directory entries =>
      have hproper : (n = "" || n = ".") = false := by simp [hn.ne_empty, hn.ne_dot]
      have hchild : (Entry.directory entries).child? n = entries.lookup n := rfl
      cases hlookup : entries.lookup n <;> simp [hproper, hn.ne_up, hchild, hlookup, @eq_comm _ place']

theorem foldlM_follow_eq_ok {place place' : List String} (h : ∀ n ∈ ns, Path.IsName n) :
    ns.foldlM f.follow place = .ok place' ↔ place' = place ++ ns ∧ (ns ≠ [] → (f.at? (place ++ ns)).isSome) := by
  induction ns generalizing place with
  | nil => simpa [pure, Except.pure] using eq_comm
  | cons n ns ih =>
    have hn := h n (by simp)
    have hrest := @ih (place ++ [n]) fun m hm => h m (by simp [hm])
    have hassoc : place ++ n :: ns = place ++ [n] ++ ns := by simp
    have hbelow (hmissing : f.at? (place ++ [n]) = none) : f.at? (place ++ n :: ns) = none := by
      rw [hassoc]
      exact Entry.at?_of_none hmissing ns
    rw [List.foldlM_cons]
    cases hfirst : f.follow place n with
    | error cause =>
      have hmissing : f.at? (place ++ [n]) = none := by
        by_contra hsome
        have hok := (follow_eq_ok hn (f := f)).mpr ⟨rfl, Option.isSome_iff_ne_none.mpr hsome⟩
        rw [hfirst] at hok
        cases hok
      simp [bind, Except.bind, hbelow hmissing]
    | ok next =>
      obtain ⟨rfl, hsome⟩ := (follow_eq_ok hn).mp hfirst
      rw [hassoc]
      refine hrest.trans (and_congr_right fun _ => ⟨fun hfound _ => ?_, fun hfound _ => hfound (by simp)⟩)
      by_cases hlast : ns = []
      · rwa [hlast, List.append_nil]
      · exact hfound hlast

theorem locate_ofNames {place : List String} (h : ∀ n ∈ ns, Path.IsName n) (hne : ns ≠ []) :
    f.locate (Path.ofNames true ns) = .ok place ↔ place = ns ∧ (f.at? ns).isSome := by
  have hpath : Path.ofNames true ns ≠ "" := by simp [Path.ofNames]
  have horigin : f.origin (Path.ofNames true ns) = [] := by
    rw [origin, Path.isAbsolute_ofNames (.of_isName h), if_pos rfl]
  rw [locate, if_neg hpath, Path.segments_ofNames h hne, horigin, List.foldlM_cons]
  cases hroot : f.root with
  | file content =>
    obtain ⟨n, more, rfl⟩ := List.exists_cons_of_ne_nil hne
    have hnone : f.at? (n :: more) = none := by simp [at?, hroot, Entry.at?, Entry.child?]
    have hfollow : f.follow [] "" = .error .notDirectory := by simp [follow, at?, hroot]
    simp [hfollow, hnone, bind, Except.bind]
  | directory entries =>
    have hfollow : f.follow [] "" = .ok [] := by simp [follow, at?, hroot]
    rw [hfollow]
    exact (foldlM_follow_eq_ok h).trans (by simp [hne])

theorem find_ofNames (h : ∀ n ∈ ns, Path.IsName n) (hne : ns ≠ []) {e : Entry} :
    f.find (Path.ofNames true ns) = .ok e ↔ f.at? ns = some e := by
  have hlocate (place : List String) : f.locate (Path.ofNames true ns) = .ok place ↔ place = ns ∧ (f.at? ns).isSome :=
    locate_ofNames h hne
  rw [find]
  cases hat : f.at? ns with
  | none =>
    cases hplace : f.locate (Path.ofNames true ns) with
    | error cause => simp [bind, Except.bind]
    | ok place => simpa [hat] using ((hlocate place).mp hplace).2
  | some found =>
    rw [(hlocate ns).mpr ⟨rfl, by simp [hat]⟩]
    simp [bind, Except.bind, hat]

/-- Something that is no directory stands at a place. -/
def holdsFile (f : Files) (place : List String) : Bool := (f.at? place).any fun e => !e.isDirectory

theorem isFile_ofNames (h : ∀ n ∈ ns, Path.IsName n) (hne : ns ≠ []) :
    f.isFile (Path.ofNames true ns) = f.holdsFile ns := by
  have hfind (e : Entry) := find_ofNames (f := f) h hne (e := e)
  rw [isFile, holdsFile]
  cases hat : f.at? ns with
  | some e => rw [(hfind e).mpr hat]; rfl
  | none =>
    cases hpath : f.find (Path.ofNames true ns) with
    | error cause => rfl
    | ok e => exact absurd ((hfind e).mp hpath) (by simp [hat])

end FromRoot

section MakeDirectories

variable {absolute : Bool} {entries : List (String × Entry)} {name : String}

theorem makeDirectoriesFrom_ups (k : Nat) (walked place names : List String) :
    makeDirectoriesFrom absolute walked place (List.replicate k ".." ++ names) f =
      makeDirectoriesFrom absolute (walked ++ List.replicate k "..")
        ((List.replicate k "..").foldl (fun place _ => place.dropLast) place) names f := by
  induction k generalizing walked place with
  | zero => simp
  | succ k ih => simp [List.replicate_succ, makeDirectoriesFrom, ih]

theorem makeDirectoriesFrom_present {walked place present names : List String} (hpresent : ∀ n ∈ present, Path.IsName n)
    (h : f.at? (place ++ present) = some (.directory entries)) :
    makeDirectoriesFrom absolute walked place (present ++ names) f =
      makeDirectoriesFrom absolute (walked ++ present) (place ++ present) names f := by
  induction present generalizing walked place with
  | nil => simp
  | cons n present ih =>
    have hsplit : place ++ n :: present = (place ++ [n]) ++ present := by simp
    rw [hsplit] at h
    obtain ⟨sub, hsub, hbelow⟩ := Option.bind_eq_some_iff.mp ((Entry.at?_append _ _ f.root).symm.trans h)
    obtain ⟨entries', rfl⟩ := Entry.exists_of_at?_directory hbelow
    have hhere : f.at? (place ++ [n]) = some (.directory entries') := hsub
    have hrest : makeDirectoriesFrom absolute (walked ++ [n]) (place ++ [n]) (present ++ names) f = _ :=
      ih (fun m hm => hpresent m (by simp [hm])) h
    rw [List.cons_append, makeDirectoriesFrom, if_neg (hpresent n (by simp)).ne_up, hhere]
    simpa using hrest

/-- In a directory that is there, the directory of a name is made unless something has that name. -/
theorem makeDirectories_join {base : String} (hname : Path.IsName name)
    (hbase : f.at? (f.place base) = some (.directory entries)) (hfile : ∀ content, entries.lookup name ≠ some (.file content)) :
    f.makeDirectories (Path.join [base, name]) = .ok (f.place base ++ [name],
      if (entries.lookup name).isSome then f else f.put (f.place base ++ [name]) (.directory [])) := by
  obtain ⟨k, proper, hnames, hproper⟩ := (Path.names_stack base).exists_ups
  rw [List.reverse_reverse] at hnames
  have horigin : f.origin (Path.join [base, name]) = f.origin base := by
    rw [origin, origin, Path.isAbsolute_join base hname]
  have hplace : f.place base = (List.replicate k "..").foldl (fun place _ => place.dropLast) (f.origin base) ++ proper := by
    rw [place, hnames, foldl_ups k _ proper hproper]
  have hchild : f.at? (f.place base ++ [name]) = entries.lookup name := by
    rw [at?_concat, hbase]
    rfl
  rw [makeDirectories, Path.names_join base hname, horigin, hnames, List.append_assoc, makeDirectoriesFrom_ups,
    makeDirectoriesFrom_present hproper (hplace ▸ hbase), ← hplace, makeDirectoriesFrom, if_neg hname.ne_up, hchild]
  cases hlookup : entries.lookup name with
  | none => rfl
  | some e =>
    cases e with
    | file content => exact absurd hlookup (hfile content)
    | directory _ => rfl

end MakeDirectories

end Files

end TreeWalk
