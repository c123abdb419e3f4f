import Mathlib.Data.List.Infix
import TreeWalk.Proofs.Files.Tree

/-!
# File trees that grow

A tree grows if all that was there is still there, files with the same content. Making directories is such a growth:
all that is new are the directories on the way to the one that is wanted. Once they are made, making them again changes
nothing, however the tree has grown since.
-/

namespace TreeWalk

namespace Entry

variable {e sub : Entry} {place : List String}

theorem exists_at?_dropLast {entries : List (String × Entry)} (h : e.at? place = some (directory entries)) :
    ∃ entries', e.at? place.dropLast = some (directory entries') := by
  rcases List.eq_nil_or_concat place with rfl | ⟨above, name, rfl⟩
  · exact ⟨entries, h⟩
  · rw [List.concat_eq_append] at h ⊢
    obtain ⟨sub, hsub, hbelow⟩ := Option.bind_eq_some_iff.mp ((at?_append _ _ e).symm.trans h)
    obtain ⟨entries', rfl⟩ := exists_of_at?_directory hbelow
    exact ⟨entries', by rwa [List.dropLast_concat]⟩

theorem face_directory {entries : List (String × Entry)} (h : e.face = (directory entries).face) :
    ∃ entries', e = directory entries' := by
  cases e with
  | file content => cases h
  | directory entries' => exact ⟨entries', rfl⟩

end Entry

namespace Files

/-- What was there is still there, and `new` holds of the places where something is new. -/
structure Grows (new : List String → Prop) (f f' : Files) : Prop where
  here : f'.here = f.here
  keeps : ∀ place e, f.at? place = some e → ∃ e', f'.at? place = some e' ∧ e'.face = e.face
  added : ∀ place e, f'.at? place = some e → f.at? place = none → new place

namespace Grows

variable {f f' f'' : Files} {new new' : List String → Prop} {place : List String}

theorem refl (f : Files) : Grows new f f where
  here := rfl
  keeps _ e h := ⟨e, h, rfl⟩
  added _ _ h hnone := by simp [h] at hnone

theorem mono (h : Grows new f f') (hnew : ∀ place, new place → new' place) : Grows new' f f' :=
  ⟨h.here, h.keeps, fun place e hfound hnone => hnew place (h.added place e hfound hnone)⟩

theorem trans (h : Grows new f f') (h' : Grows new f' f'') : Grows new f f'' where
  here := h'.here.trans h.here
  keeps place e hfound := by
    obtain ⟨e', hfound', hface⟩ := h.keeps place e hfound
    obtain ⟨e'', hfound'', hface'⟩ := h'.keeps place e' hfound'
    exact ⟨e'', hfound'', hface'.trans hface⟩
  added place e hfound hnone := by
    cases hmiddle : f'.at? place with
    | none => exact h'.added place e hfound hmiddle
    | some e' => exact h.added place e' hmiddle hnone

theorem isSome (h : Grows new f f') (hsome : (f.at? place).isSome) : (f'.at? place).isSome := by
  obtain ⟨e, he⟩ := Option.isSome_iff_exists.mp hsome
  obtain ⟨e', he', -⟩ := h.keeps place e he
  simp [he']

theorem exists_directory (h : Grows new f f') {entries : List (String × Entry)}
    (hdir : f.at? place = some (.directory entries)) : ∃ entries', f'.at? place = some (.directory entries') := by
  obtain ⟨e', he', hface⟩ := h.keeps place _ hdir
  obtain ⟨entries', rfl⟩ := Entry.face_directory hface
  exact ⟨entries', he'⟩

/-- Where the entries look the same but for places that satisfy `new`, the tree has grown if there was nothing there. -/
theorem of_face (hhere : f'.here = f.here)
    (hface : ∀ place, ¬new place → (f'.at? place).map Entry.face = (f.at? place).map Entry.face)
    (hnone : ∀ place, new place → f.at? place = none) : Grows new f f' where
  here := hhere
  keeps place e hfound := by
    have hold : ¬new place := fun hnew => by simp [hnone place hnew] at hfound
    have hsame := hface place hold
    rw [hfound, Option.map_some] at hsame
    exact Option.map_eq_some_iff.mp hsame
  added place e hfound hmissing := by
    by_contra hold
    have hsame := hface place hold
    simp [hfound, hmissing] at hsame

variable {entries : List (String × Entry)} {name : String}

theorem put (hplace : f.at? place = some (.directory entries)) (hname : entries.lookup name = none) (e : Entry) :
    Grows ((place ++ [name]) <+: ·) f (f.put (place ++ [name]) e) := by
  refine of_face rfl (fun other hother => Entry.face_at?_put hplace hother) ?_
  rintro _ ⟨more, rfl⟩
  have hnone : f.root.at? (place ++ [name]) = none := by
    rw [Entry.at?_of_at? hplace, Entry.at?_cons, Entry.child?, hname]
    rfl
  exact Entry.at?_of_none hnone more

theorem putDirectory (hplace : f.at? place = some (.directory entries)) (hname : entries.lookup name = none) :
    Grows (· = place ++ [name]) f (f.put (place ++ [name]) (.directory [])) := by
  refine of_face rfl (fun other hother => Entry.face_at?_put_empty hplace hname hother) ?_
  rintro _ rfl
  rw [Files.at?, Entry.at?_of_at? hplace, Entry.at?_cons, Entry.child?, hname]
  rfl

end Grows

section MakeDirectories

variable {absolute : Bool} {names walked place : List String} {f : Files}

def step (place : List String) (name : String) : List String := if name = ".." then place.dropLast else place ++ [name]

/-- The places that names lead to one after the other. -/
def OnWay (names start place : List String) : Prop := ∃ done, done <+: names ∧ place = done.foldl step start

theorem foldl_step (start : List String) (h : ∀ n ∈ names, Path.IsName n) : names.foldl step start = start ++ names := by
  induction names generalizing start with
  | nil => simp
  | cons n names ih =>
    have hn : step start n = start ++ [n] := if_neg (h n (by simp)).ne_up
    rw [List.foldl_cons, hn, ih _ fun m hm => h m (by simp [hm]), List.append_assoc, List.singleton_append]

theorem OnWay.cons {name : String} {start : List String} (h : OnWay names (step start name) place) :
    OnWay (name :: names) start place := by
  obtain ⟨done, hdone, rfl⟩ := h
  exact ⟨name :: done, by simpa using hdone, rfl⟩

theorem OnWay.first {name : String} {start : List String} : OnWay (name :: names) start (step start name) :=
  ⟨[name], by simp, rfl⟩

/-- What comes of making the directories that `names` lead to from `start`. -/
structure Made (absolute : Bool) (walked start names : List String) (f : Files) (place : List String) (f' : Files) :
    Prop where
  place_eq : place = names.foldl step start
  directory : ∃ entries, f'.at? place = some (.directory entries)
  grows : Grows (OnWay names start) f f'
  /-- It does not have to be done twice. -/
  again : ∀ new later, Grows new f' later → makeDirectoriesFrom absolute walked start names later = .ok (place, later)

theorem makeDirectoriesFrom_up {start : List String} :
    makeDirectoriesFrom absolute walked start (".." :: names) f =
      makeDirectoriesFrom absolute (walked ++ [".."]) start.dropLast names f := by
  rw [makeDirectoriesFrom, if_pos rfl]

theorem makeDirectoriesFrom_directory {start : List String} {name : String} (hname : name ≠ "..")
    {below : List (String × Entry)} (hbelow : f.at? (start ++ [name]) = some (.directory below)) :
    makeDirectoriesFrom absolute walked start (name :: names) f =
      makeDirectoriesFrom absolute (walked ++ [name]) (start ++ [name]) names f := by
  rw [makeDirectoriesFrom, if_neg hname, hbelow]

theorem made_of_makeDirectoriesFrom {start : List String} {entries : List (String × Entry)} {f' : Files}
    (hstart : f.at? start = some (.directory entries))
    (h : makeDirectoriesFrom absolute walked start names f = .ok (place, f')) :
    Made absolute walked start names f place f' := by
  induction names generalizing walked start entries f with
  | nil =>
    obtain ⟨rfl, rfl⟩ := Prod.mk.inj (Except.ok.inj h)
    exact ⟨rfl, ⟨entries, hstart⟩, .refl f, fun _ _ _ => rfl⟩
  | cons name names ih =>
    by_cases hname : name = ".."
    · subst hname
      rw [makeDirectoriesFrom_up] at h
      obtain ⟨entries', habove⟩ := Entry.exists_at?_dropLast hstart
      have hrest := ih habove h
      have hstep : step start ".." = start.dropLast := if_pos rfl
      refine ⟨?_, hrest.directory, hrest.grows.mono fun _ hway => .cons (hstep ▸ hway), fun new later hlater => ?_⟩
      · rw [hrest.place_eq, List.foldl_cons, hstep]
      · rw [makeDirectoriesFrom_up]
        exact hrest.again new later hlater
    · have hstep : step start name = start ++ [name] := if_neg hname
      -- the directory of the name is there or is made, and the rest starts from it
      obtain ⟨f₁, below, hgrows, hbelow, h₁⟩ : ∃ f₁ below, Grows (· = start ++ [name]) f f₁ ∧
          f₁.at? (start ++ [name]) = some (.directory below) ∧
          makeDirectoriesFrom absolute (walked ++ [name]) (start ++ [name]) names f₁ = .ok (place, f') := by
        cases hfound : f.at? (start ++ [name]) with
        | none =>
          have hnone : entries.lookup name = none := by
            have hchild := (Entry.at?_of_at? hstart [name]).symm.trans hfound
            rw [Entry.at?_cons, Entry.child?] at hchild
            cases hlookup : entries.lookup name with
            | none => rfl
            | some e => simp [hlookup] at hchild
          rw [makeDirectoriesFrom, if_neg hname, hfound] at h
          refine ⟨_, [], .putDirectory hstart hnone, ?_, h⟩
          rw [at?_put, Entry.at?_put_child hstart, if_pos rfl, Entry.at?_nil]
        | some e =>
          cases e with
          | file content =>
            rw [makeDirectoriesFrom, if_neg hname, hfound] at h
            cases h
          | directory below =>
            rw [makeDirectoriesFrom_directory hname hfound] at h
            exact ⟨f, below, .refl f, hfound, h⟩
      have hrest := ih hbelow h₁
      refine ⟨?_, hrest.directory, ?_, fun new later hlater => ?_⟩
      · rw [hrest.place_eq, List.foldl_cons, hstep]
      · refine (hgrows.mono ?_).trans (hrest.grows.mono fun _ hway => .cons (hstep ▸ hway))
        rintro _ rfl
        exact hstep ▸ .first
      · obtain ⟨below', hbelow'⟩ := hrest.grows.exists_directory hbelow
        obtain ⟨below'', hbelow''⟩ := hlater.exists_directory hbelow'
        rw [makeDirectoriesFrom_directory hname hbelow'']
        exact hrest.again new later hlater

/-- The working directory is there. -/
def Standing (f : Files) : Prop := ∃ entries, f.at? f.here = some (.directory entries)

theorem Standing.exists_origin (h : f.Standing) (path : String) :
    ∃ entries, f.at? (f.origin path) = some (.directory entries) := by
  obtain ⟨entries, hhere⟩ := h
  unfold origin
  split
  · obtain ⟨entries', hroot⟩ := Entry.exists_of_at?_directory hhere
    exact ⟨entries', congrArg some hroot⟩
  · exact ⟨entries, hhere⟩

theorem Grows.standing {new : List String → Prop} {f' : Files} (h : Grows new f f') (hf : f.Standing) : f'.Standing := by
  obtain ⟨entries, hhere⟩ := hf
  rw [Standing, h.here]
  exact h.exists_directory hhere

end MakeDirectories

end Files

end TreeWalk
