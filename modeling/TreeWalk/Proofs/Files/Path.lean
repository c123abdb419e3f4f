import Mathlib.Data.List.Basic
import TreeWalk.Files.Path

/-!
# Simplified paths

The names of a path are steps up, of which an absolute path has none, and then proper names. The path with these names
has them again, and a proper name that is joined to a path becomes its last name.
-/

namespace TreeWalk.Path

/-- A name that an entry of a directory can have. -/
structure IsName (s : String) : Prop where
  ne_empty : s ≠ ""
  ne_dot : s ≠ "."
  ne_up : s ≠ ".."
  no_slash : '/' ∉ s.toList

instance (s : String) : Decidable (IsName s) :=
  decidable_of_iff (s ≠ "" ∧ s ≠ "." ∧ s ≠ ".." ∧ '/' ∉ s.toList)
    ⟨fun ⟨h, h', h'', h'''⟩ => ⟨h, h', h'', h'''⟩, fun h => ⟨h.ne_empty, h.ne_dot, h.ne_up, h.no_slash⟩⟩

section Segments

theorem splitSlashes_append (a b : List Char) : splitSlashes (a ++ '/' :: b) = splitSlashes a ++ splitSlashes b := by
  induction a with
  | nil => simp [splitSlashes]
  | cons c a ih =>
    by_cases hc : c = '/'
    · simp [splitSlashes, hc, ih]
    · have hnil : splitSlashes a ≠ [] := by
        cases a <;> simp only [splitSlashes] <;> repeat' split
        all_goals simp
      obtain ⟨first, rest, heq⟩ := List.exists_cons_of_ne_nil hnil
      simp [splitSlashes, hc, ih, heq]

theorem splitSlashes_of_not_mem {cs : List Char} (h : '/' ∉ cs) : splitSlashes cs = [cs] := by
  induction cs with
  | nil => rfl
  | cons c cs ih =>
    simp only [List.mem_cons, not_or] at h
    rw [splitSlashes, if_neg (Ne.symm h.1), ih h.2]

theorem not_mem_of_mem_splitSlashes {cs segment : List Char} (h : segment ∈ splitSlashes cs) : '/' ∉ segment := by
  induction cs generalizing segment with
  | nil => simp_all [splitSlashes]
  | cons c cs ih =>
    rw [splitSlashes] at h
    by_cases hc : c = '/'
    · rw [if_pos hc, List.mem_cons] at h
      rcases h with rfl | h
      · simp
      · exact ih h
    · rw [if_neg hc] at h
      split at h
      · next first rest heq =>
        rw [List.mem_cons] at h
        rcases h with rfl | h
        · simp [Ne.symm hc, ih (heq ▸ List.mem_cons_self)]
        · exact ih (heq ▸ List.mem_cons_of_mem first h)
      · simp_all [Ne.symm hc]

theorem segments_append (a b : String) : segments (a ++ "/" ++ b) = segments a ++ segments b := by
  have hslash : (a ++ "/" ++ b).toList = a.toList ++ '/' :: b.toList := by simp
  rw [segments, hslash, splitSlashes_append, List.map_append]
  rfl

theorem segments_of_not_mem {s : String} (h : '/' ∉ s.toList) : segments s = [s] := by
  rw [segments, splitSlashes_of_not_mem h, List.map_singleton, String.ofList_toList]

theorem not_mem_of_mem_segments {path segment : String} (h : segment ∈ segments path) : '/' ∉ segment.toList := by
  obtain ⟨cs, hcs, rfl⟩ := List.mem_map.mp h
  rw [String.toList_ofList]
  exact not_mem_of_mem_splitSlashes hcs

theorem segments_intercalate {names : List String} (hne : names ≠ []) (h : ∀ n ∈ names, '/' ∉ n.toList) :
    segments ("/".intercalate names) = names := by
  induction names with
  | nil => exact absurd rfl hne
  | cons n names ih =>
    have hn : segments n = [n] := segments_of_not_mem (h n (by simp))
    cases names with
    | nil => simpa using hn
    | cons m names =>
      have hrest := ih (by simp) (fun n hmem => h n (by simp_all))
      rw [String.intercalate_cons_cons, segments_append, hn, hrest, List.singleton_append]

end Segments

/-- The names that a path can come to, the last one first: proper names, and below them steps up. -/
inductive Stack (absolute : Bool) : List String → Prop
  | ups (k : Nat) (h : absolute = true → k = 0) : Stack absolute (List.replicate k "..")
  | name {n : String} {stack : List String} (hn : IsName n) (hstack : Stack absolute stack) : Stack absolute (n :: stack)

namespace Stack

variable {absolute : Bool} {stack : List String}

theorem mem (h : Stack absolute stack) {n : String} (hn : n ∈ stack) : n ≠ "" ∧ '/' ∉ n.toList := by
  induction h with
  | ups k _ => simp [List.eq_of_mem_replicate hn]
  | @name m stack hm _ ih =>
    rcases List.mem_cons.mp hn with rfl | hn
    · exact ⟨hm.ne_empty, hm.no_slash⟩
    · exact ih hn

theorem isName_of_mem (h : Stack absolute stack) (habsolute : absolute = true) {n : String} (hn : n ∈ stack) :
    IsName n := by
  induction h with
  | ups k hk => simp [hk habsolute] at hn
  | name hm _ ih =>
    rcases List.mem_cons.mp hn with rfl | hn
    · exact hm
    · exact ih hn

theorem addSegment (h : Stack absolute stack) {segment : String} (hslash : '/' ∉ segment.toList) :
    Stack absolute (addSegment absolute stack segment) := by
  unfold Path.addSegment
  by_cases hskip : (segment = "" || segment = ".") = true
  · rwa [if_pos hskip]
  · rw [if_neg hskip]
    simp only [Bool.or_eq_true, decide_eq_true_eq, not_or] at hskip
    by_cases hup : segment = ".."
    · rw [if_pos hup]
      cases h with
      | name hn hstack => simpa [hn.ne_up] using hstack
      | ups k hk =>
        -- a step up from steps up is one more, and a step up from the root stays there
        cases k with
        | zero =>
          cases absolute with
          | true => exact .ups 0 (fun _ => rfl)
          | false => exact .ups 1 (by simp)
        | succ k =>
          have hrelative : absolute ≠ true := fun habsolute => absurd (hk habsolute) (by omega)
          exact .ups (k + 2) (fun habsolute => absurd habsolute hrelative)
    · rw [if_neg hup]
      exact .name ⟨hskip.1, hskip.2, hup, hslash⟩ h

theorem foldl_reverse (h : Stack absolute stack) : stack.reverse.foldl (Path.addSegment absolute) [] = stack := by
  induction h with
  | ups k hk =>
    rw [List.reverse_replicate]
    cases absolute with
    | true => simp [hk rfl]
    | false =>
      clear hk
      induction k with
      | zero => rfl
      | succ k ih =>
        have hup : Path.addSegment false (List.replicate k "..") ".." = List.replicate (k + 1) ".." := by
          cases k <;> simp [Path.addSegment, List.replicate_succ]
        rw [List.replicate_succ', List.foldl_append, ih, List.foldl_cons, List.foldl_nil, hup, List.replicate_succ']
  | name hn _ ih =>
    simp [List.foldl_append, ih, Path.addSegment, hn.ne_empty, hn.ne_dot, hn.ne_up]

theorem exists_ups (h : Stack absolute stack) :
    ∃ k proper, stack.reverse = List.replicate k ".." ++ proper ∧ ∀ n ∈ proper, IsName n := by
  induction h with
  | ups k _ => exact ⟨k, [], by simp, by simp⟩
  | @name n stack hn _ ih =>
    obtain ⟨k, proper, heq, hproper⟩ := ih
    refine ⟨k, proper ++ [n], by simp [heq], fun m hm => ?_⟩
    rcases List.mem_append.mp hm with hm | hm
    · exact hproper m hm
    · exact List.mem_singleton.mp hm ▸ hn

theorem append {names : List String} (h : Stack absolute names.reverse) {way : List String}
    (hway : ∀ n ∈ way, IsName n) : Stack absolute (names ++ way).reverse := by
  induction way generalizing names with
  | nil => rwa [List.append_nil]
  | cons n way ih =>
    have hn : Stack absolute (names ++ [n]).reverse := by
      rw [List.reverse_append]
      exact .name (hway n (by simp)) h
    have hrest := ih hn (fun m hm => hway m (by simp [hm]))
    rwa [List.append_assoc, List.singleton_append] at hrest

theorem of_isName {way : List String} (hway : ∀ n ∈ way, IsName n) : Stack absolute way.reverse := by
  have hempty : Stack absolute ([] : List String).reverse := .ups 0 fun _ => rfl
  exact hempty.append hway

end Stack

theorem names_stack (path : String) : Stack (isAbsolute path) (names path).reverse := by
  have hfold (segs : List String) (hsegs : ∀ s ∈ segs, '/' ∉ s.toList) (stack : List String)
      (hstack : Stack (isAbsolute path) stack) :
      Stack (isAbsolute path) (segs.foldl (addSegment (isAbsolute path)) stack) := by
    induction segs generalizing stack with
    | nil => exact hstack
    | cons s segs ih =>
      exact ih (fun s hs => hsegs s (by simp [hs])) _ (hstack.addSegment (hsegs s (by simp)))
  rw [names, simplify, List.reverse_reverse]
  exact hfold _ (fun s hs => not_mem_of_mem_segments hs) [] (.ups 0 (fun _ => rfl))

theorem isName_of_mem_names {path n : String} (h : isAbsolute path = true) (hn : n ∈ names path) : IsName n :=
  (names_stack path).isName_of_mem h (List.mem_reverse.mpr hn)

section OfNames

variable {absolute : Bool} {names : List String}

theorem isAbsolute_ofNames (h : Stack absolute names.reverse) : isAbsolute (ofNames absolute names) = absolute := by
  cases absolute with
  | true => simp [ofNames, isAbsolute]
  | false =>
    cases names with
    | nil => rfl
    | cons n names =>
      obtain ⟨hne, hslash⟩ := h.mem (n := n) (by simp)
      have hne' : n.toList ≠ [] := by simpa using hne
      obtain ⟨c, cs, hcs⟩ := List.exists_cons_of_ne_nil hne'
      have hc : c ≠ '/' := fun heq => hslash (by simp [hcs, heq])
      -- the text starts with the first name, which starts with no slash
      cases names with
      | nil => simp [ofNames, isAbsolute, hcs, hc]
      | cons m names => simp [ofNames, isAbsolute, String.intercalate_cons_cons, hcs, hc]

theorem names_ofNames (h : Stack absolute names.reverse) : Path.names (ofNames absolute names) = names := by
  have hfold := h.foldl_reverse
  rw [List.reverse_reverse] at hfold
  have hslash (n : String) (hn : n ∈ names) : '/' ∉ n.toList := (h.mem (n := n) (by simpa using hn)).2
  have hskip (segs : List String) : ("" :: segs).foldl (addSegment absolute) [] = segs.foldl (addSegment absolute) [] :=
    rfl
  rw [Path.names, isAbsolute_ofNames h, simplify]
  by_cases hnil : names = []
  · subst hnil
    cases absolute <;> rfl
  · have hsegments := segments_intercalate hnil hslash
    cases absolute with
    | true =>
      have hroot : "/" ++ "/".intercalate names = "" ++ "/" ++ "/".intercalate names := by simp
      have hempty : segments "" = [""] := rfl
      rw [ofNames, if_pos rfl, hroot, segments_append, hsegments, hempty, List.singleton_append, hskip, hfold,
        List.reverse_reverse]
    | false =>
      have hrelative : ofNames false names = "/".intercalate names := by simp [ofNames, hnil]
      rw [hrelative, hsegments, hfold, List.reverse_reverse]

theorem ofNames_concat (hne : names ≠ []) (n : String) :
    ofNames true (names ++ [n]) = ofNames true names ++ "/" ++ n := by
  have hintercalate : "/".intercalate (names ++ [n]) = "/".intercalate names ++ "/" ++ n := by
    induction names with
    | nil => exact absurd rfl hne
    | cons m names ih =>
      cases names with
      | nil => simp [String.intercalate_cons_cons]
      | cons m' names =>
        have hrest := ih (by simp)
        rw [List.cons_append] at hrest ⊢
        rw [List.cons_append, String.intercalate_cons_cons, hrest, String.intercalate_cons_cons]
        simp only [String.append_assoc]
  simp only [ofNames, if_pos, hintercalate, String.append_assoc]

end OfNames

section Join

variable {n : String}

theorem names_of_isName (h : IsName n) : names n = [n] := by
  simp [names, simplify, segments_of_not_mem h.no_slash, addSegment, h.ne_empty, h.ne_dot, h.ne_up]

theorem isAbsolute_of_isName (h : IsName n) : isAbsolute n = false := by
  have hne : n.toList ≠ [] := by simpa using h.ne_empty
  obtain ⟨c, cs, hcs⟩ := List.exists_cons_of_ne_nil hne
  have hc : c ≠ '/' := fun heq => h.no_slash (by simp [hcs, heq])
  simp [isAbsolute, hcs, hc]

theorem join_segment {path : String} (hpath : path ≠ "") (hslash : '/' ∉ n.toList) :
    join [path, n] = ofNames (isAbsolute path) (addSegment (isAbsolute path) (names path).reverse n).reverse := by
  have hclean : join [path, n] = clean (path ++ "/" ++ n) := by
    simp [join, hpath, String.intercalate_cons_cons]
  have hne : path.toList ≠ [] := by simpa using hpath
  obtain ⟨c, cs, hcs⟩ := List.exists_cons_of_ne_nil hne
  have habsolute : isAbsolute (path ++ "/" ++ n) = isAbsolute path := by simp [isAbsolute, hcs]
  rw [hclean, clean, habsolute, names, habsolute, segments_append, segments_of_not_mem hslash, simplify,
    List.foldl_append, names, simplify, List.reverse_reverse]
  rfl

theorem join_name (path : String) (h : IsName n) : join [path, n] = ofNames (isAbsolute path) (names path ++ [n]) := by
  by_cases hempty : path = ""
  · have hclean : join [path, n] = clean n := by simp [join, hempty, h.ne_empty]
    subst hempty
    rw [hclean, clean, isAbsolute_of_isName h, names_of_isName h]
    rfl
  · rw [join_segment hempty h.no_slash]
    simp [addSegment, h.ne_empty, h.ne_dot, h.ne_up]

theorem names_join (path : String) (h : IsName n) : names (join [path, n]) = names path ++ [n] := by
  rw [join_name path h, names_ofNames ((names_stack path).append (by simpa using h))]

theorem isAbsolute_join (path : String) (h : IsName n) : isAbsolute (join [path, n]) = isAbsolute path := by
  rw [join_name path h, isAbsolute_ofNames ((names_stack path).append (by simpa using h))]

theorem clean_join (path : String) (h : IsName n) : clean (join [path, n]) = join [path, n] := by
  rw [clean, isAbsolute_join path h, names_join path h, join_name path h]

theorem join_below {path : String} (habsolute : isAbsolute path = true) (hclean : clean path = path)
    (hroot : path ≠ "/") (h : IsName n) : join [path, n] = path ++ "/" ++ n := by
  rw [clean, habsolute] at hclean
  have hne : names path ≠ [] := fun hnil => hroot (by rw [← hclean, hnil]; rfl)
  rw [join_name path h, habsolute, ofNames_concat hne, hclean]

theorem join_dot {path : String} (hpath : path ≠ "") : join [path, "."] = clean path := by
  rw [join_segment hpath (by decide), clean]
  simp [addSegment]

theorem names_join_up {path : String} (habsolute : isAbsolute path = true) :
    names (join [path, ".."]) = (names path).dropLast := by
  have hpath : path ≠ "" := by
    rintro rfl
    cases habsolute
  have hup : (addSegment true (names path).reverse "..").reverse = (names path).dropLast := by
    rcases List.eq_nil_or_concat (names path) with hnames | ⟨above, last, hnames⟩
    · rw [hnames]
      rfl
    · rw [List.concat_eq_append] at hnames
      have hlast : IsName last := isName_of_mem_names habsolute (by simp [hnames])
      simp [hnames, addSegment, hlast.ne_up]
  have hstack : Stack true (names path).dropLast.reverse :=
    .of_isName fun n hn => isName_of_mem_names habsolute ((List.dropLast_sublist _).mem hn)
  rw [join_segment hpath (by decide), habsolute, hup, names_ofNames hstack]

end Join

theorem dropCommon_append (names way : List String) : dropCommon names (names ++ way) = ([], way) := by
  induction names with
  | nil => cases way <;> rfl
  | cons n names ih => simpa [dropCommon] using ih

/-- The way from a directory to one below it is the names between them. -/
theorem relative?_below (root : String) {way : List String} (hway : ∀ n ∈ way, IsName n) :
    relative? root (ofNames (isAbsolute root) (names root ++ way)) = some (ofNames false way) := by
  have hstack := (names_stack root).append hway
  simp [relative?, isAbsolute_ofNames hstack, names_ofNames hstack, dropCommon_append]

/-- The directory that names lead to. -/
def descend (root : String) (way : List String) : String := way.foldl (fun path name => join [path, name]) root

theorem descend_eq (root : String) {way : List String} (hne : way ≠ []) (hway : ∀ n ∈ way, IsName n) :
    descend root way = ofNames (isAbsolute root) (names root ++ way) := by
  induction way generalizing root with
  | nil => exact absurd rfl hne
  | cons n way ih =>
    have hn : IsName n := hway n (by simp)
    by_cases hlast : way = []
    · subst hlast
      exact join_name root hn
    · have hrest := ih (join [root, n]) hlast (fun m hm => hway m (by simp [hm]))
      rw [names_join root hn, isAbsolute_join root hn, List.append_assoc, List.singleton_append] at hrest
      exact hrest

theorem relative?_descend (root : String) {way : List String} (hway : ∀ n ∈ way, IsName n) :
    relative? root (descend root way) = some (ofNames false way) := by
  by_cases hne : way = []
  · subst hne
    have hself := dropCommon_append (names root) []
    rw [List.append_nil] at hself
    simp [descend, relative?, hself]
  · rw [descend_eq root hne hway, relative?_below root hway]

theorem ofNames_ne_dot {way : List String} (hne : way ≠ []) (hway : ∀ n ∈ way, IsName n) : ofNames false way ≠ "." := by
  intro hdot
  have hnames : names (ofNames false way) = way := names_ofNames (.of_isName hway)
  rw [hdot] at hnames
  exact hne hnames.symm

section FromRoot

variable {ns : List String}

theorem segments_ofNames (h : ∀ n ∈ ns, IsName n) (hne : ns ≠ []) : segments (ofNames true ns) = "" :: ns := by
  have hsegments := segments_intercalate hne fun n hn => (h n hn).no_slash
  have hroot : ofNames true ns = "" ++ "/" ++ "/".intercalate ns := by simp [ofNames]
  rw [hroot, segments_append, hsegments]
  rfl

theorem parent_ofNames (h : ∀ n ∈ ns, IsName n) : parent (ofNames true ns) = ofNames true ns.dropLast := by
  have habsolute : isAbsolute (ofNames true ns) = true := isAbsolute_ofNames (.of_isName h)
  rw [parent, habsolute]
  by_cases hne : ns = []
  · subst hne
    rfl
  · obtain ⟨n, more, rfl⟩ := List.exists_cons_of_ne_nil hne
    have hstack : Stack true (n :: more).dropLast.reverse :=
      .of_isName fun m hm => h m ((List.dropLast_sublist _).mem hm)
    have hfold := hstack.foldl_reverse
    rw [List.reverse_reverse] at hfold
    rw [segments_ofNames h hne, List.dropLast_cons_cons, simplify]
    -- the empty text before the first slash adds no name
    change ofNames true (((n :: more).dropLast.foldl (addSegment true) []).reverse) = _
    rw [hfold, List.reverse_reverse]

theorem ofNames_injective {ms : List String} (hns : ∀ n ∈ ns, IsName n) (hms : ∀ m ∈ ms, IsName m)
    (h : ofNames true ns = ofNames true ms) : ns = ms := by
  have hback : names (ofNames true ns) = ns := names_ofNames (.of_isName hns)
  rw [← hback, h, names_ofNames (.of_isName hms)]

theorem exists_absolute_eq (here : List String) (path : String) :
    ∃ ns, (∀ n ∈ ns, IsName n) ∧ absolute (ofNames true here) path = ofNames true ns := by
  have hclean {path : String} (h : isAbsolute path = true) :
      ∃ ns, (∀ n ∈ ns, IsName n) ∧ clean path = ofNames true ns := by
    refine ⟨names path, fun n hn => isName_of_mem_names h hn, ?_⟩
    rw [clean, h]
  unfold absolute
  split
  · next h => exact hclean h
  · have hjoin : join [ofNames true here, path] = clean (ofNames true here ++ "/" ++ path) := by
      simp [join, ofNames, String.intercalate_cons_cons]
    rw [hjoin]
    apply hclean
    simp [isAbsolute, ofNames]

end FromRoot

end TreeWalk.Path
