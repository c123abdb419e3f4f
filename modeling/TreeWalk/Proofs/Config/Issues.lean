import Mathlib.Logic.Basic
import Mathlib.Tactic.SplitIfs
import TreeWalk.Config.Basic
import TreeWalk.Corpus.Request

/-!
# The faults of a configuration

Checking a configuration reports each of its faults once, in a fixed order: first the depth, then the level, then each
corpus in turn with its name, its URL and its revision. The faults are described here by what they say, without the set
of names that the check carries along.
-/

namespace TreeWalk

/-- The place of an issue in a report. Each corpus has three places. -/
def ConfigIssue.place : ConfigIssue → Nat
  | depthNotPositive _ | depthTooLarge _ | depthNotInteger .. | colorNotBoolean .. => 0
  | unknownLevel _ => 1
  | unnamedCorpus index | repeatedCorpus index _ => 2 + 3 * index
  | corpusWithoutUrl index => 2 + 3 * index + 1
  | corpusWithRevAndTag index => 2 + 3 * index + 2

namespace Config

def IsLevelName (name : String) : Prop :=
  Text.lower (Text.trim name) ∈ ["debug", "info", "warn", "warning", "error"]

structure Valid (c : Config) : Prop where
  depth_pos : 1 ≤ c.maxDepth.toInt
  depth_le : c.maxDepth.toInt ≤ 100000
  level : IsLevelName c.logLevel
  named : ∀ s ∈ c.corpora, s.name ≠ ""
  distinct : (c.corpora.map (·.name)).Nodup
  located : ∀ s ∈ c.corpora, s.url ≠ ""
  pinnedOnce : ∀ s ∈ c.corpora, ¬(s.rev ≠ "" ∧ s.tag ≠ "")

/-- Whether a configuration has the fault that an issue reports. What variables say is no part of a configuration. -/
def Has (c : Config) : ConfigIssue → Prop
  | .depthNotPositive depth => depth = c.maxDepth ∧ depth.toInt < 1
  | .depthTooLarge depth => depth = c.maxDepth ∧ 100000 < depth.toInt
  | .unknownLevel name => name = c.logLevel ∧ ¬IsLevelName name
  | .unnamedCorpus k => ∃ s, c.corpora[k]? = some s ∧ s.name = ""
  | .repeatedCorpus k name => name ≠ "" ∧ (∃ s, c.corpora[k]? = some s ∧ s.name = name) ∧
      ∃ i < k, ∃ s, c.corpora[i]? = some s ∧ s.name = name
  | .corpusWithoutUrl k => ∃ s, c.corpora[k]? = some s ∧ s.url = ""
  | .corpusWithRevAndTag k => ∃ s, c.corpora[k]? = some s ∧ s.rev ≠ "" ∧ s.tag ≠ ""
  | .depthNotInteger .. | .colorNotBoolean .. => False

theorem isNone_ofName?_iff (name : String) : (Log.Level.ofName? name).isNone ↔ ¬IsLevelName name := by
  unfold Log.Level.ofName? IsLevelName
  split <;> simp_all

theorem mem_levelIssues {name : String} {issue : ConfigIssue} :
    issue ∈ levelIssues name ↔ issue = .unknownLevel name ∧ ¬IsLevelName name := by
  unfold levelIssues
  split
  · next h => simp [(isNone_ofName?_iff name).mp h]
  · next h => simp [not_not.mp (mt (isNone_ofName?_iff name).mpr h)]

theorem mem_depthIssues {depth : Int64} {issue : ConfigIssue} :
    issue ∈ depthIssues depth ↔ (issue = .depthNotPositive depth ∧ depth.toInt < 1) ∨
      (issue = .depthTooLarge depth ∧ 100000 < depth.toInt) := by
  have hzero : depth ≤ 0 ↔ depth.toInt < 1 := by
    rw [Int64.le_iff_toInt_le]
    exact Int.lt_add_one_iff.symm
  have hmax : Int64.ofNat TreeWalk.maxDepth < depth ↔ 100000 < depth.toInt := by
    rw [Int64.lt_iff_toInt_lt]
    exact Iff.rfl
  simp only [depthIssues, hzero, hmax]
  split
  · have : ¬100000 < depth.toInt := by omega
    simp_all
  · split <;> simp_all

section Corpora

variable {seen : List String} {index : Nat} {s : CorpusSpec} {corpora : List CorpusSpec} {issue : ConfigIssue}

theorem mem_corpusIssues : issue ∈ corpusIssues seen index s ↔
    (issue = .unnamedCorpus index ∧ s.name = "") ∨
    (issue = .repeatedCorpus index s.name ∧ s.name ≠ "" ∧ s.name ∈ seen) ∨
    (issue = .corpusWithoutUrl index ∧ s.url = "") ∨
    (issue = .corpusWithRevAndTag index ∧ s.rev ≠ "" ∧ s.tag ≠ "") := by
  simp only [corpusIssues, List.mem_append]
  by_cases hname : s.name = ""
  · simp [hname, or_assoc, and_comm]
  · by_cases hseen : s.name ∈ seen <;> simp [hname, hseen, or_assoc, and_comm]

theorem mem_corporaIssues : issue ∈ corporaIssues seen index corpora ↔
    ∃ k s, corpora[k]? = some s ∧
      issue ∈ corpusIssues (((corpora.take k).map (·.name)).reverse ++ seen) (index + k) s := by
  induction corpora generalizing seen index with
  | nil => simp [corporaIssues]
  | cons first rest ih =>
    simp only [corporaIssues, List.mem_append, ih]
    constructor
    · rintro (h | ⟨k, s, hk, h⟩)
      · exact ⟨0, first, rfl, h⟩
      · refine ⟨k + 1, s, hk, ?_⟩
        simpa [Nat.add_assoc, Nat.add_comm 1 k] using h
    · rintro ⟨k, s, hk, h⟩
      cases k with
      | zero =>
        obtain rfl : first = s := by simpa using hk
        exact .inl h
      | succ k =>
        refine .inr ⟨k, s, hk, ?_⟩
        simpa [Nat.add_assoc, Nat.add_comm 1 k] using h

theorem place_of_mem_corpusIssues (h : issue ∈ corpusIssues seen index s) :
    2 + 3 * index ≤ issue.place ∧ issue.place < 2 + 3 * (index + 1) := by
  rcases mem_corpusIssues.mp h with ⟨rfl, -⟩ | ⟨rfl, -⟩ | ⟨rfl, -⟩ | ⟨rfl, -⟩ <;>
    (simp only [ConfigIssue.place]; omega)

theorem le_place_of_mem_corporaIssues (h : issue ∈ corporaIssues seen index corpora) :
    2 + 3 * index ≤ issue.place := by
  obtain ⟨k, s, -, h⟩ := mem_corporaIssues.mp h
  have := (place_of_mem_corpusIssues h).1
  omega

theorem pairwise_corpusIssues : (corpusIssues seen index s).Pairwise (·.place < ·.place) := by
  unfold corpusIssues
  split_ifs <;> simp [ConfigIssue.place]

theorem pairwise_corporaIssues : (corporaIssues seen index corpora).Pairwise (·.place < ·.place) := by
  induction corpora generalizing seen index with
  | nil => exact .nil
  | cons s rest ih =>
    rw [corporaIssues, List.pairwise_append]
    refine ⟨pairwise_corpusIssues, ih, fun a ha b hb => ?_⟩
    have hfirst := (place_of_mem_corpusIssues ha).2
    have hrest := le_place_of_mem_corporaIssues hb
    omega

theorem mem_names_take {name : String} {k : Nat} : name ∈ (corpora.take k).map (·.name) ↔
    ∃ i < k, ∃ s, corpora[i]? = some s ∧ s.name = name := by
  simp only [List.mem_map, List.mem_take_iff_getElem, List.getElem?_eq_some_iff]
  constructor
  · rintro ⟨s, ⟨i, hi, rfl⟩, hname⟩
    exact ⟨i, by omega, _, ⟨by omega, rfl⟩, hname⟩
  · rintro ⟨i, hi, s, ⟨hlen, rfl⟩, hname⟩
    exact ⟨_, ⟨i, by omega, rfl⟩, hname⟩

theorem find?_name (hdistinct : (corpora.map (·.name)).Nodup) (hs : s ∈ corpora) :
    corpora.find? (·.name = s.name) = some s := by
  induction corpora with
  | nil => cases hs
  | cons first rest ih =>
    rw [List.map_cons, List.nodup_cons] at hdistinct
    rcases List.mem_cons.mp hs with rfl | hs
    · simp
    · have hne : first.name ≠ s.name := fun heq => hdistinct.1 (heq ▸ List.mem_map_of_mem hs)
      rw [List.find?_cons_of_neg (by simpa using hne)]
      exact ih hdistinct.2 hs

end Corpora

variable (c : Config)

theorem mem_issues {issue : ConfigIssue} : issue ∈ c.issues ↔ c.Has issue := by
  simp only [issues, List.mem_append, mem_depthIssues, mem_levelIssues, mem_corporaIssues, mem_corpusIssues,
    List.append_nil, List.mem_reverse, mem_names_take, Nat.zero_add]
  cases issue <;> simp only [Has, reduceCtorEq, false_and, and_false, exists_false, false_or, or_false,
    ConfigIssue.depthNotPositive.injEq, ConfigIssue.depthTooLarge.injEq, ConfigIssue.unknownLevel.injEq,
    ConfigIssue.unnamedCorpus.injEq, ConfigIssue.repeatedCorpus.injEq, ConfigIssue.corpusWithoutUrl.injEq,
    ConfigIssue.corpusWithRevAndTag.injEq] <;> grind

theorem pairwise_issues : c.issues.Pairwise (·.place < ·.place) := by
  rw [issues, List.append_assoc, List.pairwise_append, List.pairwise_append]
  refine ⟨?_, ⟨?_, pairwise_corporaIssues, fun a ha b hb => ?_⟩, fun a ha b hb => ?_⟩
  · unfold depthIssues
    split_ifs <;> simp
  · unfold levelIssues
    split_ifs <;> simp
  · have hcorpus := le_place_of_mem_corporaIssues hb
    rw [(mem_levelIssues.mp ha).1, ConfigIssue.place]
    omega
  · have hfirst : a.place = 0 := by
      rcases mem_depthIssues.mp ha with ⟨rfl, -⟩ | ⟨rfl, -⟩ <;> rfl
    rcases List.mem_append.mp hb with hb | hb
    · rw [hfirst, (mem_levelIssues.mp hb).1, ConfigIssue.place]
      omega
    · have := le_place_of_mem_corporaIssues hb
      omega

theorem nodup_names_iff : (c.corpora.map (·.name)).Nodup ↔ ∀ (i k : Nat) (s s' : CorpusSpec), i < k → c.corpora[i]? = some s →
    c.corpora[k]? = some s' → s.name ≠ s'.name := by
  rw [List.nodup_iff_pairwise_ne, List.pairwise_map, List.pairwise_iff_getElem]
  simp only [List.getElem?_eq_some_iff]
  constructor
  · rintro h i k s s' hik ⟨hi, rfl⟩ ⟨hk, rfl⟩
    exact h i k hi hk hik
  · intro h i k hi hk hik
    exact h i k _ _ hik ⟨hi, rfl⟩ ⟨hk, rfl⟩

theorem valid_iff : c.Valid ↔ ∀ issue, ¬c.Has issue := by
  constructor
  · intro hvalid issue hhas
    cases issue with
    | depthNotPositive depth =>
      have := hvalid.depth_pos
      have := hhas.1 ▸ hhas.2
      omega
    | depthTooLarge depth =>
      have := hvalid.depth_le
      have := hhas.1 ▸ hhas.2
      omega
    | unknownLevel name => exact hhas.2 (hhas.1 ▸ hvalid.level)
    | unnamedCorpus k =>
      obtain ⟨s, hs, hname⟩ := hhas
      exact hvalid.named s (List.mem_of_getElem? hs) hname
    | repeatedCorpus k name =>
      obtain ⟨-, ⟨s, hs, rfl⟩, i, hik, s', hs', hname⟩ := hhas
      exact (nodup_names_iff c).mp hvalid.distinct i k s' s hik hs' hs hname
    | corpusWithoutUrl k =>
      obtain ⟨s, hs, hurl⟩ := hhas
      exact hvalid.located s (List.mem_of_getElem? hs) hurl
    | corpusWithRevAndTag k =>
      obtain ⟨s, hs, hboth⟩ := hhas
      exact hvalid.pinnedOnce s (List.mem_of_getElem? hs) hboth
    | depthNotInteger => exact hhas
    | colorNotBoolean => exact hhas
  · intro h
    have hnamed : ∀ s ∈ c.corpora, s.name ≠ "" := by
      intro s hs hname
      obtain ⟨k, hk⟩ := List.mem_iff_getElem?.mp hs
      exact h (.unnamedCorpus k) ⟨s, hk, hname⟩
    constructor
    · exact Int.not_lt.mp fun hlt => h (.depthNotPositive c.maxDepth) ⟨rfl, hlt⟩
    · exact Int.not_lt.mp fun hlt => h (.depthTooLarge c.maxDepth) ⟨rfl, hlt⟩
    · exact not_not.mp fun hlevel => h (.unknownLevel c.logLevel) ⟨rfl, hlevel⟩
    · exact hnamed
    · -- the empty name counts as missing and never as repeated
      refine (nodup_names_iff c).mpr fun i k s s' hik hs hs' hname => ?_
      have hne : s'.name ≠ "" := hnamed s' (List.mem_of_getElem? hs')
      exact h (.repeatedCorpus k s'.name) ⟨hne, ⟨s', hs', rfl⟩, i, hik, s, hs, hname⟩
    · intro s hs hurl
      obtain ⟨k, hk⟩ := List.mem_iff_getElem?.mp hs
      exact h (.corpusWithoutUrl k) ⟨s, hk, hurl⟩
    · intro s hs hboth
      obtain ⟨k, hk⟩ := List.mem_iff_getElem?.mp hs
      exact h (.corpusWithRevAndTag k) ⟨s, hk, hboth⟩

theorem issues_eq_nil_iff : c.issues = [] ↔ c.Valid := by
  rw [valid_iff, List.eq_nil_iff_forall_not_mem]
  simp only [mem_issues]

end Config

theorem CorpusRequest.revision?_ne_none {url rev tag : String} (h : ¬(rev ≠ "" ∧ tag ≠ "")) :
    (⟨url, rev, tag, ""⟩ : CorpusRequest).revision? ≠ none := by
  have hempty : Text.trim "" = "" := rfl
  have hone : ([Text.trim rev, Text.trim tag, Text.trim ""].filter (· ≠ "")).length ≤ 1 := by
    by_cases hrev : rev = ""
    · subst hrev
      simp only [hempty, ne_eq, not_true_eq_false, decide_false, Bool.false_eq_true, not_false_eq_true,
        List.filter_cons_of_neg, List.filter_cons]
      split <;> simp
    · obtain rfl : tag = "" := not_not.mp fun htag => h ⟨hrev, htag⟩
      simp only [hempty, ne_eq, List.filter_cons]
      split <;> simp
  simp only [revision?, Nat.not_lt.mpr hone, if_false]
  split_ifs <;> simp

/-- A configuration is accepted exactly if it is valid. Otherwise every fault is reported, once and in order, and
nothing else is. In an accepted one each corpus is found by its name, and can be requested. -/
theorem Config.issues_report (c : Config) :
    (c.issues = [] ↔ c.Valid) ∧
    (∀ issue, issue ∈ c.issues ↔ c.Has issue) ∧
    c.issues.Pairwise (·.place < ·.place) ∧
    (c.issues = [] → ∀ s ∈ c.corpora, c.findCorpus? s.name = some s ∧
      ∀ url, (⟨url, s.rev, s.tag, ""⟩ : CorpusRequest).revision? ≠ none) := by
  refine ⟨c.issues_eq_nil_iff, fun issue => c.mem_issues, c.pairwise_issues, fun hnil s hs => ?_⟩
  have hvalid := c.issues_eq_nil_iff.mp hnil
  exact ⟨find?_name hvalid.distinct hs, fun url => CorpusRequest.revision?_ne_none (hvalid.pinnedOnce s hs)⟩

theorem Config.issues_report_twoCorpora :
    let first : CorpusSpec := ⟨"a", "https://a.b/c", "", "v1"⟩
    let second : CorpusSpec := ⟨"b", "https://a.b/d", "HEAD~1", ""⟩
    let c : Config := { Config.default with logLevel := " Warning\n", corpora := [first, second] }
    c.issues = [] ∧ c.findCorpus? "b" = some second ∧
      (⟨"https://a.b/d", "HEAD~1", "", ""⟩ : CorpusRequest).revision? ≠ none := by
  intro first second c
  have hnil : c.issues = [] := by decide +kernel
  obtain ⟨hfind, hrequest⟩ := (Config.issues_report c).2.2.2 hnil second (by simp [c])
  exact ⟨hnil, hfind, hrequest _⟩

example : ({ Config.default with maxDepth := 0, logLevel := "loud", corpora := [⟨"", "", "r", "t"⟩, ⟨"", "u", "", ""⟩,
    ⟨"a", "u", "", ""⟩, ⟨"a", "", "", ""⟩] } : Config).issues =
    [.depthNotPositive 0, .unknownLevel "loud", .unnamedCorpus 0, .corpusWithoutUrl 0, .corpusWithRevAndTag 0,
      .unnamedCorpus 1, .repeatedCorpus 3 "a", .corpusWithoutUrl 3] := by
  decide +kernel

end TreeWalk
