import Mathlib.Data.List.Lookmap
import Mathlib.Data.List.Nodup
import TreeWalk.Eval.Interpreter
import TreeWalk.Proofs.Scope.Chain
import TreeWalk.Proofs.Text.Order

/-!
# The views of a scope

A scope is looked at in several ways, and all of them show the same bindings: the innermost scope of the chain that has
a name decides, and in it the newest binding. To bind a name adds one binding to one scope. It shows from that scope and
from those inside it, unless a scope on the way has the name.
-/

namespace TreeWalk

structure Views where
  lookup : String → Option Value
  get : String → Except String Value
  keys : List String
  bindings : Bindings
  depth : Nat

def Env.views (env : Env) : Views := ⟨env.lookup?, env.get, env.keys, env.bindings, env.depth⟩

namespace Env

variable {env : Env} {name : String} {v : Value}

theorem lookup?_eq (env : Env) (name : String) : env.lookup? name = env.flatten.lookup name := by
  induction env with
  | nil => rfl
  | cons scope outer ih =>
    rw [List.flatten_cons, List.lookup_append, ← ih, lookup?, List.findSome?_cons]
    cases scope.lookup name <;> rfl

theorem lookup?_append (inner outer : Env) (name : String) :
    lookup? (inner ++ outer) name = (lookup? inner name).or (lookup? outer name) := List.findSome?_append

theorem lookup?_isSome_iff : (env.lookup? name).isSome ↔ ∃ scope ∈ env, name ∈ scope.map Prod.fst := by
  rw [lookup?_eq, List.lookup_isSome_iff]
  simp only [List.mem_flatten, beq_iff_eq, List.mem_map]
  constructor
  · rintro ⟨p, ⟨scope, hscope, hp⟩, rfl⟩
    exact ⟨scope, hscope, p, hp, rfl⟩
  · rintro ⟨scope, hscope, p, hp, rfl⟩
    exact ⟨p, ⟨scope, hscope, hp⟩, rfl⟩

theorem mem_firstBindings {bindings : Bindings} :
    (name, v) ∈ firstBindings bindings ↔ bindings.lookup name = some v := by
  induction bindings with
  | nil => simp [firstBindings]
  | cons p rest ih =>
    obtain ⟨n, w⟩ := p
    by_cases h : name = n
    · simp [firstBindings, h, eq_comm]
    · simp [firstBindings, h, ih, List.lookup_cons, beq_false_of_ne h]

theorem nodup_firstBindings (bindings : Bindings) : ((firstBindings bindings).map Prod.fst).Nodup := by
  induction bindings with
  | nil => simp [firstBindings]
  | cons p rest ih =>
    rw [firstBindings, List.map_cons, List.nodup_cons]
    constructor
    · simp
    · exact ih.sublist (List.filter_sublist.map Prod.fst)

theorem mem_bindings : (name, v) ∈ env.bindings ↔ env.lookup? name = some v := by
  rw [bindings, mem_firstBindings, lookup?_eq]

theorem mem_keys_cons {scope : Bindings} {outer : Env} : name ∈ keys (scope :: outer) ↔ name ∈ scope.map Prod.fst := by
  rw [keys, List.mem_mergeSort, List.mem_eraseDups, List.headD_cons]

theorem nodup_eraseDups (names : List String) : names.eraseDups.Nodup := by
  induction hlength : names.length using Nat.strongRecOn generalizing names with
  | _ length ih =>
    cases names with
    | nil => simp
    | cons n names =>
      have hshorter : (names.filter fun m => !m == n).length < length := by
        rw [← hlength, List.length_cons]
        exact Nat.lt_succ_of_le (List.length_filter_le _ _)
      rw [List.eraseDups_cons, List.nodup_cons]
      constructor
      · simp
      · exact ih _ hshorter _ rfl

theorem pairwise_keys (env : Env) : env.keys.Pairwise (Text.bytes · < Text.bytes ·) := by
  have hkeys : env.keys = ((env.headD []).map Prod.fst).eraseDups.mergeSort fun a b => a ≤ b := by
    rw [keys]
    congr 1
    funext a b
    rw [Bool.eq_iff_iff, Bool.not_eq_true', decide_eq_false_iff_not, decide_eq_true_iff, not_lt]
  rw [hkeys]
  exact Text.pairwise_mergeSort (nodup_eraseDups _)

theorem views_cons_nil {scope : Bindings} {outer : Env} : views ([] :: scope :: outer) =
    { views (scope :: outer) with keys := [], depth := depth (scope :: outer) + 1 } := by
  have hlookup : lookup? ([] :: scope :: outer) = lookup? (scope :: outer) := by
    funext name
    rw [lookup?_eq, lookup?_eq, List.flatten_cons, List.nil_append]
  have hget : get ([] :: scope :: outer) = get (scope :: outer) := by
    funext name
    rw [get, get, hlookup]
  have hkeys : keys ([] :: scope :: outer) = [] := by simp [keys]
  rw [views, hlookup, hget, hkeys]
  rfl

end Env

namespace Store

variable {s : Store} {g h : Nat} {name : String}

theorem mem_keys_iff (hs : s.Ordered) : name ∈ (s.env g).keys ↔
    ∃ scope, s.scope? g = some scope ∧ name ∈ scope.bindings.map Prod.fst := by
  cases hscope : s.scope? g with
  | none => simp [env_of_not_lt hscope, Env.keys]
  | some scope => simp [env_of_scope? hs hscope, Env.mem_keys_cons]

theorem mem_names_bindings_iff (hs : s.Ordered) :
    name ∈ (s.env g).bindings.map Prod.fst ↔ ∃ k, s.Sees g k ∧ name ∈ (s.env k).keys := by
  have hlookup : name ∈ (s.env g).bindings.map Prod.fst ↔ ((s.env g).lookup? name).isSome := by
    simp [Option.isSome_iff_exists, ← Env.mem_bindings]
  rw [hlookup, Env.lookup?_isSome_iff]
  simp only [mem_keys_iff hs, mem_env_iff hs]
  constructor
  · rintro ⟨_, ⟨k, scope, hk, hscope, rfl⟩, hname⟩
    exact ⟨k, hk, scope, hscope, hname⟩
  · rintro ⟨k, hk, scope, hscope, hname⟩
    exact ⟨scope.bindings, ⟨k, scope, hk, hscope, rfl⟩, hname⟩

/-- A scope of the chain from `g` to `h`, other than `h`, has the name. -/
def Hides (s : Store) (g h : ScopeId) (name : String) : Prop :=
  ∃ k, s.Sees g k ∧ s.Sees k h ∧ k ≠ h ∧ name ∈ (s.env k).keys

theorem not_hides_self (hs : s.Ordered) : ¬s.Hides h h name := by
  rintro ⟨k, hk, hk', hne, -⟩
  exact hne (Nat.le_antisymm (hk.le hs) (hk'.le hs))

theorem hides_outward_iff (hs : s.Ordered) {scope : Scope} {parent : Nat} (hscope : s.scope? g = some scope)
    (hparent : scope.parent = some parent) (hsees : s.Sees parent h) :
    s.Hides g h name ↔ name ∈ scope.bindings.map Prod.fst ∨ s.Hides parent h name := by
  have hstep : s.parent? g = some parent := by simp [hscope, hparent]
  constructor
  · rintro ⟨k, hk, hkh, hne, hname⟩
    cases hk with
    | self =>
      obtain ⟨found, hfound, hname⟩ := (mem_keys_iff hs).mp hname
      rw [hscope] at hfound
      exact .inl (Option.some.inj hfound ▸ hname)
    | outward hstep' hk =>
      rw [hstep] at hstep'
      exact .inr ⟨k, Option.some.inj hstep' ▸ hk, hkh, hne, hname⟩
  · rintro (hname | ⟨k, hk, hkh, hne, hname⟩)
    · have hlt : parent < g := hs g scope parent hscope hparent
      have hne : g ≠ h := Nat.ne_of_gt (Nat.lt_of_le_of_lt (hsees.le hs) hlt)
      exact ⟨g, .self g, .outward hstep hsees, hne, (mem_keys_iff hs).mpr ⟨scope, hscope, hname⟩⟩
    · exact ⟨k, .outward hstep hk, hkh, hne, hname⟩

theorem env_define_of_not_sees (hs : s.Ordered) (hsees : ¬s.Sees g h) (name : String) (v : Value) :
    (s.define h name v).env g = s.env g := by
  apply env_congr hs (hs.define h name v)
  intro k hk
  have hne : h ≠ k := fun heq => hsees (heq ▸ hk)
  rw [scope?_define, if_neg hne]

theorem env_define_self (hs : s.Ordered) {scope : Scope} (hscope : s.scope? h = some scope) (name : String)
    (v : Value) : (s.define h name v).env h = ((name, v) :: scope.bindings) :: s.around scope.parent := by
  have hnew : (s.define h name v).scope? h = some { scope with bindings := (name, v) :: scope.bindings } := by
    rw [scope?_define, if_pos rfl, hscope]
    rfl
  have hparent (parent : Nat) (hp : scope.parent = some parent) : (s.define h name v).env parent = s.env parent := by
    apply env_define_of_not_sees hs
    intro hsees
    exact absurd (hsees.le hs) (Nat.not_le.mpr (hs h scope parent hscope hp))
  rw [env_of_scope? (hs.define h name v) hnew]
  cases hp : scope.parent with
  | none => simp only [around_none]
  | some parent => rw [around_some, around_some, hparent parent hp]

/-- What a scope sees falls into what the scopes nearer than `h` bind, which no binding in `h` changes, and what `h`
sees. -/
theorem Sees.exists_inner (hs : s.Ordered) (hsees : s.Sees g h) : ∃ inner : Env, s.env g = inner ++ s.env h ∧
    (∀ name v, (s.define h name v).env g = inner ++ (s.define h name v).env h) ∧
    ∀ name, (inner.lookup? name).isSome ↔ s.Hides g h name := by
  induction hsees with
  | self h => exact ⟨[], rfl, fun _ _ => rfl, fun name => by simpa [Env.lookup?] using not_hides_self hs⟩
  | @outward g parent h hstep hsees ih =>
    obtain ⟨inner, henv, hdefine, hhides⟩ := ih
    obtain ⟨scope, hscope, hparent⟩ := Option.bind_eq_some_iff.mp hstep
    have hlt : parent < g := hs g scope parent hscope hparent
    have hne : h ≠ g := Nat.ne_of_lt (Nat.lt_of_le_of_lt (hsees.le hs) hlt)
    refine ⟨scope.bindings :: inner, ?_, fun name v => ?_, fun name => ?_⟩
    · rw [env_of_scope? hs hscope, hparent, around_some, henv, List.cons_append]
    · have hscope' : (s.define h name v).scope? g = some scope := by
        rw [scope?_define, if_neg hne]
        exact hscope
      rw [env_of_scope? (hs.define h name v) hscope', hparent, around_some, hdefine, List.cons_append]
    · rw [hides_outward_iff hs hscope hparent hsees, ← hhides, Env.lookup?_isSome_iff, Env.lookup?_isSome_iff]
      simp

theorem lookup?_define_of_ne (hs : s.Ordered) (h : Nat) {name x : String} (hx : x ≠ name) (v : Value) (g : Nat) :
    ((s.define h name v).env g).lookup? x = (s.env g).lookup? x := by
  by_cases hsees : s.Sees g h
  · obtain ⟨inner, henv, hdefine, -⟩ := hsees.exists_inner hs
    rw [henv, hdefine, Env.lookup?_append, Env.lookup?_append]
    congr 1
    cases hscope : s.scope? h with
    | none =>
      have hnone : (s.define h name v).scope? h = none := by simp [scope?_define, hscope]
      rw [env_of_not_lt hscope, env_of_not_lt hnone]
    | some scope =>
      rw [env_define_self hs hscope, env_of_scope? hs hscope, Env.lookup?_eq, Env.lookup?_eq, List.flatten_cons,
        List.flatten_cons, List.cons_append, List.lookup_cons, beq_false_of_ne hx]
  · rw [env_define_of_not_sees hs hsees]

theorem lookup?_define_of_sees (hs : s.Ordered) (hh : h < s.size) (hsees : s.Sees g h) (name : String) (v : Value) :
    (¬s.Hides g h name → ((s.define h name v).env g).lookup? name = some v) ∧
    (s.Hides g h name → ((s.define h name v).env g).lookup? name = (s.env g).lookup? name) := by
  obtain ⟨inner, henv, hdefine, hhides⟩ := hsees.exists_inner hs
  obtain ⟨scope, hscope⟩ := scope?_isSome hh
  rw [henv, hdefine, Env.lookup?_append, Env.lookup?_append, ← hhides, env_define_self hs hscope]
  cases hinner : inner.lookup? name with
  | none =>
    have hshown : Env.lookup? (((name, v) :: scope.bindings) :: s.around scope.parent) name = some v := by
      simp [Env.lookup?_eq]
    simp [hshown]
  | some w => simp

/-- The views of a scope show the same bindings. -/
structure Coherent (s : Store) (g : ScopeId) : Prop where
  mem_bindings : ∀ name v, (name, v) ∈ (s.env g).bindings ↔ (s.env g).lookup? name = some v
  get_ok : ∀ name v, (s.env g).get name = .ok v ↔ (s.env g).lookup? name = some v
  get_error : ∀ name e, (s.env g).get name = .error e ↔
    (s.env g).lookup? name = none ∧ e = Interpreter.undefinedText name
  nodup : ((s.env g).bindings.map Prod.fst).Nodup
  mem_names : ∀ name, name ∈ (s.env g).bindings.map Prod.fst ↔ ∃ k, s.Sees g k ∧ name ∈ (s.env k).keys
  increasing : (s.env g).keys.Pairwise (Text.bytes · < Text.bytes ·)

theorem coherent (hs : s.Ordered) (g : ScopeId) : s.Coherent g where
  mem_bindings _ _ := Env.mem_bindings
  get_ok name v := by
    rw [Env.get]
    cases (s.env g).lookup? name <;> simp
  get_error name e := by
    rw [Env.get]
    cases (s.env g).lookup? name <;> simp [eq_comm]
  nodup := Env.nodup_firstBindings _
  mem_names _ := mem_names_bindings_iff hs
  increasing := Env.pairwise_keys _

/-- The views of every scope agree. A binding shows in its scope and in those inside it, unless it is hidden there, and
in no other. A copy of a scope has the views of the scope, and a new scope inside a copy differs in its own names and
its depth only. -/
theorem views_agree (hs : s.Ordered) :
    (∀ g : Nat, g < s.size → s.Coherent g) ∧
    (∀ h g : Nat, h < s.size → g < s.size → ∀ name v,
      (s.Sees g h →
        (∀ x, x ≠ name → ((s.define h name v).env g).lookup? x = (s.env g).lookup? x) ∧
        (¬s.Hides g h name → ((s.define h name v).env g).lookup? name = some v) ∧
        (s.Hides g h name → ((s.define h name v).env g).lookup? name = (s.env g).lookup? name)) ∧
      (¬s.Sees g h → ((s.define h name v).env g).views = (s.env g).views)) ∧
    (∀ g : Nat, g < s.size →
      ((s.capture g).2.env (s.capture g).1).views = (s.env g).views ∧
      ∀ k : Nat, k < s.size → ((s.capture g).2.env k).views = (s.env k).views) ∧
    ∀ g : Nat, g < s.size →
      ((s.extend g).2.env (s.extend g).1).views =
        { (s.env g).views with keys := [], depth := (s.env g).depth + 1 } ∧
      ∀ k : Nat, k < s.size → ((s.extend g).2.env k).views = (s.env k).views := by
  refine ⟨fun g _ => coherent hs g, fun h g hh _ name v => ⟨fun hsees => ?_, fun hsees => ?_⟩, ?_, ?_⟩
  · exact ⟨fun x hx => lookup?_define_of_ne hs h hx v g, lookup?_define_of_sees hs hh hsees name v⟩
  · rw [env_define_of_not_sees hs hsees]
  · intro g hg
    have hcopy := capture_planted hs hg
    have henv : (s.capture g).2.env (s.capture g).1 = s.env g := hcopy.around_eq
    refine ⟨by rw [henv], fun k hk => ?_⟩
    rw [hcopy.adds.env_eq hs hcopy.ordered hk]
  · intro g hg
    have hcopy := extend_planted hs hg
    have henv : (s.extend g).2.env (s.extend g).1 = [] :: s.env g := hcopy.around_eq
    obtain ⟨scope, hscope⟩ := scope?_isSome hg
    refine ⟨?_, fun k hk => ?_⟩
    · rw [henv, env_of_scope? hs hscope, Env.views_cons_nil]
    · rw [hcopy.adds.env_eq hs hcopy.ordered hk]

def siblings : Store := (((empty.child none).2.child (some 0)).2.child (some 0)).2.define 2 "x" (.int 2)

theorem siblings_ordered : siblings.Ordered := by
  have hempty : empty.Ordered := fun _ _ _ hid => absurd (lt_size hid) (Nat.not_lt_zero _)
  have houter : (empty.child none).2.Ordered := hempty.child (by simp)
  have hfirst : ((empty.child none).2.child (some 0)).2.Ordered := houter.child (by rintro id ⟨⟩; decide)
  exact (hfirst.child (by rintro id ⟨⟩; decide)).define 2 "x" (.int 2)

/-- What is bound in the outer scope shows in the first of the two and is hidden in the second. -/
theorem views_agree_siblings : siblings.Ordered ∧ siblings.Coherent 2 ∧
    ((siblings.define 0 "x" (.int 1)).env 1).lookup? "x" = some (.int 1) ∧
    ((siblings.define 0 "x" (.int 1)).env 2).lookup? "x" = (siblings.env 2).lookup? "x" ∧
    ((siblings.define 2 "y" (.int 1)).env 1).views = (siblings.env 1).views ∧
    ((siblings.capture 2).2.env (siblings.capture 2).1).views = (siblings.env 2).views ∧
    ((siblings.extend 2).2.env (siblings.extend 2).1).views =
      { (siblings.env 2).views with keys := [], depth := (siblings.env 2).depth + 1 } := by
  have hs := siblings_ordered
  obtain ⟨hcoherent, hdefine, hcapture, hextend⟩ := views_agree hs
  have hfirst : siblings.scope? 1 = some ⟨[], some 0⟩ := rfl
  have hsecond : siblings.scope? 2 = some ⟨[("x", .int 2)], some 0⟩ := rfl
  have hshown : ¬siblings.Hides 1 0 "x" := by
    rw [hides_outward_iff hs hfirst rfl (.self 0)]
    simpa using not_hides_self hs
  have hhidden : siblings.Hides 2 0 "x" := by
    rw [hides_outward_iff hs hsecond rfl (.self 0)]
    simp
  have hapart : ¬siblings.Sees 1 2 := fun hsees => absurd (hsees.le hs) (by decide)
  exact ⟨hs, hcoherent 2 (by decide),
    ((hdefine 0 1 (by decide) (by decide) "x" _).1 (.outward rfl (.self 0))).2.1 hshown,
    ((hdefine 0 2 (by decide) (by decide) "x" _).1 (.outward rfl (.self 0))).2.2 hhidden,
    (hdefine 2 1 (by decide) (by decide) "y" _).2 hapart, (hcapture 2 (by decide)).1, (hextend 2 (by decide)).1⟩

end Store

end TreeWalk
