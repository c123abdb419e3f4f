import TreeWalk.Scope.Store

/-!
# Chains of scopes

Every scope is made after the scope around it, so the chain from a scope outward is finite and
what the scope sees is read off that chain alone. A copy of a chain consists of new scopes and
sees what the original saw.
-/

namespace TreeWalk

namespace Store

def size (s : Store) : Nat := s.scopes.size

def scope? (s : Store) (id : ScopeId) : Option Scope := s.scopes[id]?

theorem scope?_isSome {s : Store} {id : Nat} (h : id < s.size) : ∃ scope, s.scope? id = some scope :=
  ⟨s.scopes[id], Array.getElem?_eq_getElem h⟩

theorem lt_size {s : Store} {id : Nat} {scope : Scope} (h : s.scope? id = some scope) :
    id < s.size := (Array.getElem?_eq_some_iff.mp h).1

@[simp] theorem parent?_eq (s : Store) (id : ScopeId) : s.parent? id = (s.scope? id).bind Scope.parent := rfl

@[simp] theorem size_alloc (s : Store) (scope : Scope) : (s.alloc scope).2.size = s.size + 1 :=
  Array.size_push scope

theorem scope?_alloc (s : Store) (scope : Scope) (id : ScopeId) :
    (s.alloc scope).2.scope? id = if id = s.size then some scope else s.scope? id :=
  Array.getElem?_push

@[simp] theorem size_define (s : Store) (g : ScopeId) (name : String) (v : Value) :
    (s.define g name v).size = s.size := Array.size_modify

theorem scope?_define (s : Store) (g : ScopeId) (name : String) (v : Value) (id : ScopeId) :
    (s.define g name v).scope? id =
      if g = id then (s.scope? id).map fun scope => { scope with bindings := (name, v) :: scope.bindings }
      else s.scope? id := Array.getElem?_modify

/-- Every scope is newer than the scope around it. -/
def Ordered (s : Store) : Prop :=
  ∀ (id : Nat) (scope : Scope) (parent : Nat),
    s.scope? id = some scope → scope.parent = some parent → parent < id

theorem Ordered.alloc {s : Store} (hs : s.Ordered) {scope : Scope}
    (hp : ∀ parent : Nat, scope.parent = some parent → parent < s.size) : (s.alloc scope).2.Ordered := by
  intro id found parent hid hparent
  rw [scope?_alloc] at hid
  split at hid
  · next h =>
    cases hid
    exact h ▸ hp parent hparent
  · exact hs id found parent hid hparent

theorem Ordered.define {s : Store} (hs : s.Ordered) (g : ScopeId) (name : String) (v : Value) :
    (s.define g name v).Ordered := by
  intro id found parent hid hparent
  rw [scope?_define] at hid
  split at hid
  · obtain ⟨old, hold, rfl⟩ := Option.map_eq_some_iff.mp hid
    exact hs id old parent hold hparent
  · exact hs id found parent hid hparent

/-- The scopes of a chain: a scope and the scopes around it. -/
inductive Sees (s : Store) : ScopeId → ScopeId → Prop
  | self (id : ScopeId) : Sees s id id
  | outward {id parent g : ScopeId} (h : s.parent? id = some parent) : Sees s parent g → Sees s id g

theorem Sees.le {s : Store} (hs : s.Ordered) {id g : Nat} (h : s.Sees id g) : g ≤ id := by
  induction h with
  | self id => exact Nat.le_refl id
  | outward hparent _ ih =>
    obtain ⟨scope, hscope, hp⟩ := Option.bind_eq_some_iff.mp hparent
    exact Nat.le_trans ih (Nat.le_of_lt (hs _ scope _ hscope hp))

/-- What is seen from a place that may be outside all scopes. -/
def around (s : Store) (id? : Option ScopeId) : Env := s.envFrom s.size id?

@[simp] theorem around_none (s : Store) : s.around none = [] := by
  unfold around
  cases s.size <;> rfl

theorem around_some (s : Store) (id : ScopeId) : s.around (some id) = s.env id := rfl

theorem envFrom_succ (s : Store) (fuel : Nat) (id : ScopeId) :
    s.envFrom (fuel + 1) (some id) =
      match s.scope? id with
      | some scope => scope.bindings :: s.envFrom fuel scope.parent
      | none => [] := rfl

private theorem envFrom_none (s : Store) (fuel : Nat) : s.envFrom fuel none = [] := by
  cases fuel <;> rfl

/-- A chain is no longer than the number of its first scope says. -/
theorem envFrom_stable {s : Store} (hs : s.Ordered) (id : Nat) :
    ∀ fuel fuel', id < fuel → id < fuel' → s.envFrom fuel (some id) = s.envFrom fuel' (some id) := by
  induction id using Nat.strongRecOn with
  | _ id ih =>
    intro fuel fuel' hf hf'
    obtain ⟨n, rfl⟩ := Nat.exists_eq_succ_of_ne_zero (Nat.ne_of_gt (Nat.zero_lt_of_lt hf))
    obtain ⟨n', rfl⟩ := Nat.exists_eq_succ_of_ne_zero (Nat.ne_of_gt (Nat.zero_lt_of_lt hf'))
    rw [envFrom_succ, envFrom_succ]
    cases hscope : s.scope? id with
    | none => rfl
    | some scope =>
      cases hparent : scope.parent with
      | none => simp only [hparent, envFrom_none]
      | some parent =>
        have hlt := hs id scope parent hscope hparent
        simp only [hparent]
        rw [ih parent hlt n n' (by omega) (by omega)]

theorem env_of_scope? {s : Store} (hs : s.Ordered) {id : Nat} {scope : Scope}
    (h : s.scope? id = some scope) : s.env id = scope.bindings :: s.around scope.parent := by
  have hid := lt_size h
  obtain ⟨n, hn⟩ := Nat.exists_eq_succ_of_ne_zero (Nat.ne_of_gt (Nat.zero_lt_of_lt hid))
  have hsize : s.scopes.size = n + 1 := hn
  unfold env around
  rw [hsize, envFrom_succ, h, hn]
  cases hparent : scope.parent with
  | none => simp only [hparent, envFrom_none]
  | some parent =>
    have hlt := hs id scope parent h hparent
    simp only [hparent]
    rw [envFrom_stable hs parent n (n + 1) (by omega) (by omega)]

theorem env_of_not_lt {s : Store} {id : ScopeId} (h : s.scope? id = none) : s.env id = [] := by
  unfold env
  cases s.scopes.size with
  | zero => rfl
  | succ n => rw [envFrom_succ, h]

theorem mem_env_iff {s : Store} (hs : s.Ordered) {id : Nat} {bindings : Bindings} :
    bindings ∈ s.env id ↔ ∃ g scope, s.Sees id g ∧ s.scope? g = some scope ∧ scope.bindings = bindings := by
  constructor
  · intro h
    induction id using Nat.strongRecOn with
    | _ id ih =>
      cases hscope : s.scope? id with
      | none =>
        rw [env_of_not_lt hscope] at h
        cases h
      | some scope =>
        rw [env_of_scope? hs hscope] at h
        cases h with
        | head => exact ⟨id, scope, .self id, hscope, rfl⟩
        | tail _ houter =>
          cases hparent : scope.parent with
          | none =>
            rw [hparent, around_none] at houter
            cases houter
          | some parent =>
            rw [hparent, around_some] at houter
            obtain ⟨g, found, hg, hfound⟩ := ih parent (hs id scope parent hscope hparent) houter
            exact ⟨g, found, .outward (by simp [hscope, hparent]) hg, hfound⟩
  · rintro ⟨g, scope, hg, hscope, rfl⟩
    induction hg with
    | self id =>
      rw [env_of_scope? hs hscope]
      exact List.mem_cons_self
    | @outward id parent g hparent _ ih =>
      obtain ⟨first, hfirst, hp⟩ := Option.bind_eq_some_iff.mp hparent
      rw [env_of_scope? hs hfirst, hp]
      exact List.mem_cons_of_mem _ (ih hscope)

theorem env_congr {s s' : Store} (hs : s.Ordered) (hs' : s'.Ordered) (id : Nat)
    (h : ∀ g, s.Sees id g → s'.scope? g = s.scope? g) : s'.env id = s.env id := by
  induction id using Nat.strongRecOn with
  | _ id ih =>
    have hself := h id (.self id)
    cases hscope : s.scope? id with
    | none => rw [env_of_not_lt hscope, env_of_not_lt (hself.trans hscope)]
    | some scope =>
      rw [env_of_scope? hs hscope, env_of_scope? hs' (hself.trans hscope)]
      cases hparent : scope.parent with
      | none => simp only [around_none]
      | some parent =>
        have hstep : s.parent? id = some parent := by simp [hscope, hparent]
        have hlt := hs id scope parent hscope hparent
        rw [around_some, around_some, ih parent hlt fun g hg => h g (.outward hstep hg)]

theorem Sees.trans {s : Store} {id g k : ScopeId} (hg : s.Sees id g) (hk : s.Sees g k) : s.Sees id k := by
  induction hg with
  | self _ => exact hk
  | outward hparent _ ih => exact .outward hparent (ih hk)

theorem Sees.of_parents {s s' : Store} {id g : ScopeId} (hg : s'.Sees id g)
    (h : ∀ k, s.Sees id k → s'.parent? k = s.parent? k) : s.Sees id g := by
  induction hg with
  | self id => exact .self id
  | @outward id parent g hparent _ ih =>
    have hstep : s.parent? id = some parent := by rw [← hparent, h id (.self id)]
    exact .outward hstep (ih fun k hk => h k (.outward hstep hk))

theorem Sees.congr {s s' : Store} {id g : ScopeId} (hg : s'.Sees id g)
    (h : ∀ k, s.Sees id k → s'.scope? k = s.scope? k) : s.Sees id g :=
  hg.of_parents fun k hk => by rw [parent?_eq, parent?_eq, h k hk]

theorem Sees.of_define {s : Store} {k : ScopeId} {name : String} {v : Value} {id g : ScopeId}
    (hg : (s.define k name v).Sees id g) : s.Sees id g := by
  refine hg.of_parents fun id _ => ?_
  rw [parent?_eq, parent?_eq, scope?_define]
  split
  · rw [Option.bind_map]
    rfl
  · rfl

/-- The scopes of `s` are in `s'` as they were. -/
structure Adds (s s' : Store) : Prop where
  size_le : s.size ≤ s'.size
  scope?_eq : ∀ id : Nat, id < s.size → s'.scope? id = s.scope? id

theorem Adds.refl (s : Store) : s.Adds s := ⟨Nat.le_refl _, fun _ _ => rfl⟩

theorem Adds.trans {a b c : Store} (hab : a.Adds b) (hbc : b.Adds c) : a.Adds c := by
  refine ⟨Nat.le_trans hab.size_le hbc.size_le, fun id hid => ?_⟩
  rw [hbc.scope?_eq id (Nat.lt_of_lt_of_le hid hab.size_le), hab.scope?_eq id hid]

theorem alloc_adds (s : Store) (scope : Scope) : s.Adds (s.alloc scope).2 := by
  refine ⟨by rw [size_alloc]; omega, fun id hid => ?_⟩
  rw [scope?_alloc, if_neg (Nat.ne_of_lt hid)]

theorem plant_adds (s : Store) (env : Env) : s.Adds (s.plant env).2 := by
  induction env with
  | nil => exact .refl s
  | cons bindings outer ih => exact ih.trans (alloc_adds _ _)

theorem capture_eq (s : Store) (id : ScopeId) :
    s.capture id = (s.plant (s.env id).tail).2.alloc
      ⟨(s.env id).headD [], (s.plant (s.env id).tail).1⟩ := rfl

theorem capture_adds (s : Store) (id : ScopeId) : s.Adds (s.capture id).2 :=
  (plant_adds s _).trans (alloc_adds _ _)

theorem size_le_capture (s : Store) (id : ScopeId) : s.size ≤ (s.capture id).1 := (plant_adds s _).size_le

theorem capture_lt_size (s : Store) (id : ScopeId) : (s.capture id).1 < (s.capture id).2.size := by
  rw [capture_eq, size_alloc]
  exact Nat.lt_succ_self _

theorem child_adds (s : Store) (parent : Option ScopeId) : s.Adds (s.child parent).2 := alloc_adds _ _

theorem extend_adds (s : Store) (id : ScopeId) : s.Adds (s.extend id).2 :=
  (capture_adds s id).trans (child_adds _ _)

theorem Adds.env_eq {s s' : Store} (h : s.Adds s') (hs : s.Ordered) (hs' : s'.Ordered) {id : Nat}
    (hid : id < s.size) : s'.env id = s.env id :=
  env_congr hs hs' id fun g hg => h.scope?_eq g (Nat.lt_of_le_of_lt (hg.le hs) hid)

theorem Adds.sees {s s' : Store} (h : s.Adds s') (hs : s.Ordered) {id g : Nat} (hid : id < s.size)
    (hg : s'.Sees id g) : s.Sees id g :=
  hg.congr fun k hk => h.scope?_eq k (Nat.lt_of_le_of_lt (hk.le hs) hid)

/-- A chain of new scopes, from `id?` outward, was added to `s`; it sees `env`. -/
structure Planted (s : Store) (id? : Option ScopeId) (s' : Store) (env : Env) : Prop where
  adds : s.Adds s'
  ordered : s'.Ordered
  lt_size : ∀ id : Nat, id? = some id → id < s'.size
  fresh : ∀ id g : Nat, id? = some id → s'.Sees id g → s.size ≤ g
  bindings_mem : ∀ (g : Nat) (scope : Scope), s.size ≤ g → s'.scope? g = some scope → scope.bindings ∈ env
  around_eq : s'.around id? = env

theorem Planted.alloc {s s' : Store} {parent : Option ScopeId} {env : Env} (h : s.Planted parent s' env)
    (bindings : Bindings) :
    s.Planted (some s'.size) (s'.alloc ⟨bindings, parent⟩).2 (bindings :: env) := by
  have hadds := alloc_adds s' ⟨bindings, parent⟩
  have hordered : (s'.alloc ⟨bindings, parent⟩).2.Ordered := h.ordered.alloc h.lt_size
  have hnew : (s'.alloc ⟨bindings, parent⟩).2.scope? s'.size = some ⟨bindings, parent⟩ := by
    rw [scope?_alloc, if_pos rfl]
  refine ⟨h.adds.trans hadds, hordered, ?_, ?_, ?_, ?_⟩
  · rintro id ⟨⟩
    rw [size_alloc]
    omega
  · rintro id g ⟨⟩ hg
    cases hg with
    | self => exact h.adds.size_le
    | outward hp hg =>
      rw [parent?_eq, hnew] at hp
      exact h.fresh _ _ hp (hadds.sees h.ordered (h.lt_size _ hp) hg)
  · intro g scope hg hscope
    rw [scope?_alloc] at hscope
    split at hscope
    · cases hscope
      exact List.mem_cons_self
    · exact List.mem_cons_of_mem _ (h.bindings_mem g scope hg hscope)
  · rw [around_some, env_of_scope? hordered hnew, ← h.around_eq]
    cases parent with
    | none => simp only [around_none]
    | some p => rw [around_some, around_some, hadds.env_eq h.ordered hordered (h.lt_size p rfl)]

theorem plant_planted {s : Store} (hs : s.Ordered) (env : Env) :
    s.Planted (s.plant env).1 (s.plant env).2 env := by
  induction env with
  | nil =>
    refine ⟨.refl s, hs, by rintro id ⟨⟩, by rintro id g ⟨⟩, ?_, around_none s⟩
    intro g scope hg hscope
    exact absurd (Store.lt_size hscope) (Nat.not_lt.mpr hg)
  | cons bindings outer ih => exact ih.alloc bindings

theorem capture_planted {s : Store} (hs : s.Ordered) {id : Nat} (hid : id < s.size) :
    s.Planted (some (s.capture id).1) (s.capture id).2 (s.env id) := by
  obtain ⟨scope, hscope⟩ := scope?_isSome hid
  have henv := env_of_scope? hs hscope
  have h := (plant_planted hs (s.env id).tail).alloc ((s.env id).headD [])
  rw [henv] at h
  rw [capture_eq, henv]
  exact h

theorem extend_planted {s : Store} (hs : s.Ordered) {id : Nat} (hid : id < s.size) :
    s.Planted (some (s.extend id).1) (s.extend id).2 ([] :: s.env id) :=
  (capture_planted hs hid).alloc []

theorem Ordered.capture {s : Store} (hs : s.Ordered) (id : ScopeId) : (s.capture id).2.Ordered :=
  ((plant_planted hs (s.env id).tail).alloc _).ordered

theorem Ordered.child {s : Store} (hs : s.Ordered) {parent : Option ScopeId}
    (hp : ∀ id : Nat, parent = some id → id < s.size) : (s.child parent).2.Ordered := hs.alloc hp

theorem Ordered.extend {s : Store} (hs : s.Ordered) (id : ScopeId) : (s.extend id).2.Ordered := by
  refine (hs.capture id).child fun g hg => ?_
  cases hg
  exact capture_lt_size s id

end Store

end TreeWalk
