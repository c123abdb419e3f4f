import TreeWalk.Eval.Operate
import TreeWalk.Proofs.Reference.Evaluate
import TreeWalk.Proofs.Scope.Ownership

/-!
# Reading values back

A value of a store stands for a value without one: in place of the scope that a closure captured stands what that scope
sees, read back in the same way. For closures that own their chains reading comes to an end before it has met every scope,
and what is read does not change when live scopes do.
-/

namespace TreeWalk

namespace Value

def readWith (f : Closure → Reference.Value) : Value → Reference.Value
  | absent => .absent
  | int n => .int n
  | str s => .str s
  | bool b => .bool b
  | pair a b => .pair (a.readWith f) (b.readWith f)
  | closure c => f c

theorem readWith_congr {f g : Closure → Reference.Value} {v : Value} (h : ∀ c ∈ v.closures, f c = g c) :
    v.readWith f = v.readWith g := by
  induction v with
  | pair a b iha ihb =>
    have ha := iha fun c hc => h c (List.mem_append_left _ hc)
    have hb := ihb fun c hc => h c (List.mem_append_right _ hc)
    rw [readWith, readWith, ha, hb]
  | closure c => exact h c List.mem_cons_self
  | _ => rfl

end Value

namespace Store

variable {s s' : Store} {live : Nat → Prop}

/-- Reads a closure, through at most `fuel` closures bound in the scopes of others. -/
def readClosure (s : Store) : (fuel : Nat) → Closure → Reference.Value
  | 0, c => .closure c.params c.body []
  | fuel + 1, c => .closure c.params c.body
    ((s.env c.scope).map fun bindings => bindings.map fun b => (b.1, b.2.readWith (s.readClosure fuel)))

/-- No more closures than scopes can lie one inside the scope of the other. -/
def read (s : Store) (v : Value) : Reference.Value := v.readWith (s.readClosure s.size)

def readBindings (s : Store) (bindings : Bindings) : Reference.Bindings :=
  bindings.map fun b => (b.1, s.read b.2)

/-- What a scope sees, read back. -/
def contents (s : Store) (id : ScopeId) : Reference.Env := (s.env id).map s.readBindings

theorem read_pair (s : Store) (a b : Value) : s.read (.pair a b) = .pair (s.read a) (s.read b) := rfl

private theorem readClosure_congr {f g : Closure → Reference.Value} {env : Env}
    (h : ∀ bindings ∈ env, ∀ b ∈ bindings, ∀ c ∈ b.2.closures, f c = g c) :
    env.map (fun bindings => bindings.map fun b => (b.1, b.2.readWith f)) =
      env.map fun bindings => bindings.map fun b => (b.1, b.2.readWith g) := by
  refine List.map_congr_left fun bindings hbindings => List.map_congr_left fun b hb => ?_
  rw [Value.readWith_congr (h bindings hbindings b hb)]

theorem readClosure_stable (hs : s.Ordered) {fuel fuel' : Nat} {c : Closure} (hc : s.Owned live c)
    (hf : s.rank c.scope < fuel) (hf' : s.rank c.scope < fuel') : s.readClosure fuel c = s.readClosure fuel' c := by
  induction fuel generalizing fuel' c with
  | zero => exact absurd hf (Nat.not_lt_zero _)
  | succ fuel ih =>
    cases fuel' with
    | zero => exact absurd hf' (Nat.not_lt_zero _)
    | succ fuel' =>
      rw [readClosure, readClosure, readClosure_congr]
      intro bindings hbindings b hb d hd
      obtain ⟨g, hg, hbinds⟩ := binds_of_mem_env hs hbindings hb hd
      -- what the chain of `c` binds ranks lower than `c`, so one step less is enough for it
      have hlower := hc.rank_lt hg hbinds
      exact ih (hc.inner hg hbinds) (Nat.lt_of_lt_of_le hlower (Nat.le_of_lt_succ hf))
        (Nat.lt_of_lt_of_le hlower (Nat.le_of_lt_succ hf'))

theorem read_closure (hs : s.Ordered) {c : Closure} (hc : s.Owned live c) :
    s.read (.closure c) = .closure c.params c.body (s.contents c.scope) := by
  have hmore : s.read (.closure c) = s.readClosure (s.size + 1) c :=
    readClosure_stable hs hc hc.rank_lt_size (Nat.lt_succ_of_lt hc.rank_lt_size)
  rw [hmore]
  rfl

theorem readClosure_touches (hs : s.Ordered) (ht : Touches live s s') (fuel : Nat) {c : Closure}
    (hc : s.Owned live c) : s'.readClosure fuel c = s.readClosure fuel c := by
  induction fuel generalizing c with
  | zero => rfl
  | succ fuel ih =>
    rw [readClosure, readClosure, hc.settled.env_eq hs ht, readClosure_congr]
    exact fun bindings hbindings b hb d hd => ih (hc.ownsAll hs bindings hbindings b hb d hd)

theorem read_touches (hs : s.Ordered) (ht : Touches live s s') {v : Value} (hv : s.Owns live v) :
    s'.read v = s.read v := by
  refine Value.readWith_congr fun c hc => ?_
  have hold : s'.readClosure s.size c = s.readClosure s.size c := readClosure_touches hs ht _ (hv c hc)
  have hnew : s'.readClosure s'.size c = s.readClosure s'.size c := readClosure_touches hs ht _ (hv c hc)
  have hlt := (hv c hc).rank_lt_size
  rw [hnew]
  exact readClosure_stable hs (hv c hc) (Nat.lt_of_lt_of_le hlt ht.size_le) hlt

theorem readBindings_touches (hs : s.Ordered) (ht : Touches live s s') {bindings : Bindings}
    (hb : ∀ b ∈ bindings, s.Owns live b.2) : s'.readBindings bindings = s.readBindings bindings := by
  refine List.map_congr_left fun b hmem => ?_
  rw [read_touches hs ht (hb b hmem)]

theorem contents_touches (hs : s.Ordered) (ht : Touches live s s') {id : Nat} (hid : s.OwnsAll live (s.env id))
    (h : ∀ g, s.Sees id g → s'.scope? g = s.scope? g) : s'.contents id = s.contents id := by
  unfold contents
  rw [env_congr hs ht.ordered id h]
  exact List.map_congr_left fun bindings hbindings => readBindings_touches hs ht (hid bindings hbindings)

theorem Planted.contents_eq {id : Nat} {env : Env} (h : s.Planted (some id) s' env) (hs : s.Ordered)
    (henv : s.OwnsAll live env) : s'.contents id = env.map s.readBindings := by
  have hsees : s'.env id = env := h.around_eq
  rw [contents, hsees]
  exact List.map_congr_left fun bindings hbindings => readBindings_touches hs (h.touches live) (henv bindings hbindings)

theorem contents_of_scope? (hs : s.Ordered) {id : Nat} {scope : Scope} (h : s.scope? id = some scope) :
    s.contents id = s.readBindings scope.bindings :: (s.around scope.parent).map s.readBindings := by
  rw [contents, env_of_scope? hs h, List.map_cons]

theorem tail_contents_touches (hs : s.Ordered) (ht : Touches live s s') {id : Nat} (hid : s.OwnsAll live (s.env id))
    {scope scope' : Scope} (h : s.scope? id = some scope) (h' : s'.scope? id = some scope')
    (hparent : scope'.parent = scope.parent) (hothers : ∀ g : Nat, g < id → s'.scope? g = s.scope? g) :
    (s'.contents id).tail = (s.contents id).tail := by
  rw [env_of_scope? hs h] at hid
  rw [contents_of_scope? hs h, contents_of_scope? ht.ordered h', List.tail_cons, List.tail_cons, hparent]
  cases hp : scope.parent with
  | none => rw [around_none, around_none, List.map_nil, List.map_nil]
  | some parent =>
    have hlt := hs id scope parent h hp
    rw [hp] at hid
    exact contents_touches hs ht (fun bindings hbindings => hid bindings (List.mem_cons_of_mem _ hbindings))
      fun g hg => hothers g (Nat.lt_of_le_of_lt (hg.le hs) hlt)

theorem contents_eq_cons (hs : s.Ordered) {id : Nat} (h : id < s.size) :
    s.contents id = (s.contents id).headD [] :: (s.contents id).tail := by
  obtain ⟨scope, hscope⟩ := scope?_isSome h
  rw [contents_of_scope? hs hscope]
  rfl

/-- To bind a name in a live scope is to bind what is read in what is read. -/
theorem contents_define (hs : s.Ordered) {id : Nat} (hlt : id < s.size) (hid : live id)
    (howns : s.OwnsAll live (s.env id)) (name : String) {v : Value} (hv : s.Owns live v) :
    (s.define id name v).contents id = ((name, s.read v) :: (s.contents id).headD []) :: (s.contents id).tail := by
  obtain ⟨scope, hscope⟩ := scope?_isSome hlt
  have ht := hs.define_touches hid name v
  have hnew : (s.define id name v).scope? id = some ⟨(name, v) :: scope.bindings, scope.parent⟩ := by
    rw [scope?_define, if_pos rfl, hscope]
    rfl
  have htail := tail_contents_touches hs ht howns hscope hnew rfl fun g hg => by
    rw [scope?_define, if_neg (Nat.ne_of_gt hg)]
  have hbindings : (s.define id name v).readBindings scope.bindings = s.readBindings scope.bindings := by
    rw [env_of_scope? hs hscope] at howns
    exact readBindings_touches hs ht (howns _ List.mem_cons_self)
  rw [← htail, contents_of_scope? ht.ordered hnew, contents_of_scope? hs hscope, List.tail_cons,
    List.headD_cons, ← hbindings, ← read_touches hs ht hv]
  rfl

theorem lookup?_contents (s : Store) (env : Env) (name : String) :
    Reference.Env.lookup? (env.map s.readBindings) name = (env.lookup? name).map s.read := by
  have hlookup : ∀ bindings : Bindings,
      (s.readBindings bindings).lookup name = (bindings.lookup name).map s.read := by
    intro bindings
    induction bindings with
    | nil => rfl
    | cons b bindings ih =>
      change List.lookup name ((b.1, s.read b.2) :: s.readBindings bindings) = _
      rw [List.lookup_cons, List.lookup_cons]
      cases name == b.1 with
      | true => rfl
      | false => exact ih
  induction env with
  | nil => rfl
  | cons bindings env ih =>
    unfold Reference.Env.lookup? Env.lookup? at *
    rw [List.map_cons, List.findSome?_cons, List.findSome?_cons, hlookup]
    cases bindings.lookup name with
    | none => exact ih
    | some v => rfl

theorem exists_read_closure (s : Store) (c : Closure) :
    ∃ env, s.read (.closure c) = .closure c.params c.body env := by
  unfold read Value.readWith
  cases s.size with
  | zero => exact ⟨_, rfl⟩
  | succ fuel => exact ⟨_, rfl⟩

theorem kind?_read (s : Store) (v : Value) : (s.read v).kind? = v.kind? := by
  cases v with
  | closure c =>
    obtain ⟨env, h⟩ := s.exists_read_closure c
    rw [h]
    rfl
  | _ => rfl

theorem format_read (s : Store) (v : Value) : (s.read v).format = v.format := by
  induction v with
  | pair a b iha ihb => rw [read_pair, Reference.Value.format, Value.format, iha, ihb]
  | closure c =>
    obtain ⟨env, h⟩ := s.exists_read_closure c
    rw [h]
    rfl
  | _ => rfl

theorem operate_read (s : Store) (loc : Location) (op : Operator) (l r : Value) :
    Reference.operate loc op (s.read l) (s.read r) = (operate loc op l r).map s.read := by
  cases l with
  | int a =>
    cases r with
    | int b =>
      cases op with
      | div => by_cases hb : b = 0 <;> simp [Reference.operate, operate, read, Value.readWith, hb, Except.map]
      | rem => by_cases hb : b = 0 <;> simp [Reference.operate, operate, read, Value.readWith, hb, Except.map]
      | _ => rfl
    | closure d =>
      obtain ⟨env, h⟩ := s.exists_read_closure d
      rw [h]
      cases op <;> rfl
    | _ => cases op <;> rfl
  | closure c =>
    obtain ⟨env, h⟩ := s.exists_read_closure c
    rw [h]
    cases r with
    | closure d =>
      obtain ⟨env', h'⟩ := s.exists_read_closure d
      rw [h']
      cases op <;> rfl
    | _ => cases op <;> rfl
  | _ =>
    cases r with
    | closure d =>
      obtain ⟨env, h⟩ := s.exists_read_closure d
      rw [h]
      cases op <;> rfl
    | _ => cases op <;> rfl

end Store

end TreeWalk
