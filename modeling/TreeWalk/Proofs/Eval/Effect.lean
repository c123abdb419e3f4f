import Mathlib.Data.List.Forall2
import TreeWalk.Proofs.Eval.Visit
import TreeWalk.Proofs.Scope.Ownership

/-!
# The effect of an evaluation

All that an evaluation in a scope does to a machine: new scopes, new bindings in front of those
of that one scope, new output. The bindings come from the `let`s of the term outside its function
literals, at most one from each, in the order of the text.
-/

namespace TreeWalk

/-- The scope `inner` is newer than `h` and does not see it. -/
structure Store.Beside (s : Store) (h inner : Nat) : Prop where
  lt : h < inner
  lt_size : inner < s.size
  apart : ¬s.Sees inner h

def Scope.adding (scope : Scope) (added : Bindings) : Scope :=
  { scope with bindings := added ++ scope.bindings }

@[simp] theorem Scope.adding_nil (scope : Scope) : scope.adding [] = scope := rfl

theorem Scope.adding_adding (scope : Scope) (a b : Bindings) :
    (scope.adding a).adding b = scope.adding (b ++ a) := by
  simp [adding]

namespace Machine

/-- From `m` to `m'`, of the scopes below `base` at most `h` changed: `added` was put in front of
its bindings. Scopes and output may have been added; the depth is what it was. -/
structure Effect (base : Nat) (h : Nat) (added : Bindings) (m m' : Machine) : Prop where
  size_le : m.store.size ≤ m'.store.size
  others : ∀ id : Nat, id < base → id ≠ h → m'.store.scope? id = m.store.scope? id
  target : m'.store.scope? h = (m.store.scope? h).map (·.adding added)
  ordered : m.store.Ordered → m'.store.Ordered
  writes : m.output.writes <:+ m'.output.writes
  depth : m'.depth = m.depth
  limit : m'.limit = m.limit

namespace Effect

variable {base h : Nat} {a b : Bindings} {m m₁ m₂ : Machine}

theorem refl (base h : Nat) (m : Machine) : m.Effect base h [] m where
  size_le := Nat.le_refl _
  others _ _ _ := rfl
  target := by simp
  ordered hm := hm
  writes := List.suffix_refl _
  depth := rfl
  limit := rfl

theorem trans (h₁ : m.Effect base h a m₁) (h₂ : m₁.Effect base h b m₂) : m.Effect base h (b ++ a) m₂ where
  size_le := Nat.le_trans h₁.size_le h₂.size_le
  others id hid hne := by rw [h₂.others id hid hne, h₁.others id hid hne]
  target := by
    rw [h₂.target, h₁.target, Option.map_map]
    congr 1
    funext scope
    exact scope.adding_adding a b
  ordered hm := h₂.ordered (h₁.ordered hm)
  writes := h₁.writes.trans h₂.writes
  depth := h₂.depth.trans h₁.depth
  limit := h₂.limit.trans h₁.limit

theorem adds {s : Store} (hs : m.store.Adds s) (ho : m.store.Ordered → s.Ordered)
    (hbase : base ≤ m.store.size) (hh : h < m.store.size) : m.Effect base h [] { m with store := s } where
  size_le := hs.size_le
  others id hid _ := hs.scope?_eq id (Nat.lt_of_lt_of_le hid hbase)
  target := by
    rw [hs.scope?_eq h hh]
    simp
  ordered := ho
  writes := List.suffix_refl _
  depth := rfl
  limit := rfl

theorem define (base h : Nat) (m : Machine) (name : String) (v : Value) :
    m.Effect base h [(name, v)] { m with store := m.store.define h name v } where
  size_le := Nat.le_of_eq (Store.size_define m.store h name v).symm
  others id _ hne := by rw [Store.scope?_define, if_neg (Ne.symm hne)]
  target := by
    rw [Store.scope?_define, if_pos rfl]
    rfl
  ordered hm := hm.define h name v
  writes := List.suffix_refl _
  depth := rfl
  limit := rfl

theorem define_new {g : Nat} (hg : base ≤ g) (hne : h ≠ g) (name : String) (v : Value) :
    m.Effect base h [] { m with store := m.store.define g name v } where
  size_le := Nat.le_of_eq (Store.size_define m.store g name v).symm
  others id hid _ := by
    have hne' : g ≠ id := by omega
    rw [Store.scope?_define, if_neg hne']
  target := by
    rw [Store.scope?_define, if_neg (Ne.symm hne)]
    simp
  ordered hm := hm.define g name v
  writes := List.suffix_refl _
  depth := rfl
  limit := rfl

theorem write {bytes : ByteArray} {output : Output} (hw : m.output.write? bytes = some output) :
    m.Effect base h [] { m with output } where
  size_le := Nat.le_refl _
  others _ _ _ := rfl
  target := by simp
  ordered hm := hm
  writes := by
    unfold Output.write? at hw
    split at hw
    · cases hw
      exact List.suffix_cons _ _
    · cases hw
    · cases hw
      exact List.suffix_cons _ _
  depth := rfl
  limit := rfl

theorem inside {g : Nat} (e : m.Effect m.store.size g a m₁) (hbase : base ≤ m.store.size) (hg : base ≤ g)
    (hh : h < m.store.size) (hne : h ≠ g) : m.Effect base h [] m₁ where
  size_le := e.size_le
  others id hid _ := e.others id (Nat.lt_of_lt_of_le hid hbase) (by omega)
  target := by
    rw [e.others h hh hne]
    simp
  ordered := e.ordered
  writes := e.writes
  depth := e.depth
  limit := e.limit

theorem level (e : Effect base h a { m with depth := m.depth + 1 } m₁) :
    m.Effect base h a { m₁ with depth := m₁.depth - 1 } :=
  { e with
    depth := by
      have hd : m₁.depth = m.depth + 1 := e.depth
      change m₁.depth - 1 = m.depth
      omega }

theorem sees (e : m.Effect m.store.size h a m₁) (ho : m.store.Ordered) {id g : Nat} (hid : id < m.store.size)
    (hg : m₁.store.Sees id g) : m.store.Sees id g := by
  refine hg.of_parents fun k hk => ?_
  have hlt : k < m.store.size := Nat.lt_of_le_of_lt (hk.le ho) hid
  rw [Store.parent?_eq, Store.parent?_eq]
  by_cases hkh : k = h
  · rw [hkh, e.target, Option.bind_map]
    rfl
  · rw [e.others k hlt hkh]

theorem touches {live : Nat → Prop} (e : m.Effect m.store.size h a m₁) (ho : m.store.Ordered) (hlive : live h) :
    Store.Touches live m.store m₁.store := by
  refine ⟨e.size_le, e.ordered ho, fun id hid hdead => e.others id hid ?_⟩
  rintro rfl
  exact hdead hlive

end Effect

end Machine

namespace Store.Beside

variable {h inner : Nat} {a : Bindings} {m m₁ : Machine}

theorem scope?_of_inner (hb : m.store.Beside h inner) (ho : m.store.Ordered) (e : m.Effect m.store.size inner a m₁)
    {g : Nat} (hg : m.store.Sees h g) : m₁.store.scope? g = m.store.scope? g := by
  have hlt : g < inner := Nat.lt_of_le_of_lt (hg.le ho) hb.lt
  exact e.others g (Nat.lt_trans hlt hb.lt_size) (Nat.ne_of_lt hlt)

theorem scope?_of_outer (hb : m.store.Beside h inner) (ho : m.store.Ordered) (e : m.Effect m.store.size h a m₁)
    {g : Nat} (hg : m.store.Sees inner g) : m₁.store.scope? g = m.store.scope? g := by
  refine e.others g (Nat.lt_of_le_of_lt (hg.le ho) hb.lt_size) ?_
  rintro rfl
  exact hb.apart hg

theorem of_effect (hb : m.store.Beside h inner) (ho : m.store.Ordered) (e : m.Effect m.store.size h a m₁) :
    m₁.store.Beside h inner :=
  ⟨hb.lt, Nat.lt_of_lt_of_le hb.lt_size e.size_le,
    fun hsees => hb.apart (hsees.congr fun _ hg => hb.scope?_of_outer ho e hg)⟩

theorem define (hb : m.store.Beside h inner) (name : String) (v : Value) :
    (m.store.define inner name v).Beside h inner :=
  ⟨hb.lt, (Store.size_define m.store inner name v).symm ▸ hb.lt_size, fun hsees => hb.apart hsees.of_define⟩

end Store.Beside

namespace Machine

theorem size_le_frame (m : Machine) (id : ScopeId) : m.store.size ≤ (m.frame id).1 :=
  (Store.capture_adds m.store id).size_le

theorem frame_lt_size (m : Machine) (id : ScopeId) : (m.frame id).1 < (m.frame id).2.store.size := by
  change _ < ((m.store.capture id).2.alloc _).2.size
  rw [Store.size_alloc]
  exact Nat.lt_succ_self _

theorem frame_beside (m : Machine) (ho : m.store.Ordered) {h id : Nat} (hh : h < m.store.size)
    (hid : id < m.store.size) : (m.frame id).2.store.Beside h (m.frame id).1 := by
  have hplanted : m.store.Planted (some (m.frame id).1) (m.frame id).2.store ([] :: m.store.env id) :=
    Store.extend_planted ho hid
  refine ⟨Nat.lt_of_lt_of_le hh (m.size_le_frame id), m.frame_lt_size id, fun hsees => ?_⟩
  exact absurd hh (Nat.not_lt.mpr (hplanted.fresh _ _ rfl hsees))

theorem run_extend (m : Machine) (id : ScopeId) :
    (Eval.onStore (·.extend id)).run m = (.ok (m.frame id).1, (m.frame id).2) := rfl

end Machine

structure LetNode where
  loc : Location
  name : Parameter
  value : Term
  next : Term

namespace Term

mutual

/-- The `let`s of a term outside its function literals, each before those of its continuation
and after those of its value. -/
def lets : Term → List LetNode
  | binary _ lhs _ rhs => lhs.lets ++ rhs.lets
  | letIn loc name value next => value.lets ++ (⟨loc, name, value, next⟩ :: next.lets)
  | call _ callee args _ => callee.lets ++ letsOf args
  | ite _ condition thenBranch otherwise => condition.lets ++ (thenBranch.lets ++ otherwise.lets)
  | tuple _ a b => a.lets ++ b.lets
  | first _ t => t.lets
  | second _ t => t.lets
  | print _ t => t.lets
  | absent | int .. | str .. | bool .. | var .. | function .. | error .. => []

def letsOf : List Term → List LetNode
  | [] => []
  | arg :: args => arg.lets ++ letsOf args

end

end Term

/-- The bindings `added`, oldest first, belong to some of `lets`, in this order and each to a
`let` of its own. What makes a value one of a `let` is `R`. -/
def Drawn (R : LetNode → Value → Prop) (lets : List LetNode) (added : Bindings) : Prop :=
  ∃ used, used.Sublist lets ∧
    List.Forall₂ (fun node binding => binding.1 = node.name.text ∧ R node binding.2) used added.reverse

namespace Drawn

variable {R : LetNode → Value → Prop} {l l' : List LetNode} {a b : Bindings}

theorem nil (R : LetNode → Value → Prop) (l : List LetNode) : Drawn R l [] :=
  ⟨[], List.nil_sublist l, .nil⟩

theorem append (ha : Drawn R l a) (hb : Drawn R l' b) : Drawn R (l ++ l') (b ++ a) := by
  obtain ⟨used, hused, hall⟩ := ha
  obtain ⟨used', hused', hall'⟩ := hb
  refine ⟨used ++ used', hused.append hused', ?_⟩
  rw [List.reverse_append]
  exact List.rel_append hall hall'

theorem mono (ha : Drawn R l a) (hl : l.Sublist l') : Drawn R l' a := by
  obtain ⟨used, hused, hall⟩ := ha
  exact ⟨used, hused.trans hl, hall⟩

theorem single {node : LetNode} {v : Value} (hv : R node v) : Drawn R [node] [(node.name.text, v)] :=
  ⟨[node], List.Sublist.refl _, .cons ⟨rfl, hv⟩ .nil⟩

end Drawn

/-- Run from `m`, `x` has no effect on the scopes below `base` but to bind values of some of `lets`
in scope `h`. -/
def Acts {α : Type} (R : LetNode → Value → Prop) (base h : Nat) (lets : List LetNode) (m : Machine)
    (x : Eval α) : Prop :=
  ∃ added, m.Effect base h added (x.run m).2 ∧ Drawn R lets added

namespace Acts

variable {α β : Type} {R : LetNode → Value → Prop} {base h : Nat} {l l' : List LetNode} {m : Machine}

theorem of_effect {x : Eval α} (e : m.Effect base h [] (x.run m).2) : Acts R base h l m x :=
  ⟨[], e, .nil R l⟩

theorem still {x : Eval α} (e : (x.run m).2 = m) : Acts R base h l m x :=
  of_effect (e.symm ▸ .refl base h m)

theorem mono {x : Eval α} (hx : Acts R base h l m x) (hl : l.Sublist l') : Acts R base h l' m x := by
  obtain ⟨added, e, hadded⟩ := hx
  exact ⟨added, e, hadded.mono hl⟩

theorem bind {x : Eval α} {f : α → Eval β} (hx : Acts R base h l m x)
    (hf : ∀ a m', x.run m = (.ok a, m') → m.store.size ≤ m'.store.size → Acts R base h l' m' (f a)) :
    Acts R base h (l ++ l') m (x >>= f) := by
  obtain ⟨added, e, hadded⟩ := hx
  rcases hr : x.run m with ⟨_ | a, m'⟩
  · rw [hr] at e
    refine ⟨added, ?_, hadded.mono (List.sublist_append_left l l')⟩
    rw [Eval.run_bind_error hr]
    exact e
  · rw [hr] at e
    obtain ⟨added', e', hadded'⟩ := hf a m' hr e.size_le
    refine ⟨added' ++ added, ?_, hadded.append hadded'⟩
    rw [Eval.run_bind_ok hr]
    exact e.trans e'

theorem bind_nil {x : Eval α} {f : α → Eval β} (hx : Acts R base h l m x)
    (hf : ∀ a m', x.run m = (.ok a, m') → m.store.size ≤ m'.store.size → Acts R base h [] m' (f a)) :
    Acts R base h l m (x >>= f) := List.append_nil l ▸ hx.bind hf

theorem after {x : Eval α} {f : α → Eval β} (e : m.Effect base h [] (x.run m).2)
    (hf : ∀ a m', x.run m = (.ok a, m') → m.store.size ≤ m'.store.size → Acts R base h l m' (f a)) :
    Acts R base h l m (x >>= f) := (of_effect e : Acts R base h [] m x).bind hf

theorem refuse (v : Value) (f : Kind → Fault) :
    Acts R base h l m (do Eval.fail (f (← Eval.kindOf v)) : Eval α) := by
  apply still
  rw [Eval.run_bind, Eval.run_kindOf]
  cases v.kind? <;> rfl

end Acts

namespace Point

theorem result_eq (n : Nat) (t : Term) (h : ScopeId) (m : Machine) :
    result ⟨n, t, h, m⟩ = (t.evalWith (Term.evalBody n) h).run m := by
  rw [result, Term.eval_eq]

/-- `node` is evaluated in the course of `p`, in the same scope, and its value is `v`. -/
def Yields (p : Point) (node : LetNode) (v : Value) : Prop :=
  ∃ m, p.Visits ⟨p.levels, node.value, p.scope, m⟩ ∧ (result ⟨p.levels, node.value, p.scope, m⟩).1 = .ok v

theorem Yields.of_next {n : Nat} {t t' : Term} {h : ScopeId} {m m' : Machine} {node : LetNode} {v : Value}
    (hnext : Next ⟨n, t, h, m⟩ ⟨n, t', h, m'⟩) (hy : Yields ⟨n, t', h, m'⟩ node v) :
    Yields ⟨n, t, h, m⟩ node v := by
  obtain ⟨m₁, hvisits, hv⟩ := hy
  exact ⟨m₁, hvisits.head hnext, hv⟩

/-- The effect of evaluating a term, where the visits from it that bind values satisfy `R`. -/
def Local (n : Nat) (t : Term) : Prop :=
  ∀ (R : LetNode → Value → Prop) (base h : Nat) (m : Machine), h < m.store.size → base ≤ m.store.size →
    (∀ node v, Yields ⟨n, t, h, m⟩ node v → R node v) →
      Acts R base h t.lets m (t.evalWith (Term.evalBody n) h)

end Point

namespace Term

variable {n : Nat} {R : LetNode → Value → Prop} {base h inner : Nat}

theorem bindWith_acts (args : List Term) (hargs : ∀ arg ∈ args, Point.Local n arg) (params : List String)
    (m : Machine) (hh : h < m.store.size) (hbase : base ≤ m.store.size) (hinner : base ≤ inner)
    (hne : h ≠ inner)
    (hR : ∀ before arg after m', args = before ++ arg :: after →
      (bindWith (evalBody n) before params h inner).run m = (.ok (), m') →
        ∀ node v, Point.Yields ⟨n, arg, h, m'⟩ node v → R node v) :
    Acts R base h (letsOf args) m (bindWith (evalBody n) args params h inner) := by
  induction args generalizing params m with
  | nil => exact .still rfl
  | cons arg args ih =>
    rw [bindWith, letsOf]
    have hhead : Acts R base h arg.lets m (arg.evalWith (evalBody n) h) :=
      hargs arg List.mem_cons_self R base h m hh hbase (hR [] arg args m rfl rfl)
    refine hhead.bind fun v m₁ hv hsize => ?_
    cases params with
    | nil => exact .still rfl
    | cons name names =>
      have hbind : m₁.Effect base h [] ((Eval.define inner name v).run m₁).2 :=
        .define_new hinner hne name v
      refine Acts.after hbind fun _ m₂ hdefine hsize' => ?_
      refine ih (fun a ha => hargs a (List.mem_cons_of_mem _ ha)) names m₂ (by omega) (by omega) ?_
      intro before arg' after m' hsplit hrun
      refine hR (arg :: before) arg' after m' (by rw [hsplit, List.cons_append]) ?_
      rw [bindWith, Eval.run_bind_ok hv]
      exact (Eval.run_bind_ok hdefine).trans hrun

theorem enter_effect
    (hbodies : ∀ (body : Term) (g : Nat) (m : Machine), g < m.store.size →
      ∃ added, m.Effect m.store.size g added ((evalBody n body g).run m).2)
    (loc : Location) (body : Term) (m : Machine) (hh : h < m.store.size) (hbase : base ≤ m.store.size)
    (hin : inner < m.store.size) (hinner : base ≤ inner) (hne : h ≠ inner) :
    m.Effect base h [] ((Eval.enter loc (evalBody n body inner)).run m).2 := by
  rw [Eval.run_enter]
  split
  · exact .refl base h m
  · obtain ⟨added, e⟩ := hbodies body inner { m with depth := m.depth + 1 } hin
    exact (e.inside hbase hinner hh hne).level

theorem call_acts
    (hbodies : ∀ (body : Term) (g : Nat) (m : Machine), g < m.store.size →
      ∃ added, m.Effect m.store.size g added ((evalBody n body g).run m).2)
    (loc : Location) (callee : Term) (args : List Term) (listed : Bool) (hcallee : Point.Local n callee)
    (hargs : ∀ arg ∈ args, Point.Local n arg) : Point.Local n (.call loc callee args listed) := by
  intro R base h m hh hbase hR
  rw [evalWith, lets]
  refine (hcallee R base h m hh hbase fun node v hy => hR node v (hy.of_next .callee)).bind
    fun v m₁ hv hsize => ?_
  cases v with
  | closure c =>
    dsimp only
    split
    · exact .still rfl
    · next harity =>
      have hextend : m₁.Effect base h [] ((Eval.onStore (·.extend c.scope)).run m₁).2 :=
        .adds (Store.extend_adds _ _) (fun ho => ho.extend _) (by omega) (by omega)
      refine Acts.after hextend fun inner m₂ hinner hsize' => ?_
      obtain ⟨rfl, rfl⟩ : (m₁.frame c.scope).1 = inner ∧ (m₁.frame c.scope).2 = m₂ := by
        rw [m₁.run_extend] at hinner
        simpa using hinner
      have hnew := m₁.size_le_frame c.scope
      have hin := m₁.frame_lt_size c.scope
      have hbind : Acts R base h (letsOf args) (m₁.frame c.scope).2
          (bindWith (evalBody n) args c.params h (m₁.frame c.scope).1) := by
        refine bindWith_acts args hargs c.params _ (by omega) (by omega) (by omega) (by omega) ?_
        rintro before arg after m' rfl hrun node v hy
        have hclosure : Point.result ⟨n, callee, h, m⟩ = (.ok (.closure c), m₁) := by
          rw [Point.result_eq, hv]
        exact hR node v (hy.of_next (.argument hclosure (not_ne_iff.mp harity) hrun))
      refine hbind.bind_nil fun _ m₃ _ hsize'' => ?_
      exact .of_effect (enter_effect hbodies loc c.body m₃ (by omega) (by omega) (by omega) (by omega)
        (by omega))
  | _ => exact .refuse _ _

/-- Every term has a local effect if closure bodies keep the scopes they are not evaluated in. -/
theorem local_of_bodies
    (hbodies : ∀ (body : Term) (g : Nat) (m : Machine), g < m.store.size →
      ∃ added, m.Effect m.store.size g added ((evalBody n body g).run m).2) (t : Term) :
    Point.Local n t := by
  induction t using Term.inductionOn with
  | absent => intro R base h m _ _ _; exact .still rfl
  | int loc k => intro R base h m _ _ _; exact .still rfl
  | str loc s => intro R base h m _ _ _; exact .still rfl
  | bool loc b => intro R base h m _ _ _; exact .still rfl
  | error loc message fullText => intro R base h m _ _ _; exact .still rfl
  | var loc text =>
    intro R base h m _ _ _
    apply Acts.still
    rw [evalWith, Eval.run_bind, Eval.run_lookup?]
    dsimp only
    split <;> rfl
  | binary loc lhs op rhs ihl ihr =>
    intro R base h m hh hbase hR
    rw [evalWith, lets]
    refine (ihl R base h m hh hbase fun node v hy => hR node v (hy.of_next .binaryLeft)).bind
      fun l m₁ hl hsize => ?_
    rw [← Point.result_eq] at hl
    refine (ihr R base h m₁ (by omega) (by omega) fun node v hy =>
      hR node v (hy.of_next (.binaryRight hl))).bind_nil fun r m₂ _ _ => ?_
    exact .still (by rw [Eval.run_liftExcept])
  | letIn loc name value next ihv ihn =>
    intro R base h m hh hbase hR
    rw [evalWith, lets]
    refine (ihv R base h m hh hbase fun node v hy => hR node v (hy.of_next .letValue)).bind
      fun v m₁ hv hsize => ?_
    rw [← Point.result_eq] at hv
    have hyields : R ⟨loc, name, value, next⟩ v :=
      hR _ v ⟨m, .single .letValue, congrArg Prod.fst hv⟩
    have hdefine : Acts R base h [⟨loc, name, value, next⟩] m₁ (Eval.define h name.text v) :=
      ⟨_, .define base h m₁ name.text v, .single hyields⟩
    refine hdefine.bind fun _ m₂ hrun hsize' => ?_
    cases hrun
    exact ihn R base h _ (by omega) (by omega) fun node w hy => hR node w (hy.of_next (.letNext hv))
  | function loc params body _ =>
    intro R base h m hh hbase _
    rw [evalWith, lets]
    have hcapture : m.Effect base h [] ((Eval.onStore (·.capture h)).run m).2 :=
      .adds (Store.capture_adds _ _) (fun ho => ho.capture _) hbase hh
    exact Acts.after hcapture fun _ m₁ _ _ => .still rfl
  | call loc callee args listed ihc iha => exact call_acts hbodies loc callee args listed ihc iha
  | ite loc c t e ihc iht ihe =>
    intro R base h m hh hbase hR
    rw [evalWith, lets]
    refine (ihc R base h m hh hbase fun node v hy => hR node v (hy.of_next .condition)).bind
      fun v m₁ hv hsize => ?_
    rw [← Point.result_eq] at hv
    cases v with
    | bool b =>
      cases b with
      | true =>
        exact (iht R base h m₁ (by omega) (by omega) fun node v hy =>
          hR node v (hy.of_next (.thenBranch hv))).mono (List.sublist_append_left _ _)
      | false =>
        exact (ihe R base h m₁ (by omega) (by omega) fun node v hy =>
          hR node v (hy.of_next (.otherwise hv))).mono (List.sublist_append_right _ _)
    | _ => exact .refuse _ _
  | tuple loc a b iha ihb =>
    intro R base h m hh hbase hR
    rw [evalWith, lets]
    refine (iha R base h m hh hbase fun node v hy => hR node v (hy.of_next .tupleFirst)).bind
      fun x m₁ hx hsize => ?_
    rw [← Point.result_eq] at hx
    exact (ihb R base h m₁ (by omega) (by omega) fun node v hy =>
      hR node v (hy.of_next (.tupleSecond hx))).bind_nil fun y m₂ _ _ => .still rfl
  | first loc t ih =>
    intro R base h m hh hbase hR
    rw [evalWith, lets]
    refine (ih R base h m hh hbase fun node v hy => hR node v (hy.of_next .first)).bind_nil
      fun v m₁ _ _ => ?_
    cases v with
    | pair x y => exact .still rfl
    | _ => exact .refuse _ _
  | second loc t ih =>
    intro R base h m hh hbase hR
    rw [evalWith, lets]
    refine (ih R base h m hh hbase fun node v hy => hR node v (hy.of_next .second)).bind_nil
      fun v m₁ _ _ => ?_
    cases v with
    | pair x y => exact .still rfl
    | _ => exact .refuse _ _
  | print loc t ih =>
    intro R base h m hh hbase hR
    rw [evalWith, lets]
    refine (ih R base h m hh hbase fun node v hy => hR node v (hy.of_next .print)).bind_nil
      fun v m₁ _ _ => ?_
    have hprint : m₁.Effect base h [] ((Eval.print loc v).run m₁).2 := by
      rw [Eval.run_print]
      split
      · next hw => exact .write hw
      · exact .refl base h m₁
    exact Acts.after hprint fun _ m₂ _ _ => .still rfl

theorem bodies_keep (n : Nat) (body : Term) (g : Nat) (m : Machine) (hg : g < m.store.size) :
    ∃ added, m.Effect m.store.size g added ((evalBody n body g).run m).2 := by
  induction n generalizing body g m with
  | zero => exact ⟨[], .refl _ g m⟩
  | succ n ih =>
    obtain ⟨added, e, _⟩ := local_of_bodies ih body (fun _ _ => True) m.store.size g m hg
      (Nat.le_refl _) fun _ _ _ => trivial
    refine ⟨added, ?_⟩
    rw [evalBody, eval_eq]
    exact e

end Term

namespace Point

theorem effect (p : Point) (hp : p.scope < p.machine.store.size) :
    ∃ added, p.machine.Effect p.machine.store.size p.scope added p.final ∧
      Drawn p.Yields p.term.lets added := by
  obtain ⟨n, t, h, m⟩ := p
  have hacts := Term.local_of_bodies (Term.bodies_keep n) t (Yields ⟨n, t, h, m⟩) m.store.size h m hp
    (Nat.le_refl _) fun _ _ hy => hy
  rw [Acts, ← result_eq] at hacts
  exact hacts

theorem effect_of_result {n : Nat} {t : Term} {h : Nat} {m m' : Machine} {r : Outcome}
    (hh : h < m.store.size) (hr : result ⟨n, t, h, m⟩ = (r, m')) :
    ∃ added, m.Effect m.store.size h added m' := by
  obtain ⟨added, e, _⟩ := effect ⟨n, t, h, m⟩ hh
  rw [final, hr] at e
  exact ⟨added, e⟩

end Point

end TreeWalk
