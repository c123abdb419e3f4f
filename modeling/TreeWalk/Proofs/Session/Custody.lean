import TreeWalk.Proofs.Reference.Denotation
import TreeWalk.Proofs.Session.Basic

/-!
# What a caller holds

A caller holds the global scope, the scopes it was answered with, and the scopes around these. It binds
names to values whose closures it was answered with or finds bound. Closures own the scopes they captured:
none of these is ever held by the caller, so whatever the caller does, the reference semantics says what
becomes of it.
-/

namespace TreeWalk

def Answer.handle? : Answer → Option ScopeId
  | .scope id => id
  | _ => none

def Answer.value? : Answer → Option Value
  | .outcome (.ok v) => some v
  | _ => none

structure Caller where
  held : Nat → Prop
  known : Closure → Prop

namespace Caller

/-- The caller has the means for the action. -/
def Allows (k : Caller) (i : Interpreter) : Action → Prop
  | .newScope scope | .extend scope | .capture scope | .parent scope | .evaluate _ scope =>
    ∀ id, scope = some id → k.held id
  | .define scope _ v => k.held scope ∧ ∀ c ∈ v.closures, k.known c ∨ ∃ g, i.machine.store.Binds g c
  | .run _ => True

def after (k : Caller) (answer : Answer) (i : Interpreter) : Caller where
  held g := k.held g ∨ ∃ id, (id = i.global ∨ answer.handle? = some id) ∧ i.machine.store.Sees id g
  known c := k.known c ∨ ∃ v, answer.value? = some v ∧ c ∈ v.closures

/-- A caller starts with a new interpreter and performs any number of actions it has the means for. -/
inductive Session : Interpreter → Caller → Prop
  | new (output : Output) (depth : Int) :
    Session (.new output depth) ⟨(· = (Interpreter.new output depth).global), fun _ => False⟩
  | perform {i : Interpreter} {k : Caller} (a : Action) (h : Session i k) (ha : k.Allows i a) :
    Session (i.perform a).2 (k.after (i.perform a).1 (i.perform a).2)

/-- The caller is kept apart from what closures captured. -/
structure Apart (k : Caller) (i : Interpreter) : Prop where
  sealed : i.machine.store.Sealed (fun _ => True) k.held
  closed : ∀ g g', k.held g → i.machine.store.Sees g g' → k.held g'
  global : k.held i.global
  known : ∀ c, k.known c → i.machine.store.Owned k.held c

namespace Apart

variable {k : Caller} {i j : Interpreter}

theorem lt_size (hk : k.Apart i) {g : Nat} (hg : k.held g) : g < i.machine.store.size := hk.sealed.live_lt g hg

theorem ownsAll (hk : k.Apart i) (id : ScopeId) : i.machine.store.OwnsAll k.held (i.machine.store.env id) :=
  hk.sealed.ownsAll fun _ _ => trivial

theorem step (hk : k.Apart i) {answer : Answer} {live : Nat → Prop} (hsealed : j.machine.store.Sealed (fun _ => True) live)
    (hsees : ∀ g g', k.held g → j.machine.store.Sees g g' → i.machine.store.Sees g g')
    (hheld : ∀ g, k.held g → live g)
    (hnew : ∀ id g, id = j.global ∨ answer.handle? = some id → j.machine.store.Sees id g → live g)
    (hknown : ∀ c, k.known c → j.machine.store.Owned live c)
    (hvalue : ∀ v, answer.value? = some v → j.machine.store.Owns live v) : (k.after answer j).Apart j := by
  have hlive : ∀ g, (k.after answer j).held g → live g := by
    rintro g (hg | ⟨id, hid, hg⟩)
    · exact hheld g hg
    · exact hnew id g hid hg
  refine ⟨hsealed.mono hlive, ?_, .inr ⟨j.global, .inl rfl, .self _⟩, ?_⟩
  · rintro g g' (hg | ⟨id, hid, hg⟩) hg'
    · exact .inl (hk.closed g g' hg (hsees g g' hg hg'))
    · exact .inr ⟨id, hid, hg.trans hg'⟩
  · rintro c (hc | ⟨v, hv, hc⟩)
    · exact (hknown c hc).mono hlive
    · exact (hvalue v hv c hc).mono hlive

theorem adds (hk : k.Apart i) {s : Store} (hadds : i.machine.store.Adds s)
    (hsealed : s.Sealed (fun _ => True) fun g => k.held g ∨ i.machine.store.size ≤ g ∧ g < s.size) {id : Nat}
    (hid : ∀ g : Nat, s.Sees id g → k.held g ∨ i.machine.store.size ≤ g ∧ g < s.size) :
    (k.after (.scope (some id)) { i with machine := { i.machine with store := s } }).Apart
      { i with machine := { i.machine with store := s } } := by
  have hsees : ∀ g g', k.held g → s.Sees g g' → i.machine.store.Sees g g' := fun g g' hg hg' =>
    hadds.sees hk.sealed.ordered (hk.lt_size hg) hg'
  refine hk.step hsealed hsees (fun g hg => .inl hg) ?_
    (fun c hc => hadds.owned hk.sealed.ordered hsealed.ordered (hk.known c hc)) (by rintro v ⟨⟩)
  rintro id' g (rfl | hid') hg
  · exact .inl (hk.closed _ g hk.global (hsees _ g hk.global hg))
  · obtain rfl : id = id' := Option.some.inj hid'
    exact hid g hg

theorem planted (hk : k.Apart i) {s : Store} {id : Nat} {env : Env}
    (h : i.machine.store.Planted (some id) s env) (henv : i.machine.store.OwnsAll k.held env) :
    (k.after (.scope (some id)) { i with machine := { i.machine with store := s } }).Apart
      { i with machine := { i.machine with store := s } } := by
  refine hk.adds h.adds (h.sealed hk.sealed henv) fun g hg => .inr ?_
  exact ⟨h.fresh id g rfl hg, Nat.lt_of_le_of_lt (hg.le h.ordered) (h.lt_size id rfl)⟩

theorem child_sealed (hk : k.Apart i) {outer : Option ScopeId} (houter : ∀ id, outer = some id → k.held id) :
    (i.machine.store.child outer).2.Sealed (fun _ => True) fun g =>
      k.held g ∨ i.machine.store.size ≤ g ∧ g < (i.machine.store.child outer).2.size :=
  (Store.child_adds _ _).sealed hk.sealed (hk.sealed.ordered.child fun id hid => hk.lt_size (houter id hid))
    fun g c _ hc => hk.sealed.owned g c trivial hc.of_child

theorem newScope (hk : k.Apart i) {outer : Option ScopeId} (houter : ∀ id, outer = some id → k.held id) :
    (k.after (.scope (some (i.newScope outer).1)) (i.newScope outer).2).Apart (i.newScope outer).2 := by
  have hadds := Store.child_adds i.machine.store outer
  refine hk.adds hadds (hk.child_sealed houter) fun g hg => ?_
  have hscope : (i.machine.store.child outer).2.scope? i.machine.store.size = some ⟨[], outer⟩ :=
    (Store.scope?_alloc _ _ _).trans (if_pos rfl)
  cases hg with
  | self => exact .inr ⟨Nat.le_refl _, Store.lt_size hscope⟩
  | outward hparent hg =>
    have hheld := houter _ ((congrArg (·.bind Scope.parent) hscope).symm.trans hparent)
    exact .inl (hk.closed _ g hheld (hadds.sees hk.sealed.ordered (hk.lt_size hheld) hg))

theorem still (hk : k.Apart i) {answer : Answer} (hhandle : ∀ id, answer.handle? = some id → k.held id)
    (hvalue : answer.value? = none) : (k.after answer i).Apart i := by
  refine hk.step hk.sealed (fun _ _ _ hg => hg) (fun _ hg => hg) ?_ hk.known (by rw [hvalue]; rintro v ⟨⟩)
  rintro id g (rfl | hid) hg
  · exact hk.closed _ g hk.global hg
  · exact hk.closed id g (hhandle id hid) hg

theorem owns (hk : k.Apart i) {v : Value} (hv : ∀ c ∈ v.closures, k.known c ∨ ∃ g, i.machine.store.Binds g c) :
    i.machine.store.Owns k.held v := by
  intro c hc
  rcases hv c hc with hknown | ⟨g, hg⟩
  · exact hk.known c hknown
  · exact hk.sealed.owned g c trivial hg

theorem define (hk : k.Apart i) {g : Nat} (hg : k.held g) (name : String) {v : Value}
    (hv : ∀ c ∈ v.closures, k.known c ∨ ∃ g', i.machine.store.Binds g' c) :
    (k.after .done (i.define g name v)).Apart (i.define g name v) := by
  have howns := hk.owns hv
  have htouches := hk.sealed.ordered.define_touches hg name v
  refine hk.step (hk.sealed.define hg name howns) (fun _ _ _ hsees => hsees.of_define) (fun _ hg' => hg') ?_
    (fun c hc => (hk.known c hc).touches hk.sealed.ordered htouches) (by rintro v ⟨⟩)
  rintro id g' (rfl | hid) hg'
  · exact hk.closed _ g' hk.global hg'.of_define
  · cases hid

theorem outcome (hk : k.Apart i) (p : Point) {live : Nat → Prop}
    (hs : p.machine.store.Sealed (fun _ => True) live)
    (hl : live p.scope) (hlevels : p.levels = p.machine.limit - p.machine.depth) (hmachine : j.machine = p.final)
    (hsees : ∀ g g', k.held g → p.machine.store.Sees g g' → i.machine.store.Sees g g')
    (hheld : ∀ g, k.held g → live g) (hglobal : ∀ g, p.machine.store.Sees j.global g → live g)
    (hknown : ∀ c, k.known c → p.machine.store.Owned live c) : (k.after (.outcome p.result.1) j).Apart j := by
  obtain ⟨hsealed, hvalue⟩ := p.sealed hs hl (fun _ _ => trivial) hlevels
  obtain ⟨added, e, -⟩ := p.effect (hs.live_lt _ hl)
  rw [← hmachine] at hsealed hvalue e
  have hback : ∀ g g', live g → j.machine.store.Sees g g' → p.machine.store.Sees g g' := fun g g' hg hg' =>
    e.sees hs.ordered (hs.live_lt g hg) hg'
  refine hk.step hsealed (fun g g' hg hg' => hsees g g' hg (hback g g' (hheld g hg) hg')) hheld ?_
    (fun c hc => (hknown c hc).touches hs.ordered (e.touches hs.ordered hl)) fun v hv => ?_
  · rintro id g (rfl | hid) hg
    · exact hglobal g (hback _ g (hglobal _ (.self _)) hg)
    · cases hid
  · apply hvalue v
    cases hresult : p.result.1 with
    | error e =>
      rw [hresult] at hv
      cases hv
    | ok w =>
      rw [hresult] at hv
      cases hv
      rfl

theorem evaluate (hk : k.Apart i) (t : Term) {scope : Option ScopeId} (hscope : ∀ id, scope = some id → k.held id) :
    (k.after (.outcome (i.evaluate t scope).1) (i.evaluate t scope).2).Apart (i.evaluate t scope).2 := by
  have htarget : k.held (scope.getD i.global) := by
    cases scope with
    | none => exact hk.global
    | some id => exact hscope id rfl
  exact hk.outcome (i.point t (scope.getD i.global)) hk.sealed htarget rfl rfl (fun _ _ _ hg => hg)
    (fun _ hg => hg) (fun g hg => hk.closed _ g hk.global hg) hk.known

theorem run (hk : k.Apart i) (program : Program) :
    (k.after (.outcome (i.run program).1) (i.run program).2).Apart (i.run program).2 := by
  by_cases h : program.expression.isAbsent
  · rw [Interpreter.run_absent h]
    exact hk.still (by rintro id ⟨⟩) rfl
  · have hadds : i.machine.store.Adds i.fresh.machine.store := Store.child_adds _ _
    have houter : ∀ id, none = some id → k.held id := nofun
    have hsealed := hk.child_sealed houter
    have hscope : i.fresh.machine.store.scope? i.fresh.global = some ⟨[], none⟩ :=
      (Store.scope?_alloc _ _ _).trans (if_pos rfl)
    have hnew : ∀ g, k.held g ∨ g = i.fresh.global →
        k.held g ∨ i.machine.store.size ≤ g ∧ g < i.fresh.machine.store.size := by
      rintro g (hg | rfl)
      · exact .inl hg
      · exact .inr ⟨Nat.le_refl _, Store.lt_size hscope⟩
    rw [Interpreter.run_present h]
    refine hk.outcome (i.fresh.point program.expression i.fresh.global) (hsealed.mono hnew) (.inr rfl) rfl rfl
      (fun g g' hg hg' => hadds.sees hk.sealed.ordered (hk.lt_size hg) hg') (fun g hg => .inl hg) ?_
      fun c hc => (hadds.owned hk.sealed.ordered hsealed.ordered (hk.known c hc)).mono hnew
    intro g hg
    cases hg with
    | self => exact .inr rfl
    | outward hparent _ =>
      have hnone : i.fresh.machine.store.parent? i.fresh.global = none := congrArg (·.bind Scope.parent) hscope
      cases hnone.symm.trans hparent

theorem perform (hk : k.Apart i) {a : Action} (ha : k.Allows i a) :
    (k.after (i.perform a).1 (i.perform a).2).Apart (i.perform a).2 := by
  cases a with
  | newScope outer => exact hk.newScope ha
  | extend scope =>
    cases scope with
    | none => exact hk.newScope ha
    | some id =>
      exact hk.planted (Store.extend_planted hk.sealed.ordered (hk.lt_size (ha id rfl)))
        (hk.ownsAll id).cons_nil
  | capture scope =>
    cases scope with
    | none => exact hk.still (by rintro id ⟨⟩) rfl
    | some id =>
      exact hk.planted (Store.capture_planted hk.sealed.ordered (hk.lt_size (ha id rfl)))
        (hk.ownsAll id)
  | parent scope =>
    refine hk.still (fun id hid => ?_) rfl
    obtain ⟨child, hchild, hparent⟩ := Option.bind_eq_some_iff.mp hid
    exact hk.closed child id (ha child hchild) (.outward hparent (.self id))
  | define scope name v => exact hk.define ha.1 name ha.2
  | evaluate t scope => exact hk.evaluate t ha
  | run p => exact hk.run p

end Apart

theorem Session.apart {i : Interpreter} {k : Caller} (h : Session i k) : k.Apart i := by
  induction h with
  | new output depth =>
    have hsound := Interpreter.new_sound output depth
    have hbinds : ∀ g c, ¬(Interpreter.new output depth).machine.store.Binds g c := by
      intro g c hc
      obtain ⟨scope, hscope, _⟩ := Store.Binds.of_child hc
      exact absurd (Store.lt_size hscope) (Nat.not_lt_zero g)
    refine ⟨⟨hsound.ordered, ?_, fun _ _ => trivial, fun g c _ hc => absurd hc (hbinds g c)⟩, ?_, rfl, fun _ h => h.elim⟩
    · rintro g rfl
      exact hsound.global_lt
    · rintro g g' rfl hg
      exact Nat.le_zero.mp (hg.le hsound.ordered)
  | perform a _ ha ih => exact ih.perform ha

end Caller

namespace Interpreter

/-- One scope, in which `x` is 1 and `f` is a closure `fn () => x` that captured this very scope. -/
def knot : Store := ⟨#[⟨[("f", .closure ⟨[], .var .unknown "x", 0⟩), ("x", .int 1)], none⟩]⟩

theorem knot_ordered : knot.Ordered := by
  intro id scope parent hscope hparent
  have hid : id < 1 := Store.lt_size hscope
  obtain rfl : id = 0 := by omega
  cases hscope
  cases hparent

end Interpreter

end TreeWalk
