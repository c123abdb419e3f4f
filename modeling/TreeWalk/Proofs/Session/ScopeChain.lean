import TreeWalk.Proofs.Eval.Effect
import TreeWalk.Proofs.Reference.Invariant
import TreeWalk.Proofs.Session.Meaning

/-!
# Scope chains and the program text

Where a function literal stands in a program says which literals are around it, and so which names can be bound in
each scope of the chain that a closure made of it captures. However deep the calls are in which a closure comes up, its
chain has one scope for each literal around its own, and one for the program.
-/

namespace TreeWalk

/-- The names of the `let`s of a term outside its function literals. -/
def Term.letNames (t : Term) : List String := t.lets.map fun node => node.name.text

structure Literal where
  loc : Location
  params : List Parameter
  body : Term

/-- The names that can be bound where the body of a literal is evaluated. -/
def Literal.names (literal : Literal) : List String := literal.params.map Parameter.text ++ literal.body.letNames

namespace Term

/-- A term stands in `root` inside the literals `around`, the innermost first. -/
inductive Occurs (root : Term) : (around : List Literal) → Term → Prop
  | root : Occurs root [] root
  | operand {around : List Literal} {t part : Term} (h : Occurs root around t) (hpart : part ∈ t.operands) :
    Occurs root around part
  | next {around : List Literal} {loc : Location} {name : Parameter} {value next : Term}
    (h : Occurs root around (.letIn loc name value next)) : Occurs root around next
  | body {around : List Literal} {loc : Location} {params : List Parameter} {body : Term}
    (h : Occurs root around (.function loc params body)) : Occurs root (⟨loc, params, body⟩ :: around) body

/-- The names that can be bound in each scope of the chain inside `around`, the innermost first. -/
def chainNames (root : Term) (around : List Literal) : List (List String) :=
  around.map Literal.names ++ [root.letNames]

theorem mem_letsOf {node : LetNode} {args : List Term} : node ∈ letsOf args ↔ ∃ arg ∈ args, node ∈ arg.lets := by
  induction args with
  | nil => simp [letsOf]
  | cons arg args ih => simp [letsOf, ih]

theorem lets_of_operand {t part : Term} (h : part ∈ t.operands) : ∀ node ∈ part.lets, node ∈ t.lets := by
  intro node hnode
  cases t with
  | call loc callee args listed =>
    rw [lets, List.mem_append, mem_letsOf]
    rcases List.mem_cons.mp h with rfl | harg
    · exact .inl hnode
    · exact .inr ⟨part, harg, hnode⟩
  | binary | tuple | ite =>
    simp only [operands, List.mem_cons, List.not_mem_nil, or_false] at h
    simp only [lets, List.mem_append]
    aesop
  | letIn | first | second | print =>
    obtain rfl := List.mem_singleton.mp h
    simp [lets, hnode]
  | _ => cases h

theorem Occurs.letNames {root t : Term} {around : List Literal} (h : root.Occurs around t) :
    ∃ names outer, root.chainNames around = names :: outer ∧ ∀ x ∈ t.letNames, x ∈ names := by
  induction h with
  | root => exact ⟨root.letNames, [], rfl, fun _ hx => hx⟩
  | operand _ hpart ih =>
    obtain ⟨names, outer, heq, hnames⟩ := ih
    refine ⟨names, outer, heq, fun x hx => ?_⟩
    obtain ⟨node, hnode, rfl⟩ := List.mem_map.mp hx
    exact hnames _ (List.mem_map_of_mem (lets_of_operand hpart node hnode))
  | next _ ih =>
    obtain ⟨names, outer, heq, hnames⟩ := ih
    refine ⟨names, outer, heq, fun x hx => ?_⟩
    obtain ⟨node, hnode, rfl⟩ := List.mem_map.mp hx
    exact hnames _ (List.mem_map_of_mem (by simp [lets, hnode]))
  | body _ _ => exact ⟨_, _, rfl, fun x hx => List.mem_append_right _ hx⟩

end Term

/-- Each scope of an environment binds only names of the list in its place. -/
def Mirrors {α : Type} (env : List (List (String × α))) (chain : List (List String)) : Prop :=
  List.Forall₂ (fun bindings names => ∀ b ∈ bindings, b.1 ∈ names) env chain

namespace Reference

theorem mirrors_define {root t : Term} {around : List Literal} {scope : Bindings} {outer : Env} {x : String}
    (h : Mirrors (scope :: outer) (root.chainNames around)) (ht : root.Occurs around t) (hx : x ∈ t.letNames)
    (v : Value) : Mirrors (((x, v) :: scope) :: outer) (root.chainNames around) := by
  obtain ⟨names, chain, heq, hnames⟩ := ht.letNames
  unfold Mirrors at h ⊢
  rw [heq, List.forall₂_cons] at h ⊢
  refine ⟨?_, h.2⟩
  intro b hb
  rcases List.mem_cons.mp hb with rfl | hb
  · exact hnames x hx
  · exact h.1 b hb

/-- Terms of `root` are evaluated in chains that mirror where they stand. -/
def Discipline.mirror (root : Term) : Discipline (List Literal) where
  ok around env t := root.Occurs around t ∧ Mirrors env (root.chainNames around)
  operand h hpart := ⟨h.1.operand hpart, h.2⟩
  next v h := ⟨h.1.next, mirrors_define h.2 h.1 (by simp [Term.letNames, Term.lets]) v⟩
  later v hlet h := ⟨h.1, mirrors_define hlet.2 hlet.1 (by simp [Term.letNames, Term.lets]) v⟩
  body := by
    intro around env loc params body frame h hframe
    refine ⟨⟨loc, params, body⟩ :: around, h.1.body, .cons (fun b hb => ?_) h.2⟩
    have hparam : b.1 ∈ (params.map Parameter.text).reverse := hframe ▸ List.mem_map_of_mem hb
    exact List.mem_append_left _ (List.mem_reverse.mp hparam)

theorem Fits.of_closure {ι : Type} {D : Discipline ι} {names : List String} {body : Term} {env : Env}
    (h : Fits D (.closure names body env)) :
    (∃ k loc params, names = params.map Parameter.text ∧ D.ok k env (.function loc params body)) ∧ env.Fits D := by
  cases h with
  | closure hok henv => exact ⟨⟨_, _, _, rfl, hok⟩, henv⟩

theorem evaluate_ok {ι : Type} {D : Discipline ι} {k : ι} {outer : Env} {scope : Bindings} {t : Term}
    (hfits : Env.Fits D (scope :: outer)) (hok : D.ok k (scope :: outer) t) (limit depth : Nat) (output : Output) :
    D.ok k (evaluate limit depth t (scope :: outer) output).2.2 t :=
  (evalWith_upheld (enter_upholds D limit (limit - depth)) t k outer ⟨scope, output⟩ ⟨hfits, hok⟩).scope.ok hok

end Reference

namespace Store

variable {s : Store} {live : Nat → Prop}

/-- The closure is found in the value, or in what a closure found there sees. -/
inductive Reaches (s : Store) (v : Value) : Closure → Prop
  | held {c : Closure} (h : c ∈ v.closures) : Reaches s v c
  | captured {c d : Closure} {bindings : Bindings} {b : String × Value} (h : Reaches s v c)
    (hbindings : bindings ∈ s.env c.scope) (hb : b ∈ bindings) (hd : d ∈ b.2.closures) : Reaches s v d

theorem fits_of_mem_closures {ι : Type} {D : Reference.Discipline ι} {v : Value} (h : Reference.Fits D (s.read v))
    {c : Closure} (hc : c ∈ v.closures) : Reference.Fits D (s.read (.closure c)) := by
  induction v with
  | pair a b iha ihb =>
    rw [read_pair] at h
    cases h with
    | pair ha hb =>
      rcases List.mem_append.mp hc with hc | hc
      · exact iha ha hc
      · exact ihb hb hc
  | closure d =>
    rw [List.mem_singleton.mp hc]
    exact h
  | _ => cases hc

theorem Reaches.fits {ι : Type} {D : Reference.Discipline ι} (hs : s.Ordered) {v : Value} {c : Closure}
    (h : s.Reaches v c) (hv : s.Owns live v) (hfits : Reference.Fits D (s.read v)) :
    s.Owned live c ∧ Reference.Fits D (.closure c.params c.body (s.contents c.scope)) := by
  induction h with
  | @held c hc =>
    have hread := fits_of_mem_closures hfits hc
    rw [read_closure hs (hv c hc)] at hread
    exact ⟨hv c hc, hread⟩
  | @captured c d bindings b _ hbindings hb hd ih =>
    have howned := ih.1.ownsAll hs bindings hbindings b hb d hd
    have hbound : Reference.Fits D (s.read b.2) :=
      ih.2.of_closure.2 _ (List.mem_map_of_mem hbindings) (b.1, s.read b.2) (List.mem_map_of_mem hb)
    have hread := fits_of_mem_closures hbound hd
    rw [read_closure hs howned] at hread
    exact ⟨howned, hread⟩

theorem mirrors_contents {id : Nat} {chain : List (List String)} (h : Mirrors (s.contents id) chain) :
    Mirrors (s.env id) chain := by
  unfold Mirrors contents at h
  rw [List.forall₂_map_left_iff] at h
  refine h.imp ?_
  intro bindings names hnames b hb
  exact hnames (b.1, s.read b.2) (List.mem_map_of_mem hb)

end Store

namespace Interpreter

/-- The closure is found in the value of an outcome or in the global scope. -/
def Exposes (i : Interpreter) (outcome : Outcome) (c : Closure) : Prop :=
  (∃ v, outcome = .ok v ∧ i.machine.store.Reaches v c) ∨
    ∃ bindings ∈ i.env (some i.global), ∃ b ∈ bindings, i.machine.store.Reaches b.2 c

variable {i : Interpreter} {k : Caller} {p : Program}

theorem run_fits {ι : Type} {D : Reference.Discipline ι} {index : ι} (hsession : Caller.Session i k)
    (hp : ¬p.expression.isAbsent) (hok : D.ok index [[]] p.expression) :
    (∀ c, (i.run p).2.Exposes (i.run p).1 c →
      Reference.Fits D (.closure c.params c.body ((i.run p).2.machine.store.contents c.scope))) ∧
    D.ok index ((i.run p).2.machine.store.contents (i.run p).2.global) p.expression := by
  have hempty : Reference.Env.Fits D [[]] := by simp [Reference.Env.Fits]
  have hrefines := run_refines hsession hp
  obtain ⟨hsealed, howns⟩ := run_sealed hsession hp
  obtain ⟨hvalue, -, hglobal⟩ := Reference.evaluate_upholds hempty hok i.machine.limit 0 i.machine.output
  have hafter := Reference.evaluate_ok hempty hok i.machine.limit 0 i.machine.output
  rw [hrefines] at hvalue hglobal hafter
  refine ⟨fun c hc => ?_, hafter⟩
  rcases hc with ⟨v, hv, hreach⟩ | ⟨bindings, hbindings, b, hb, hreach⟩
  · have hread : (i.run p).1.map (i.run p).2.machine.store.read = .ok ((i.run p).2.machine.store.read v) := by
      rw [hv]
      rfl
    exact (hreach.fits hsealed.ordered (howns v hv) (hvalue _ hread)).2
  · have hbound := hglobal _ (List.mem_map_of_mem hbindings) (b.1, _) (List.mem_map_of_mem hb)
    have hglobalOwns := hsealed.ownsAll (fun _ _ => trivial) bindings hbindings b hb
    exact (hreach.fits hsealed.ordered hglobalOwns hbound).2

/-- Every closure found after a run, in the result or from the global scope on, is made of a function literal that
stands in the program: it has its parameters and its body, and the chain it captured has, inside the global scope, one
scope for each literal around its own. That scope binds only parameters of the literal and names of `let`s that stand in
its body outside other literals; the global scope, captured or not, binds only names of `let`s outside all literals. An
interpreter that has run nothing else shows this of programs without an expression, too. -/
theorem scope_chains_mirror_text (i : Interpreter) (k : Caller) (hsession : Caller.Session i k) (p : Program)
    (hnew : p.expression.isAbsent → ∃ output depth, i = new output depth) :
    (∀ c, (i.run p).2.Exposes (i.run p).1 c →
      ∃ around loc params, p.expression.Occurs around (.function loc params c.body) ∧
        c.params = params.map Parameter.text ∧
        ((i.run p).2.machine.store.env c.scope).depth = around.length ∧
        Mirrors ((i.run p).2.machine.store.env c.scope) (p.expression.chainNames around)) ∧
    Mirrors ((i.run p).2.env (some (i.run p).2.global)) [p.expression.letNames] := by
  by_cases hp : p.expression.isAbsent
  · obtain ⟨output, depth, rfl⟩ := hnew hp
    have henv : (new output depth).env (some (new output depth).global) = [[]] := rfl
    rw [run_absent hp]
    refine ⟨fun c hc => ?_, ?_⟩
    · rcases hc with ⟨v, hv, -⟩ | ⟨bindings, hbindings, b, hb, -⟩
      · cases hv
      · rw [henv] at hbindings
        rw [List.mem_singleton.mp hbindings] at hb
        cases hb
    · rw [henv]
      exact .cons (by rintro b ⟨⟩) .nil
  · have hok : (Reference.Discipline.mirror p.expression).ok [] [[]] p.expression :=
      ⟨.root, .cons (by rintro b ⟨⟩) .nil⟩
    obtain ⟨hclosures, hglobal⟩ := run_fits hsession hp hok
    refine ⟨fun c hc => ?_, Store.mirrors_contents hglobal.2⟩
    obtain ⟨⟨around, loc, params, hparams, hoccurs, hmirrors⟩, -⟩ := (hclosures c hc).of_closure
    have hchain := Store.mirrors_contents hmirrors
    have hlength : ((i.run p).2.machine.store.env c.scope).length = around.length + 1 := by
      rw [hchain.length_eq, Term.chainNames, List.length_append, List.length_map, List.length_singleton]
    exact ⟨around, loc, params, hoccurs, hparams, by rw [Env.depth, hlength, Nat.add_sub_cancel], hchain⟩

/-- `let f = fn (self, last) => if (last) { fn () => last } else { self(self, true) }; f(f, false)` -/
def calledAgain : Program :=
  .inline (.letIn .unknown ⟨"f", .unknown⟩
    (.function .unknown [⟨"self", .unknown⟩, ⟨"last", .unknown⟩]
      (.ite .unknown (.var .unknown "last") (.function .unknown [] (.var .unknown "last"))
        (.call .unknown (.var .unknown "self") [.var .unknown "self", .bool .unknown true] true)))
    (.call .unknown (.var .unknown "f") [.var .unknown "f", .bool .unknown false] true))

theorem scope_chains_mirror_text_calledAgain :
    ∃ c, ((new .unlimited 0).run calledAgain).1 = .ok (.closure c) ∧
      (((new .unlimited 0).run calledAgain).2.machine.store.env c.scope).depth = 1 ∧
      ∃ around loc params, calledAgain.expression.Occurs around (.function loc params c.body) ∧
        c.params = params.map Parameter.text ∧
        (((new .unlimited 0).run calledAgain).2.machine.store.env c.scope).depth = around.length ∧
        Mirrors (((new .unlimited 0).run calledAgain).2.machine.store.env c.scope)
          (calledAgain.expression.chainNames around) := by
  obtain ⟨c, hrun, hdepth⟩ : ∃ c, ((new .unlimited 0).run calledAgain).1 = .ok (.closure c) ∧
      (((new .unlimited 0).run calledAgain).2.machine.store.env c.scope).depth = 1 := by decide +kernel
  refine ⟨c, hrun, hdepth, ?_⟩
  apply (scope_chains_mirror_text _ _ (.new .unlimited 0) calledAgain (by rintro ⟨⟩)).1
  exact .inl ⟨_, hrun, .held List.mem_cons_self⟩

end Interpreter

end TreeWalk
