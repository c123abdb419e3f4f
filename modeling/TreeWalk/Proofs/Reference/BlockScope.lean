import Mathlib.Data.List.Forall2
import TreeWalk.Proofs.Reference.Block
import TreeWalk.Proofs.Reference.Refinement
import TreeWalk.Proofs.Syntax.Binders

/-!
# Where `let`s shadow nothing, blocks make no difference

The reference semantics keeps in the innermost scope what a `let` has bound, block-scoped evaluation forgets it. If no
`let` binds a name that is in scope where it stands, the names in scope keep their values all the same: what is left
behind has other names. So both give similar values to every term, and print the same.
-/

namespace TreeWalk

theorem rel_iff {α β : Type} {R : α → β → Prop} {a : Option α} {b : Option β} :
    Option.Rel R a b ↔ (a = none ↔ b = none) ∧ ∀ v w, a = some v → b = some w → R v w := by
  cases a with
  | none =>
    cases b with
    | none => exact ⟨fun _ => ⟨⟨fun _ => rfl, fun _ => rfl⟩, nofun⟩, fun _ => .none⟩
    | some w => exact ⟨nofun, fun h => absurd (h.1.mp rfl) nofun⟩
  | some v =>
    cases b with
    | none => exact ⟨nofun, fun h => absurd (h.1.mpr rfl) nofun⟩
    | some w =>
      refine ⟨fun h => ⟨⟨nofun, nofun⟩, ?_⟩, fun h => .some (h.2 v w rfl rfl)⟩
      rintro _ _ ⟨⟩ ⟨⟩
      cases h with
      | some hvw => exact hvw

namespace Reference

/-- Equal scalars, pairs of values of the same shape, or closures of one function. -/
inductive SameShape : Value → Value → Prop
  | absent : SameShape .absent .absent
  | int (n : Int64) : SameShape (.int n) (.int n)
  | str (s : ByteArray) : SameShape (.str s) (.str s)
  | bool (b : Bool) : SameShape (.bool b) (.bool b)
  | pair {a b a' b' : Value} (ha : SameShape a a') (hb : SameShape b b') : SameShape (.pair a b) (.pair a' b')
  | closure (params : List String) (body : Term) (env env' : Env) :
    SameShape (.closure params body env) (.closure params body env')

namespace SameShape

variable {v w l l' r r' : Value}

theorem kind?_eq (h : SameShape v w) : v.kind? = w.kind? := by
  cases h <;> rfl

theorem format_eq (h : SameShape v w) : v.format = w.format := by
  induction h with
  | pair _ _ iha ihb => rw [Value.format, Value.format, iha, ihb]
  | _ => rfl

theorem operate_eq (hl : SameShape l l') (hr : SameShape r r') (loc : Location) (op : Operator) :
    operate loc op l r = operate loc op l' r' := by
  cases hl with
  | pair | closure => cases hr <;> cases op <;> rfl
  | absent | int | str | bool =>
    cases hr with
    | pair | closure => cases op <;> rfl
    | _ => rfl

end SameShape

namespace Env

variable {R : Value → Value → Prop} {scope scope' : Bindings} {outer outer' : Env} {x : String}

theorem rel_define {v v' : Value} (hv : R v v') {name : String}
    (h : x ≠ name → Option.Rel R (lookup? (scope :: outer) x) (lookup? (scope' :: outer') x)) :
    Option.Rel R (lookup? (((name, v) :: scope) :: outer) x) (lookup? (((name, v') :: scope') :: outer') x) := by
  rw [lookup?_define, lookup?_define]
  by_cases hx : x = name
  · rw [if_pos hx, if_pos hx]
    exact .some hv
  · rw [if_neg hx, if_neg hx]
    exact h hx

/-- Frames with related values for the same names, inside environments that agree on the name unless it is one of
these. -/
theorem rel_frame {frame frame' : Bindings} {env env' : Env}
    (hframe : List.Forall₂ (fun b b' => b.1 = b'.1 ∧ R b.2 b'.2) frame frame')
    (h : x ∉ frame.map Prod.fst → Option.Rel R (env.lookup? x) (env'.lookup? x)) :
    Option.Rel R (lookup? (frame :: env) x) (lookup? (frame' :: env') x) := by
  induction hframe with
  | nil => exact h List.not_mem_nil
  | @cons b b' frame frame' hb _ ih =>
    obtain ⟨name, v⟩ := b
    obtain ⟨_, v'⟩ := b'
    obtain ⟨rfl, hv⟩ := hb
    refine rel_define hv fun hx => ih fun hmem => h ?_
    rw [List.map_cons, List.mem_cons, not_or]
    exact ⟨hx, hmem⟩

end Env

theorem zip_related {R : Value → Value → Prop} (params : List String) {values values' : List Value}
    (h : List.Forall₂ R values values') :
    List.Forall₂ (fun b b' => b.1 = b'.1 ∧ R b.2 b'.2) (params.zip values) (params.zip values') := by
  induction h generalizing params with
  | nil => simp
  | cons hv _ ih =>
    cases params with
    | nil => exact .nil
    | cons name params => exact .cons ⟨rfl, hv⟩ (ih params)

/-- Values that the two ways of evaluation find for one term: closures have a common function, in which no `let`
shadows anything, and similar values for the names that are in scope there. -/
inductive Similar : Value → Value → Prop
  | absent : Similar .absent .absent
  | int (n : Int64) : Similar (.int n) (.int n)
  | str (s : ByteArray) : Similar (.str s) (.str s)
  | bool (b : Bool) : Similar (.bool b) (.bool b)
  | pair {a b a' b' : Value} (ha : Similar a a') (hb : Similar b b') : Similar (.pair a b) (.pair a' b')
  | closure {params : List String} {body : Term} {env env' : Env} (names : List String)
    (wellScoped : body.WellScoped (params ++ names)) (unshadowed : body.Unshadowed (params ++ names))
    (missing : ∀ x ∈ names, (env.lookup? x = none ↔ env'.lookup? x = none))
    (found : ∀ x ∈ names, ∀ v w, env.lookup? x = some v → env'.lookup? x = some w → Similar v w) :
    Similar (.closure params body env) (.closure params body env')

theorem Similar.sameShape {v w : Value} (h : Similar v w) : SameShape v w := by
  induction h with
  | absent => exact .absent
  | int n => exact .int n
  | str s => exact .str s
  | bool b => exact .bool b
  | pair _ _ iha ihb => exact .pair iha ihb
  | closure => exact .closure _ _ _ _

theorem Similar.of_operate {loc : Location} {op : Operator} {l r v : Value} (h : operate loc op l r = .ok v) :
    Similar v v := by
  unfold operate at h
  split at h <;> (try split at h) <;> cases h <;> constructor

/-- The environments have similar values for the names in scope. -/
def InScope (names : List String) (env env' : Env) : Prop :=
  ∀ x ∈ names, Option.Rel Similar (env.lookup? x) (env'.lookup? x)

variable {names : List String} {outer env : Env} {scope : Bindings} {α β γ δ : Type}

namespace InScope

theorem define (h : InScope names (scope :: outer) env) (name : String) {v w : Value} (hv : Similar v w) :
    InScope (name :: names) (((name, v) :: scope) :: outer) ([(name, w)] :: env) := by
  intro x hx
  refine Env.rel_define hv fun hne => ?_
  rw [Env.lookup?_cons [] env]
  exact h x ((List.mem_cons.mp hx).resolve_left hne)

/-- A name that was not in scope before goes out of scope. -/
theorem forget {name : String} {w : Value} (h : InScope (name :: names) (scope :: outer) ([(name, w)] :: env))
    (hname : name ∉ names) : InScope names (scope :: outer) env := by
  intro x hx
  have hne : x ≠ name := fun heq => hname (heq ▸ hx)
  have hrel := h x (List.mem_cons_of_mem name hx)
  rw [Env.lookup?_define, if_neg hne, Env.lookup?_cons [] env] at hrel
  exact hrel

end InScope

/-- Run from `st`, `x` has the result and the output that `y` has, and keeps what is in scope. -/
structure Follows (names : List String) (outer env : Env) (st : State) (R : α → β → Prop) (x : Eval α)
    (y : Block.Eval β) : Prop where
  result : Matches R (x.run st).1 (y.run st.output).1
  output : (x.run st).2.output = (y.run st.output).2
  inScope : InScope names ((x.run st).2.scope :: outer) env

namespace Follows

variable {st : State} {R : α → β → Prop} {R' : γ → δ → Prop}

theorem pure {a : α} {b : β} (h : InScope names (st.scope :: outer) env) (hab : R a b) :
    Follows names outer env st R (Pure.pure a) (Pure.pure b) := ⟨hab, rfl, h⟩

theorem fail (h : InScope names (st.scope :: outer) env) (f : Fault) :
    Follows names outer env st R (Eval.fail f) (Block.Eval.fail f) := ⟨rfl, rfl, h⟩

theorem of_runs {x : Eval α} {y : Block.Eval β} {r : Except Failure α} {r' : Except Failure β} {st' : State}
    {output : Output} (hx : x.run st = (r, st')) (hy : y.run st.output = (r', output)) (hr : Matches R r r')
    (houtput : st'.output = output) (h : InScope names (st'.scope :: outer) env) :
    Follows names outer env st R x y := by
  refine ⟨?_, ?_, ?_⟩
  · rw [hx, hy]
    exact hr
  · rw [hx, hy]
    exact houtput
  · rw [hx]
    exact h

theorem bind {x : Eval α} {y : Block.Eval β} {f : α → Eval γ} {g : β → Block.Eval δ}
    (hxy : Follows names outer env st R x y)
    (hf : ∀ a b st', R a b → InScope names (st'.scope :: outer) env → Follows names outer env st' R' (f a) (g b)) :
    Follows names outer env st R' (x >>= f) (y >>= g) := by
  obtain ⟨hresult, houtput, hscope⟩ := hxy
  rcases hx : x.run st with ⟨e | a, st₁⟩ <;> rcases hy : y.run st.output with ⟨e' | b, output⟩ <;>
    rw [hx, hy] at hresult houtput <;> rw [hx] at hscope
  · exact .of_runs (Eval.run_bind_error hx) (Block.Eval.run_bind_error hy) hresult houtput hscope
  · exact hresult.elim
  · exact hresult.elim
  · obtain rfl : st₁.output = output := houtput
    obtain ⟨hresult', houtput', hscope'⟩ := hf a b st₁ hresult hscope
    exact .of_runs (Eval.run_bind_ok hx) (Block.Eval.run_bind_ok hy) hresult' houtput' hscope'

theorem after {x : Eval α} {f : α → Eval γ} {y : Block.Eval δ} {a : α} {st' : State} (hx : x.run st = (.ok a, st'))
    (houtput : st'.output = st.output) (hf : Follows names outer env st' R' (f a) y) :
    Follows names outer env st R' (x >>= f) y := by
  obtain ⟨hresult, hout, hscope⟩ := hf
  rw [houtput] at hresult hout
  exact .of_runs (Eval.run_bind_ok hx) rfl hresult hout hscope

theorem refuse (h : InScope names (st.scope :: outer) env) {v w : Value} (hv : Similar v w) (f : Kind → Fault) :
    Follows names outer env st R (do Eval.fail (f (← Eval.kindOf v)))
      (do Block.Eval.fail (f (← Block.Eval.kindOf w))) := by
  have hkind : Follows names outer env st Eq (Eval.kindOf v) (Block.Eval.kindOf w) := by
    refine .of_runs (Eval.run_kindOf v st) (Block.Eval.run_kindOf w st.output) ?_ rfl h
    rw [hv.sameShape.kind?_eq]
    cases w.kind? <;> rfl
  refine hkind.bind fun k k' st' hk h' => ?_
  subst hk
  exact .fail h' _

theorem print (h : InScope names (st.scope :: outer) env) (loc : Location) {v w : Value} (hv : Similar v w) :
    Follows names outer env st (fun _ _ => True) (Eval.print loc v) (Block.Eval.print loc w) := by
  have hformat := hv.sameShape.format_eq
  cases hw : st.output.write? (w.format ++ "\n".toUTF8) with
  | none =>
    have hrun : (Eval.print loc v).run st = (.error (.output loc st.output.complaint), st) := by
      rw [Eval.run_print, hformat, hw]
    have hrun' : (Block.Eval.print loc w).run st.output = (.error (.output loc st.output.complaint), st.output) := by
      rw [Block.Eval.run_print, hw]
    exact .of_runs hrun hrun' rfl rfl h
  | some output =>
    have hrun : (Eval.print loc v).run st = (.ok (), { st with output }) := by
      rw [Eval.run_print, hformat, hw]
    have hrun' : (Block.Eval.print loc w).run st.output = (.ok (), output) := by
      rw [Block.Eval.run_print, hw]
    exact .of_runs hrun hrun' trivial rfl h

end Follows

/-- The body of a closure gives similar values, and the same output, wherever it is evaluated with its names in
scope. -/
def Entry.Follows (entry : Entry) (entry' : Block.Entry) : Prop :=
  ∀ names loc body frame outer env output, body.WellScoped names → body.Unshadowed names →
    InScope names (frame :: outer) env →
      Matches Similar (entry loc body frame outer output).1 ((entry' loc body env).run output).1 ∧
      (entry loc body frame outer output).2 = ((entry' loc body env).run output).2

/-- Wherever its names are in scope and its `let`s shadow none of them, the term is evaluated alike. -/
def Blockwise (entry : Entry) (entry' : Block.Entry) (t : Term) : Prop :=
  ∀ names outer env st, t.WellScoped names → t.Unshadowed names → InScope names (st.scope :: outer) env →
    Follows names outer env st Similar (evalWith entry outer t) (Block.evalWith entry' env t)

section

variable {entry : Entry} {entry' : Block.Entry} {st : State}

theorem Blockwise.bind {t : Term} {R : γ → δ → Prop} {f : Value → Eval γ} {g : Value → Block.Eval δ}
    (ht : Blockwise entry entry' t) (hscoped : t.WellScoped names) (hclear : t.Unshadowed names)
    (h : InScope names (st.scope :: outer) env)
    (hf : ∀ v w st', Similar v w → InScope names (st'.scope :: outer) env → Follows names outer env st' R (f v) (g w)) :
    Follows names outer env st R (evalWith entry outer t >>= f) (Block.evalWith entry' env t >>= g) :=
  (ht names outer env st hscoped hclear h).bind hf

theorem evalArgs_follows (args : List Term) (hargs : ∀ arg ∈ args, Blockwise entry entry' arg)
    (hscoped : ∀ arg ∈ args, arg.WellScoped names) (hclear : ∀ arg ∈ args, arg.Unshadowed names)
    (h : InScope names (st.scope :: outer) env) :
    Follows names outer env st
      (fun values values' => values.length = args.length ∧ List.Forall₂ Similar values values')
      (evalArgs entry outer args) (Block.evalArgs entry' env args) := by
  induction args generalizing st with
  | nil =>
    rw [evalArgs, Block.evalArgs]
    exact .pure h ⟨rfl, .nil⟩
  | cons arg args ih =>
    rw [List.forall_mem_cons] at hargs hscoped hclear
    rw [evalArgs, Block.evalArgs]
    refine hargs.1.bind hscoped.1 hclear.1 h fun v w st₁ hv h₁ => ?_
    refine (ih hargs.2 hscoped.2 hclear.2 h₁).bind fun values values' st₂ hvalues h₂ => .pure h₂ ⟨?_, .cons hv hvalues.2⟩
    rw [List.length_cons, List.length_cons, hvalues.1]

theorem InScope.frame {params : List String} {values values' : List Value} {captured captured' : Env}
    (hmissing : ∀ x ∈ names, (captured.lookup? x = none ↔ captured'.lookup? x = none))
    (hfound : ∀ x ∈ names, ∀ v w, captured.lookup? x = some v → captured'.lookup? x = some w → Similar v w)
    (hlength : params.length = values.length) (hvalues : List.Forall₂ Similar values values') :
    InScope (params ++ names) ((params.zip values).reverse :: captured) ((params.zip values').reverse :: captured') := by
  intro x hx
  refine Env.rel_frame (List.forall₂_reverse_iff.mpr (zip_related params hvalues)) fun hparam => ?_
  rw [List.map_reverse, List.map_fst_zip (Nat.le_of_eq hlength), List.mem_reverse] at hparam
  have hname := (List.mem_append.mp hx).resolve_left hparam
  exact rel_iff.mpr ⟨hmissing x hname, hfound x hname⟩

theorem call_blockwise (hentry : entry.Follows entry') (loc : Location) (callee : Term) (args : List Term)
    (listed : Bool) (hcallee : Blockwise entry entry' callee) (hargs : ∀ arg ∈ args, Blockwise entry entry' arg) :
    Blockwise entry entry' (.call loc callee args listed) := by
  intro names outer env st hscoped hclear h
  rw [Term.WellScoped, Term.allWellScoped_iff] at hscoped
  rw [Term.Unshadowed, Term.allUnshadowed_iff] at hclear
  rw [evalWith, Block.evalWith]
  refine hcallee.bind hscoped.1 hclear.1 h fun v w st₁ hv h₁ => ?_
  cases hv with
  | @closure params body captured captured' inner hbody hbodyClear hmissing hfound =>
    dsimp only
    split
    · exact .fail h₁ _
    · next harity =>
      refine (evalArgs_follows args hargs hscoped.2 hclear.2 h₁).bind fun values values' st₂ hvalues h₂ => ?_
      have hlength : params.length = values.length := (not_ne_iff.mp harity).symm.trans hvalues.1.symm
      obtain ⟨hresult, houtput⟩ := hentry _ loc body _ _ _ st₂.output hbody hbodyClear
        (InScope.frame hmissing hfound hlength hvalues.2)
      exact .of_runs (Eval.run_elsewhere _ st₂) rfl hresult houtput h₂
  | _ => exact .refuse h₁ (by constructor <;> assumption) _

theorem evalWith_blockwise (hentry : entry.Follows entry') (t : Term) : Blockwise entry entry' t := by
  induction t using Term.inductionOn with
  | absent => exact fun names outer env st _ _ h => .fail h _
  | int loc n => exact fun names outer env st _ _ h => .pure h (.int n)
  | str loc s => exact fun names outer env st _ _ h => .pure h (.str s)
  | bool loc b => exact fun names outer env st _ _ h => .pure h (.bool b)
  | error loc message fullText => exact fun names outer env st _ _ h => .fail h _
  | var loc name =>
    intro names outer env st hscoped _ h
    rw [Term.WellScoped] at hscoped
    have hname := h name hscoped
    rw [evalWith, Block.evalWith]
    refine .after rfl rfl ?_
    generalize Env.lookup? (st.scope :: outer) name = found at hname ⊢
    generalize env.lookup? name = found' at hname ⊢
    cases hname with
    | some hv => exact .pure h hv
    | none => exact .fail h _
  | binary loc lhs op rhs ihl ihr =>
    intro names outer env st hscoped hclear h
    rw [Term.WellScoped] at hscoped
    rw [Term.Unshadowed] at hclear
    rw [evalWith, Block.evalWith]
    refine ihl.bind hscoped.1 hclear.1 h fun l l' st₁ hl h₁ => ?_
    refine ihr.bind hscoped.2 hclear.2 h₁ fun r r' st₂ hr h₂ => ?_
    rw [hl.sameShape.operate_eq hr.sameShape]
    refine .of_runs (Eval.run_liftExcept _ st₂) (Block.Eval.run_liftExcept _ st₂.output) ?_ rfl h₂
    cases hoperate : operate loc op l' r' with
    | error e => rfl
    | ok v => exact .of_operate hoperate
  | letIn loc name value next ihv ihn =>
    intro names outer env st hscoped hclear h
    rw [Term.WellScoped] at hscoped
    obtain ⟨hname, hvalue, hnext⟩ := hclear
    rw [evalWith, Block.evalWith]
    refine ihv.bind hscoped.1 hvalue h fun v w st₁ hv h₁ => ?_
    -- the name stays in the innermost scope of the one environment, where nothing in scope has that name
    obtain ⟨hresult, houtput, hscope⟩ :=
      ihn (name.text :: names) outer ([(name.text, w)] :: env) { st₁ with scope := (name.text, v) :: st₁.scope }
        hscoped.2 hnext (h₁.define name.text hv)
    exact .after rfl rfl ⟨hresult, houtput, hscope.forget hname⟩
  | function loc params body _ =>
    intro names outer env st hscoped hclear h
    rw [Term.WellScoped] at hscoped
    rw [Term.Unshadowed] at hclear
    rw [evalWith, Block.evalWith]
    refine .after rfl rfl (.pure h (.closure names hscoped hclear ?_ ?_))
    · exact fun x hx => (rel_iff.mp (h x hx)).1
    · exact fun x hx => (rel_iff.mp (h x hx)).2
  | call loc callee args listed ihc iha => exact call_blockwise hentry loc callee args listed ihc iha
  | ite loc c t e ihc iht ihe =>
    intro names outer env st hscoped hclear h
    rw [Term.WellScoped] at hscoped
    rw [Term.Unshadowed] at hclear
    rw [evalWith, Block.evalWith]
    refine ihc.bind hscoped.1 hclear.1 h fun v w st₁ hv h₁ => ?_
    cases hv with
    | bool b => cases b with
      | true => exact iht names outer env st₁ hscoped.2.1 hclear.2.1 h₁
      | false => exact ihe names outer env st₁ hscoped.2.2 hclear.2.2 h₁
    | _ => exact .refuse h₁ (by constructor <;> assumption) _
  | tuple loc a b iha ihb =>
    intro names outer env st hscoped hclear h
    rw [Term.WellScoped] at hscoped
    rw [Term.Unshadowed] at hclear
    rw [evalWith, Block.evalWith]
    refine iha.bind hscoped.1 hclear.1 h fun x x' st₁ hx h₁ => ?_
    exact ihb.bind hscoped.2 hclear.2 h₁ fun y y' st₂ hy h₂ => .pure h₂ (.pair hx hy)
  | first loc t ih =>
    intro names outer env st hscoped hclear h
    rw [Term.WellScoped] at hscoped
    rw [Term.Unshadowed] at hclear
    rw [evalWith, Block.evalWith]
    refine ih.bind hscoped hclear h fun v w st₁ hv h₁ => ?_
    cases hv with
    | pair ha hb => exact .pure h₁ ha
    | _ => exact .refuse h₁ (by constructor <;> assumption) _
  | second loc t ih =>
    intro names outer env st hscoped hclear h
    rw [Term.WellScoped] at hscoped
    rw [Term.Unshadowed] at hclear
    rw [evalWith, Block.evalWith]
    refine ih.bind hscoped hclear h fun v w st₁ hv h₁ => ?_
    cases hv with
    | pair ha hb => exact .pure h₁ hb
    | _ => exact .refuse h₁ (by constructor <;> assumption) _
  | print loc t ih =>
    intro names outer env st hscoped hclear h
    rw [Term.WellScoped] at hscoped
    rw [Term.Unshadowed] at hclear
    rw [evalWith, Block.evalWith]
    refine ih.bind hscoped hclear h fun v w st₁ hv h₁ => ?_
    exact (Follows.print h₁ loc hv).bind fun _ _ st₂ _ h₂ => .pure h₂ hv

end

theorem enter_follows (limit levels : Nat) : Entry.Follows (enter limit levels) (Block.enter limit levels) := by
  induction levels with
  | zero => exact fun names loc body frame outer env output _ _ _ => ⟨rfl, rfl⟩
  | succ levels ih =>
    intro names loc body frame outer env output hscoped hclear h
    have hfollows := evalWith_blockwise ih body names outer env ⟨frame, output⟩ hscoped hclear h
    rw [enter_succ]
    exact ⟨hfollows.result, hfollows.output⟩

end Reference

end TreeWalk
