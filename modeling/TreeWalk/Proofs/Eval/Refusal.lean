import TreeWalk.Proofs.Eval.Growth
import TreeWalk.Proofs.Eval.Part

/-!
# Outputs that refuse writes

Two evaluations of a term from the same machine, one with an output that takes every write and one with an
output that takes only so many, go the same way until the second output is full. If the first evaluation
writes no more than the second output takes, the two end alike. Otherwise the second evaluation ends where the
first makes the write that is one too many.
-/

namespace TreeWalk

namespace Output

/-- The output that accepts writes until there are `total`. -/
def upTo (out : Output) (total : Nat) : Output := { out with room := some (total - out.writes.length) }

theorem write?_of_room {out : Output} (h : out.room = none) (bytes : ByteArray) :
    out.write? bytes = some { out with writes := bytes :: out.writes } := by
  rw [write?, h]

theorem write?_upTo_of_lt {out : Output} {total : Nat} (h : out.writes.length < total) (bytes : ByteArray) :
    (out.upTo total).write? bytes = some (Output.upTo { out with writes := bytes :: out.writes } total) := by
  obtain ⟨n, hn⟩ : ∃ n, total - out.writes.length = n + 1 := ⟨total - out.writes.length - 1, by omega⟩
  have hleft : total - (bytes :: out.writes).length = n := by
    rw [List.length_cons]
    omega
  simp only [write?, upTo, hn, hleft]

theorem write?_upTo_of_le {out : Output} {total : Nat} (h : total ≤ out.writes.length) (bytes : ByteArray) :
    (out.upTo total).write? bytes = none := by
  simp only [write?, upTo, Nat.sub_eq_zero_of_le h]

/-- Writes were added to the first output, which otherwise is the second. -/
structure Later (out out' : Output) : Prop where
  writes : out.writes <:+ out'.writes
  room : out.room = none → out'.room = none
  complaint : out'.complaint = out.complaint

theorem Later.refl (out : Output) : out.Later out := ⟨List.suffix_refl _, id, rfl⟩

theorem Later.trans {a b c : Output} (hab : a.Later b) (hbc : b.Later c) : a.Later c :=
  ⟨hab.writes.trans hbc.writes, fun h => hbc.room (hab.room h), hbc.complaint.trans hab.complaint⟩

theorem Later.write {out out' : Output} {bytes : ByteArray} (h : out.write? bytes = some out') : out.Later out' := by
  unfold write? at h
  split at h
  · cases h
    exact ⟨List.suffix_cons _ _, id, rfl⟩
  · cases h
  · next hroom =>
    cases h
    refine ⟨List.suffix_cons _ _, fun hnone => ?_, rfl⟩
    rw [hnone] at hroom
    cases hroom

end Output

namespace Machine

def upTo (m : Machine) (total : Nat) : Machine := { m with output := m.output.upTo total }

/-- From `m` to `m'` writes were added to the output, and the depth is what it was. -/
structure Pours (m m' : Machine) : Prop where
  output : m.output.Later m'.output
  depth : m'.depth = m.depth

theorem Pours.trans {a b c : Machine} (hab : a.Pours b) (hbc : b.Pours c) : a.Pours c :=
  ⟨hab.output.trans hbc.output, hbc.depth.trans hab.depth⟩

theorem pours_stepwise : Stepwise Pours where
  refl m := ⟨.refl _, rfl⟩
  trans hab hbc := hab.trans hbc
  capture m id := ⟨.refl _, rfl⟩
  extend m id := ⟨.refl _, rfl⟩
  define m id name v := ⟨.refl _, rfl⟩
  write m bytes output h := ⟨.write h, rfl⟩
  level m m' h := by
    refine ⟨h.output, ?_⟩
    change m'.depth - 1 = m.depth
    rw [h.depth]
    rfl

end Machine

namespace Point

/-- The line for `v` is about to be written at the first point, on the machine `m`. -/
inductive Attempts : Point → Location → Value → Machine → Prop
  | intro {n loc t h m₀ v m} (e : result ⟨n, t, h, m₀⟩ = (.ok v, m)) : Attempts ⟨n, .print loc t, h, m₀⟩ loc v m

def Tries (p : Point) (loc : Location) (v : Value) (m : Machine) : Prop :=
  ∃ q, p.Visits q ∧ q.Attempts loc v m

theorem Tries.of_next {p q : Point} (h : p.Next q) {loc : Location} {v : Value} {m : Machine}
    (hq : q.Tries loc v m) : p.Tries loc v m := by
  obtain ⟨r, hvisits, hr⟩ := hq
  exact ⟨r, hvisits.head h, hr⟩

end Point

/-- Run from `m`, `x` writes within `total`, and does the same with an output that takes `total` writes; or it goes
beyond, and then ends with that output at an attempt that satisfies `R`, made when there are `total` writes. -/
structure Cut {α : Type} (R : Location → Value → Machine → Prop) (total : Nat) (m : Machine) (x : Eval α) : Prop where
  same : (x.run m).2.output.writes.length ≤ total → x.run (m.upTo total) = ((x.run m).1, (x.run m).2.upTo total)
  refused : m.output.writes.length ≤ total → total < (x.run m).2.output.writes.length →
    ∃ loc v m', R loc v m' ∧ m'.output.writes.length = total ∧
      (v.format ++ "\n".toUTF8) :: m'.output.writes <:+ (x.run m).2.output.writes ∧
      x.run (m.upTo total) = (.error (.output loc m.output.complaint), { m'.upTo total with depth := m.depth })

namespace Cut

variable {α β : Type} {R : Location → Value → Machine → Prop} {total : Nat} {m : Machine}

theorem of_eq {x : Eval α} (h : x.run (m.upTo total) = ((x.run m).1, (x.run m).2.upTo total))
    (hwrites : (x.run m).2.output = m.output) : Cut R total m x := by
  refine ⟨fun _ => h, fun hle hlt => ?_⟩
  rw [hwrites] at hlt
  omega

theorem bind {x : Eval α} {f : α → Eval β} (hx : Cut R total m x) (hpours : Along Machine.Pours x)
    (hf : ∀ a m₁, x.run m = (.ok a, m₁) → m.Pours m₁ → Cut R total m₁ (f a))
    (hfpours : ∀ a, Along Machine.Pours (f a)) : Cut R total m (x >>= f) := by
  have hstep := hpours m
  rcases hr : x.run m with ⟨e | a, m₁⟩
  · have hrun : (x >>= f).run m = (.error e, m₁) := Eval.run_bind_error hr
    have hsame := hx.same
    have hrefused := hx.refused
    rw [hr] at hsame hrefused
    constructor
    · rw [hrun]
      exact fun hle => Eval.run_bind_error (hsame hle)
    · rw [hrun]
      intro hle hlt
      obtain ⟨loc, v, m', hR, hlength, hsuffix, hcut⟩ := hrefused hle hlt
      exact ⟨loc, v, m', hR, hlength, hsuffix, Eval.run_bind_error hcut⟩
  · have hrun : (x >>= f).run m = (f a).run m₁ := Eval.run_bind_ok hr
    have hsame := hx.same
    have hrefused := hx.refused
    rw [hr] at hsame hrefused hstep
    have hrest := hf a m₁ hr hstep
    have hgrows := (hfpours a m₁).output.writes
    constructor
    · rw [hrun]
      intro hle
      have hfirst := hsame (Nat.le_trans hgrows.length_le hle)
      rw [Eval.run_bind_ok hfirst]
      exact hrest.same hle
    · rw [hrun]
      intro hle hlt
      -- the write that is one too many is made after `x` or in it
      by_cases hfull : m₁.output.writes.length ≤ total
      · obtain ⟨loc, v, m', hR, hlength, hsuffix, hcut⟩ := hrest.refused hfull hlt
        refine ⟨loc, v, m', hR, hlength, hsuffix, ?_⟩
        rw [Eval.run_bind_ok (hsame hfull), hcut, hstep.output.complaint, hstep.depth]
      · obtain ⟨loc, v, m', hR, hlength, hsuffix, hcut⟩ := hrefused hle (Nat.not_le.mp hfull)
        exact ⟨loc, v, m', hR, hlength, hsuffix.trans hgrows, Eval.run_bind_error hcut⟩

theorem refuse (v : Value) (f : Kind → Fault) : Cut R total m (do Eval.fail (f (← Eval.kindOf v)) : Eval α) := by
  apply of_eq
  · rw [Eval.run_bind, Eval.run_bind, Eval.run_kindOf, Eval.run_kindOf]
    cases v.kind? <;> rfl
  · rw [Eval.run_bind, Eval.run_kindOf]
    cases v.kind? <;> rfl

theorem print (hroom : m.output.room = none) (loc : Location) (v : Value) (hR : R loc v m) :
    Cut R total m (Eval.print loc v) := by
  have hfree : (Eval.print loc v).run m =
      (.ok (), { m with output := { m.output with writes := (v.format ++ "\n".toUTF8) :: m.output.writes } }) := by
    rw [Eval.run_print, Output.write?_of_room hroom]
  constructor
  · rw [hfree]
    intro hle
    rw [List.length_cons] at hle
    have hwrite : (m.upTo total).output.write? (v.format ++ "\n".toUTF8) = some _ := Output.write?_upTo_of_lt hle _
    rw [Eval.run_print, hwrite]
    rfl
  · rw [hfree]
    intro hle hlt
    rw [List.length_cons] at hlt
    have hlength : m.output.writes.length = total := by omega
    have hrefused : (m.upTo total).output.write? (v.format ++ "\n".toUTF8) = none :=
      Output.write?_upTo_of_le (Nat.le_of_eq hlength.symm) _
    refine ⟨loc, v, m, hR, hlength, List.suffix_refl _, ?_⟩
    rw [Eval.run_print, hrefused]
    rfl

theorem ok {x : Eval α} (hx : Cut R total m x) {a : α} {m' : Machine} (h : x.run m = (.ok a, m'))
    (hle : m'.output.writes.length ≤ total) : x.run (m.upTo total) = (.ok a, m'.upTo total) := by
  have hsame := hx.same
  rw [h] at hsame
  exact hsame hle

theorem of_ok {x : Eval α} (hx : Cut R total m x) (hle : m.output.writes.length ≤ total) {a : α} {m' : Machine}
    (h : x.run (m.upTo total) = (.ok a, m')) :
    ∃ m₁, x.run m = (.ok a, m₁) ∧ m' = m₁.upTo total ∧ m₁.output.writes.length ≤ total := by
  by_cases hfit : (x.run m).2.output.writes.length ≤ total
  · have hsame := hx.same hfit
    rw [h] at hsame
    obtain ⟨hok, hmachine⟩ := Prod.mk.inj hsame
    exact ⟨(x.run m).2, Prod.ext hok.symm rfl, hmachine, hfit⟩
  · obtain ⟨_, _, _, _, _, _, hcut⟩ := hx.refused hle (Nat.not_le.mp hfit)
    rw [h] at hcut
    cases hcut

end Cut

namespace Point

/-- Evaluation of the term is cut at one of its own attempts to write. -/
def IsCut (n total : Nat) (t : Term) : Prop :=
  ∀ (R : Location → Value → Machine → Prop) (h : ScopeId) (m : Machine), m.output.room = none →
    (∀ loc v m', Tries ⟨n, t, h, m⟩ loc v m' → R loc v m') → Cut R total m (t.evalWith (Term.evalBody n) h)

end Point

namespace Term

open Machine

variable {n total : Nat} {R : Location → Value → Machine → Prop} {m : Machine}

theorem evalWith_pours (n : Nat) (t : Term) (h : ScopeId) : Along Pours (t.evalWith (evalBody n) h) :=
  pours_stepwise.evalWith (pours_stepwise.evalBody n) t h

theorem bindWith_pours (n : Nat) (args : List Term) (params : List String) (h inner : ScopeId) :
    Along Pours (bindWith (evalBody n) args params h inner) :=
  pours_stepwise.bindWith args (fun a _ => evalWith_pours n a) params h inner

theorem bindWith_cut (args : List Term) (hargs : ∀ arg ∈ args, Point.IsCut n total arg) (params : List String)
    (h inner : ScopeId) (hroom : m.output.room = none)
    (hR : ∀ before arg after m₁, args = before ++ arg :: after →
      (bindWith (evalBody n) before params h inner).run m = (.ok (), m₁) →
        ∀ loc v m', Point.Tries ⟨n, arg, h, m₁⟩ loc v m' → R loc v m') :
    Cut R total m (bindWith (evalBody n) args params h inner) := by
  induction args generalizing params m with
  | nil => exact .of_eq rfl rfl
  | cons arg args ih =>
    rw [bindWith]
    have hhead : Cut R total m (arg.evalWith (evalBody n) h) :=
      hargs arg List.mem_cons_self R h m hroom (hR [] arg args m rfl rfl)
    refine hhead.bind (evalWith_pours n arg h) (fun v m₁ hv hm₁ => ?_) fun v => ?_
    · cases params with
      | nil => exact .of_eq rfl rfl
      | cons name names =>
        refine Cut.bind (.of_eq rfl rfl) (fun m => pours_stepwise.define m inner name v) (fun _ m₂ hdefine hm₂ => ?_)
          fun _ => bindWith_pours n args names h inner
        refine ih (fun a ha => hargs a (List.mem_cons_of_mem _ ha)) names (hm₂.output.room (hm₁.output.room hroom)) ?_
        intro before arg' after m' hsplit hrun
        refine hR (arg :: before) arg' after m' (by rw [hsplit, List.cons_append]) ?_
        rw [bindWith, Eval.run_bind_ok hv]
        exact (Eval.run_bind_ok hdefine).trans hrun
    · cases params with
      | nil => exact pours_stepwise.still fun _ => rfl
      | cons name names =>
        exact pours_stepwise.bind (fun m => pours_stepwise.define m inner name v) fun _ =>
          bindWith_pours n args names h inner

theorem enter_cut (hbodies : ∀ k, n = k + 1 → ∀ body, Point.IsCut k total body) (loc : Location) (body : Term)
    (inner : ScopeId) (hroom : m.output.room = none)
    (hR : ∀ k, n = k + 1 → m.depth < m.limit → ∀ loc v m',
      Point.Tries ⟨k, body, inner, { m with depth := m.depth + 1 }⟩ loc v m' → R loc v m') :
    Cut R total m (Eval.enter loc (evalBody n body inner)) := by
  by_cases hstop : m.limit ≤ m.depth
  · have hstop' : (m.upTo total).limit ≤ (m.upTo total).depth := hstop
    apply Cut.of_eq
    · rw [Eval.run_enter, if_pos hstop', Eval.run_enter, if_pos hstop]
      rfl
    · rw [Eval.run_enter, if_pos hstop]
  · have hlt : m.depth < m.limit := Nat.not_le.mp hstop
    have hlt' : (m.upTo total).depth < (m.upTo total).limit := hlt
    have hbody : Cut R total { m with depth := m.depth + 1 } (evalBody n body inner) := by
      cases n with
      | zero => exact .of_eq rfl rfl
      | succ k =>
        rw [evalBody, eval_eq]
        exact hbodies k rfl body R inner _ hroom (hR k rfl hlt)
    constructor
    · rw [Eval.run_enter_of_lt loc _ hlt, Eval.run_enter_of_lt loc _ hlt']
      intro hle
      have hsame := hbody.same hle
      change (evalBody n body inner).run { m.upTo total with depth := (m.upTo total).depth + 1 } = _ at hsame
      rw [hsame]
      rfl
    · rw [Eval.run_enter_of_lt loc _ hlt, Eval.run_enter_of_lt loc _ hlt']
      intro hle hover
      obtain ⟨loc', v, m', hattempt, hlength, hsuffix, hcut⟩ := hbody.refused hle hover
      refine ⟨loc', v, m', hattempt, hlength, hsuffix, ?_⟩
      change (evalBody n body inner).run { m.upTo total with depth := (m.upTo total).depth + 1 } = _ at hcut
      rw [hcut]
      rfl

theorem call_cut (hbodies : ∀ k, n = k + 1 → ∀ body, Point.IsCut k total body) (loc : Location) (callee : Term)
    (args : List Term) (listed : Bool) (hcallee : Point.IsCut n total callee)
    (hargs : ∀ arg ∈ args, Point.IsCut n total arg) : Point.IsCut n total (.call loc callee args listed) := by
  intro R h m hroom hR
  rw [evalWith]
  have henter := fun body inner => pours_stepwise.enter loc (pours_stepwise.evalBody n body inner)
  refine (hcallee R h m hroom fun loc v m' ht => hR loc v m' (ht.of_next .callee)).bind (evalWith_pours n callee h)
    (fun v m₁ hv hm₁ => ?_) fun v => ?_
  · rw [← Point.result_eq] at hv
    cases v with
    | closure c =>
      dsimp only
      split
      · exact .of_eq rfl rfl
      · next harity =>
        have harity' := not_ne_iff.mp harity
        refine Cut.bind (.of_eq rfl rfl) (fun m => pours_stepwise.extend m c.scope) (fun inner m₂ hinner hm₂ => ?_)
          fun inner => pours_stepwise.bind (bindWith_pours n args c.params h inner) fun _ => henter c.body inner
        obtain ⟨rfl, rfl⟩ : (m₁.frame c.scope).1 = inner ∧ (m₁.frame c.scope).2 = m₂ := by
          rw [m₁.run_extend] at hinner
          simpa using hinner
        have hroom₂ := hm₂.output.room (hm₁.output.room hroom)
        refine Cut.bind (bindWith_cut args hargs c.params h _ hroom₂ ?_) (bindWith_pours n args c.params h _)
          (fun _ m₃ hrun hm₃ => ?_) fun _ => henter c.body _
        · rintro before arg after m' rfl hrun loc' v m'' ht
          exact hR loc' v m'' (ht.of_next (.argument hv harity' hrun))
        · refine enter_cut hbodies loc c.body _ (hm₃.output.room hroom₂) ?_
          rintro k rfl hdepth loc' v m' ht
          exact hR loc' v m' (ht.of_next (.body (.intro hv harity' hrun hdepth)))
    | _ => exact .refuse _ _
  · cases v with
    | closure c =>
      dsimp only
      split
      · exact pours_stepwise.still fun _ => rfl
      · exact pours_stepwise.bind (fun m => pours_stepwise.extend m c.scope) fun inner =>
          pours_stepwise.bind (bindWith_pours n args c.params h inner) fun _ => henter c.body inner
    | _ => exact pours_stepwise.refuse _ _

theorem evalWith_cut (hbodies : ∀ k, n = k + 1 → ∀ body, Point.IsCut k total body) (t : Term) :
    Point.IsCut n total t := by
  have hpours := evalWith_pours n
  have hlast : ∀ x : Eval Value, (∀ m, (x.run m).2 = m) → Along Pours x := fun _ => pours_stepwise.still
  induction t using Term.inductionOn with
  | absent => exact fun R h m _ _ => .of_eq rfl rfl
  | int loc k => exact fun R h m _ _ => .of_eq rfl rfl
  | str loc s => exact fun R h m _ _ => .of_eq rfl rfl
  | bool loc b => exact fun R h m _ _ => .of_eq rfl rfl
  | error loc message fullText => exact fun R h m _ _ => .of_eq rfl rfl
  | var loc text =>
    intro R h m _ _
    rw [evalWith]
    refine Cut.bind (.of_eq rfl rfl) (pours_stepwise.still fun _ => rfl) (fun found m₁ _ _ => ?_) fun found => ?_
    · cases found <;> exact .of_eq rfl rfl
    · cases found <;> exact pours_stepwise.still fun _ => rfl
  | binary loc lhs op rhs ihl ihr =>
    intro R h m hroom hR
    rw [evalWith]
    have hop : ∀ l r, Along Pours (liftExcept (operate loc op l r) : Eval Value) := fun l r =>
      pours_stepwise.still fun m => by rw [Eval.run_liftExcept]
    refine (ihl R h m hroom fun loc v m' ht => hR loc v m' (ht.of_next .binaryLeft)).bind (hpours lhs h)
      (fun l m₁ hl hm₁ => ?_) fun l => pours_stepwise.bind (hpours rhs h) (hop l)
    rw [← Point.result_eq] at hl
    refine (ihr R h m₁ (hm₁.output.room hroom) fun loc v m' ht =>
      hR loc v m' (ht.of_next (.binaryRight hl))).bind (hpours rhs h) (fun r m₂ _ _ => .of_eq ?_ ?_) (hop l)
    · rw [Eval.run_liftExcept, Eval.run_liftExcept]
    · rw [Eval.run_liftExcept]
  | letIn loc name value next ihv ihn =>
    intro R h m hroom hR
    rw [evalWith]
    refine (ihv R h m hroom fun loc v m' ht => hR loc v m' (ht.of_next .letValue)).bind (hpours value h)
      (fun v m₁ hv hm₁ => ?_) fun v =>
        pours_stepwise.bind (fun m => pours_stepwise.define m h name.text v) fun _ => hpours next h
    rw [← Point.result_eq] at hv
    refine Cut.bind (.of_eq rfl rfl) (fun m => pours_stepwise.define m h name.text v) (fun _ m₂ hdefine _ => ?_)
      fun _ => hpours next h
    cases hdefine
    exact ihn R h _ (hm₁.output.room hroom) fun loc v m' ht => hR loc v m' (ht.of_next (.letNext hv))
  | function loc params body _ =>
    intro R h m _ _
    rw [evalWith]
    exact .of_eq rfl rfl
  | call loc callee args listed ihc iha => exact call_cut hbodies loc callee args listed ihc iha
  | ite loc c t e ihc iht ihe =>
    intro R h m hroom hR
    rw [evalWith]
    refine (ihc R h m hroom fun loc v m' ht => hR loc v m' (ht.of_next .condition)).bind (hpours c h)
      (fun v m₁ hv hm₁ => ?_) fun v => ?_
    · rw [← Point.result_eq] at hv
      have hroom₁ := hm₁.output.room hroom
      cases v with
      | bool b => cases b with
        | true => exact iht R h m₁ hroom₁ fun loc v m' ht => hR loc v m' (ht.of_next (.thenBranch hv))
        | false => exact ihe R h m₁ hroom₁ fun loc v m' ht => hR loc v m' (ht.of_next (.otherwise hv))
      | _ => exact .refuse _ _
    · cases v with
      | bool b => cases b with
        | true => exact hpours t h
        | false => exact hpours e h
      | _ => exact pours_stepwise.refuse _ _
  | tuple loc a b iha ihb =>
    intro R h m hroom hR
    rw [evalWith]
    refine (iha R h m hroom fun loc v m' ht => hR loc v m' (ht.of_next .tupleFirst)).bind (hpours a h)
      (fun x m₁ hx hm₁ => ?_) fun x => pours_stepwise.bind (hpours b h) fun y => hlast _ fun _ => rfl
    rw [← Point.result_eq] at hx
    exact (ihb R h m₁ (hm₁.output.room hroom) fun loc v m' ht => hR loc v m' (ht.of_next (.tupleSecond hx))).bind
      (hpours b h) (fun y m₂ _ _ => .of_eq rfl rfl) fun y => hlast _ fun _ => rfl
  | first loc t ih =>
    intro R h m hroom hR
    rw [evalWith]
    refine (ih R h m hroom fun loc v m' ht => hR loc v m' (ht.of_next .first)).bind (hpours t h)
      (fun v m₁ _ _ => ?_) fun v => ?_
    · cases v with
      | pair x y => exact .of_eq rfl rfl
      | _ => exact .refuse _ _
    · cases v with
      | pair x y => exact hlast _ fun _ => rfl
      | _ => exact pours_stepwise.refuse _ _
  | second loc t ih =>
    intro R h m hroom hR
    rw [evalWith]
    refine (ih R h m hroom fun loc v m' ht => hR loc v m' (ht.of_next .second)).bind (hpours t h)
      (fun v m₁ _ _ => ?_) fun v => ?_
    · cases v with
      | pair x y => exact .of_eq rfl rfl
      | _ => exact .refuse _ _
    · cases v with
      | pair x y => exact hlast _ fun _ => rfl
      | _ => exact pours_stepwise.refuse _ _
  | print loc t ih =>
    intro R h m hroom hR
    rw [evalWith]
    refine (ih R h m hroom fun loc v m' ht => hR loc v m' (ht.of_next .print)).bind (hpours t h)
      (fun v m₁ hv hm₁ => ?_) fun v => pours_stepwise.bind (pours_stepwise.print loc v) fun _ => hlast _ fun _ => rfl
    rw [← Point.result_eq] at hv
    have hattempt : R loc v m₁ := hR loc v m₁ ⟨_, .refl, .intro hv⟩
    exact (Cut.print (hm₁.output.room hroom) loc v hattempt).bind (pours_stepwise.print loc v)
      (fun _ m₂ _ _ => .of_eq rfl rfl) fun _ => hlast _ fun _ => rfl

theorem isCut (n total : Nat) (t : Term) : Point.IsCut n total t := by
  induction n generalizing t with
  | zero => exact evalWith_cut (fun k hk => absurd hk (Nat.succ_ne_zero k).symm) t
  | succ n ih =>
    refine evalWith_cut (fun k hk body => ?_) t
    cases hk
    exact ih body

theorem bindWith_isCut (n total : Nat) (args : List Term) (params : List String) (h inner : ScopeId)
    (hroom : m.output.room = none) :
    Cut (fun _ _ _ => True) total m (bindWith (evalBody n) args params h inner) :=
  bindWith_cut args (fun arg _ => isCut n total arg) params h inner hroom fun _ _ _ _ _ _ _ _ _ _ => trivial

end Term

namespace Point

def upTo (p : Point) (total : Nat) : Point := { p with machine := p.machine.upTo total }

theorem cut (p : Point) (hroom : p.machine.output.room = none) (total : Nat) :
    Cut p.Tries total p.machine (p.term.eval p.levels p.scope) := by
  rw [Term.eval_eq]
  exact Term.isCut p.levels total p.term p.Tries p.scope p.machine hroom fun _ _ _ ht => ht

section

variable {n total : Nat} {t : Term} {h : ScopeId} {m m' : Machine} {v : Value}

theorem later_of_result {r : Outcome} (e : result ⟨n, t, h, m⟩ = (r, m')) : m.output.Later m'.output := by
  have hpours := Term.evalWith_pours n t h m
  rw [← result_eq, e] at hpours
  exact hpours.output

theorem later_of_bindWith {args : List Term} {params : List String} {id : ScopeId}
    (e : (Term.bindWith (Term.evalBody n) args params h (m.frame id).1).run (m.frame id).2 = (.ok (), m')) :
    m.output.Later m'.output := by
  have hpours := Term.bindWith_pours n args params h (m.frame id).1 (m.frame id).2
  rw [e] at hpours
  exact hpours.output

theorem result_upTo (e : result ⟨n, t, h, m⟩ = (.ok v, m')) (hroom : m.output.room = none)
    (hle : m'.output.writes.length ≤ total) : result ⟨n, t, h, m.upTo total⟩ = (.ok v, m'.upTo total) :=
  (cut ⟨n, t, h, m⟩ hroom total).ok e hle

theorem result_of_upTo (e : result ⟨n, t, h, m.upTo total⟩ = (.ok v, m')) (hroom : m.output.room = none)
    (hle : m.output.writes.length ≤ total) :
    ∃ m₁, result ⟨n, t, h, m⟩ = (.ok v, m₁) ∧ m' = m₁.upTo total ∧ m₁.output.writes.length ≤ total :=
  (cut ⟨n, t, h, m⟩ hroom total).of_ok hle e

variable {args : List Term} {params : List String} {id : ScopeId}

theorem bindWith_upTo
    (e : (Term.bindWith (Term.evalBody n) args params h (m.frame id).1).run (m.frame id).2 = (.ok (), m'))
    (hroom : m.output.room = none) (hle : m'.output.writes.length ≤ total) :
    (Term.bindWith (Term.evalBody n) args params h ((m.upTo total).frame id).1).run ((m.upTo total).frame id).2 =
      (.ok (), m'.upTo total) :=
  (Term.bindWith_isCut n total args params h (m.frame id).1 hroom : Cut _ total (m.frame id).2 _).ok e hle

theorem bindWith_of_upTo
    (e : (Term.bindWith (Term.evalBody n) args params h ((m.upTo total).frame id).1).run
      ((m.upTo total).frame id).2 = (.ok (), m'))
    (hroom : m.output.room = none) (hle : m.output.writes.length ≤ total) :
    ∃ m₁, (Term.bindWith (Term.evalBody n) args params h (m.frame id).1).run (m.frame id).2 = (.ok (), m₁) ∧
      m' = m₁.upTo total ∧ m₁.output.writes.length ≤ total :=
  (Term.bindWith_isCut n total args params h (m.frame id).1 hroom : Cut _ total (m.frame id).2 _).of_ok hle e

end

theorem Next.later {p q : Point} (h : p.Next q) : p.machine.output.Later q.machine.output := by
  cases h with
  | binaryRight e | letNext e | thenBranch e | otherwise e | tupleSecond e => exact (later_of_result e :)
  | argument e _ hbefore => exact (later_of_result e).trans (later_of_bindWith hbefore)
  | body hcall =>
    cases hcall with
    | intro e _ hargs _ => exact (later_of_result e).trans (later_of_bindWith hargs :)
  | _ => exact .refl _

theorem Next.upTo {p q : Point} (h : p.Next q) (hroom : p.machine.output.room = none) {total : Nat}
    (hle : q.machine.output.writes.length ≤ total) : (p.upTo total).Next (q.upTo total) := by
  cases h with
  | binaryLeft => exact .binaryLeft
  | letValue => exact .letValue
  | callee => exact .callee
  | condition => exact .condition
  | tupleFirst => exact .tupleFirst
  | first => exact .first
  | second => exact .second
  | print => exact .print
  | binaryRight e => exact .binaryRight (result_upTo e hroom hle)
  | letNext e => exact .letNext (result_upTo e hroom hle)
  | thenBranch e => exact .thenBranch (result_upTo e hroom hle)
  | otherwise e => exact .otherwise (result_upTo e hroom hle)
  | tupleSecond e => exact .tupleSecond (result_upTo e hroom hle)
  | argument e harity hbefore =>
    have hfit := Nat.le_trans (later_of_bindWith hbefore).writes.length_le hle
    have hroom₁ := (later_of_result e).room hroom
    exact .argument (result_upTo e hroom hfit) harity (bindWith_upTo hbefore hroom₁ hle)
  | body hcall =>
    cases hcall with
    | intro e harity hargs hdepth =>
      have hfit := Nat.le_trans (later_of_bindWith hargs).writes.length_le hle
      have hroom₁ := (later_of_result e).room hroom
      exact .body (Enters.intro (result_upTo e hroom hfit) harity (bindWith_upTo hargs hroom₁ hle) hdepth :)

theorem Next.of_upTo {p r : Point} {total : Nat} (h : (p.upTo total).Next r) (hroom : p.machine.output.room = none)
    (hle : p.machine.output.writes.length ≤ total) :
    ∃ q, p.Next q ∧ q.machine.output.writes.length ≤ total ∧ r = q.upTo total := by
  obtain ⟨n, t, s, m⟩ := p
  dsimp only at hroom hle
  generalize hp : Point.upTo ⟨n, t, s, m⟩ total = p' at h
  cases h with
  | binaryLeft =>
    cases hp
    exact ⟨_, .binaryLeft, hle, rfl⟩
  | binaryRight e =>
    cases hp
    obtain ⟨m', hok, rfl, hle'⟩ := result_of_upTo e hroom hle
    exact ⟨_, .binaryRight hok, hle', rfl⟩
  | letValue =>
    cases hp
    exact ⟨_, .letValue, hle, rfl⟩
  | letNext e =>
    cases hp
    obtain ⟨m', hok, rfl, hle'⟩ := result_of_upTo e hroom hle
    exact ⟨_, .letNext hok, hle', rfl⟩
  | callee =>
    cases hp
    exact ⟨_, .callee, hle, rfl⟩
  | argument e harity hbefore =>
    cases hp
    obtain ⟨m₁, hok, rfl, hle₁⟩ := result_of_upTo e hroom hle
    have hroom₁ := (later_of_result hok).room hroom
    obtain ⟨m₂, hbefore', rfl, hle₂⟩ := bindWith_of_upTo hbefore hroom₁ hle₁
    exact ⟨_, .argument hok harity hbefore', hle₂, rfl⟩
  | body hcall =>
    cases hcall with
    | intro e harity hargs hdepth =>
      cases hp
      obtain ⟨m₁, hok, rfl, hle₁⟩ := result_of_upTo e hroom hle
      have hroom₁ := (later_of_result hok).room hroom
      obtain ⟨m₂, hargs', rfl, hle₂⟩ := bindWith_of_upTo hargs hroom₁ hle₁
      exact ⟨_, .body (.intro hok harity hargs' hdepth), hle₂, rfl⟩
  | condition =>
    cases hp
    exact ⟨_, .condition, hle, rfl⟩
  | thenBranch e =>
    cases hp
    obtain ⟨m', hok, rfl, hle'⟩ := result_of_upTo e hroom hle
    exact ⟨_, .thenBranch hok, hle', rfl⟩
  | otherwise e =>
    cases hp
    obtain ⟨m', hok, rfl, hle'⟩ := result_of_upTo e hroom hle
    exact ⟨_, .otherwise hok, hle', rfl⟩
  | tupleFirst =>
    cases hp
    exact ⟨_, .tupleFirst, hle, rfl⟩
  | tupleSecond e =>
    cases hp
    obtain ⟨m', hok, rfl, hle'⟩ := result_of_upTo e hroom hle
    exact ⟨_, .tupleSecond hok, hle', rfl⟩
  | first =>
    cases hp
    exact ⟨_, .first, hle, rfl⟩
  | second =>
    cases hp
    exact ⟨_, .second, hle, rfl⟩
  | print =>
    cases hp
    exact ⟨_, .print, hle, rfl⟩

theorem Visits.later {p q : Point} (h : p.Visits q) : p.machine.output.Later q.machine.output := by
  induction h with
  | refl => exact .refl _
  | tail _ hnext ih => exact ih.trans hnext.later

theorem Tries.complaint {p : Point} {loc : Location} {v : Value} {m : Machine} (h : p.Tries loc v m) :
    m.output.complaint = p.machine.output.complaint := by
  obtain ⟨q, hvisits, hattempts⟩ := h
  cases hattempts with
  | intro e => exact (hvisits.later.trans (later_of_result e :)).complaint

/-- With an output that takes `total`, an evaluation visits the points that it visits anyway with at most `total`
writes, and no others. -/
theorem visits_upTo_iff {p r : Point} {total : Nat} (hroom : p.machine.output.room = none)
    (hle : p.machine.output.writes.length ≤ total) :
    (p.upTo total).Visits r ↔ ∃ q, p.Visits q ∧ q.machine.output.writes.length ≤ total ∧ r = q.upTo total := by
  constructor
  · intro h
    induction h with
    | refl => exact ⟨p, .refl, hle, rfl⟩
    | tail _ hnext ih =>
      obtain ⟨q, hq, hqle, rfl⟩ := ih
      obtain ⟨q', hnext', hle', rfl⟩ := hnext.of_upTo (hq.later.room hroom) hqle
      exact ⟨q', hq.tail hnext', hle', rfl⟩
  · rintro ⟨q, hq, hqle, rfl⟩
    induction hq with
    | refl => exact .refl
    | tail hbefore hnext ih =>
      have hfit := Nat.le_trans hnext.later.writes.length_le hqle
      exact (ih hfit).tail (hnext.upTo ((Visits.later hbefore).room hroom) hqle)

end Point

end TreeWalk
