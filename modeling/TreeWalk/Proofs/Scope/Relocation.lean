import TreeWalk.Eval.Operate
import TreeWalk.Proofs.Scope.Chain

/-!
# Stores on top of other scopes

Scopes are numbered in the order of their making, so a store that grows on top of older scopes is the one that
grows from nothing, with all numbers raised. What is done to the one is done to the other.
-/

namespace TreeWalk

def Closure.shift (d : Nat) (c : Closure) : Closure := { c with scope := c.scope + d }

def Value.shift (d : Nat) : Value → Value
  | .pair a b => .pair (a.shift d) (b.shift d)
  | .closure c => .closure (c.shift d)
  | v => v

def Bindings.shift (d : Nat) (bindings : Bindings) : Bindings := bindings.map fun b => (b.1, b.2.shift d)

def Env.shift (d : Nat) (env : Env) : Env := env.map (Bindings.shift d)

def Scope.shift (d : Nat) (scope : Scope) : Scope := ⟨Bindings.shift d scope.bindings, scope.parent.map (· + d)⟩

namespace Value

@[simp] theorem shift_shift (d d' : Nat) (v : Value) : (v.shift d).shift d' = v.shift (d + d') := by
  induction v with
  | pair a b iha ihb => simp only [shift, iha, ihb]
  | closure c => simp only [shift, Closure.shift, Nat.add_assoc]
  | _ => rfl

@[simp] theorem kind?_shift (d : Nat) (v : Value) : (v.shift d).kind? = v.kind? := by
  cases v <;> rfl

@[simp] theorem format_shift (d : Nat) (v : Value) : (v.shift d).format = v.format := by
  induction v with
  | pair a b iha ihb => simp only [shift, format, iha, ihb]
  | _ => rfl

end Value

theorem operate_shift (d : Nat) (loc : Location) (op : Operator) (l r : Value) :
    operate loc op (l.shift d) (r.shift d) = (operate loc op l r).map (Value.shift d) := by
  cases l with
  | int a =>
    cases r with
    | int b =>
      cases op with
      | div => by_cases hb : b = 0 <;> simp [operate, Value.shift, hb, Except.map]
      | rem => by_cases hb : b = 0 <;> simp [operate, Value.shift, hb, Except.map]
      | _ => rfl
    | _ => cases op <;> rfl
  | _ => cases r <;> cases op <;> rfl

@[simp] theorem Bindings.shift_shift (d d' : Nat) (bindings : Bindings) :
    Bindings.shift d' (Bindings.shift d bindings) = Bindings.shift (d + d') bindings := by
  simp [Bindings.shift]

@[simp] theorem Env.shift_shift (d d' : Nat) (env : Env) : (env.shift d).shift d' = env.shift (d + d') := by
  simp [Env.shift]

@[simp] theorem Scope.shift_shift (d d' : Nat) (scope : Scope) :
    Scope.shift d' (Scope.shift d scope) = Scope.shift (d + d') scope := by
  cases h : scope.parent <;> simp [Scope.shift, h, Nat.add_assoc]

theorem Bindings.lookup_map (f : Value → Value) (bindings : Bindings) (name : String) :
    List.lookup name (bindings.map fun b => (b.1, f b.2)) = (bindings.lookup name).map f := by
  induction bindings with
  | nil => rfl
  | cons b rest ih =>
    rw [List.map_cons, List.lookup_cons, List.lookup_cons, ih]
    split <;> rfl

theorem Env.lookup?_map (f : Value → Value) (env : Env) (name : String) :
    Env.lookup? (env.map fun bindings => bindings.map fun b => (b.1, f b.2)) name = (env.lookup? name).map f := by
  induction env with
  | nil => rfl
  | cons bindings outer ih =>
    rw [lookup?, lookup?, List.map_cons, List.findSome?_cons, List.findSome?_cons, Bindings.lookup_map]
    cases bindings.lookup name with
    | none => exact ih
    | some v => rfl

theorem Env.lookup?_shift (d : Nat) (env : Env) (name : String) :
    (env.shift d).lookup? name = (env.lookup? name).map (Value.shift d) := lookup?_map (Value.shift d) env name

namespace Store

/-- The store on top of other scopes. -/
def atop (s : Store) (base : Array Scope) : Store := ⟨base ++ s.scopes.map (Scope.shift base.size)⟩

variable {s : Store} {base : Array Scope}

@[simp] theorem size_atop (s : Store) (base : Array Scope) : (s.atop base).size = s.size + base.size := by
  simp [size, atop, Nat.add_comm]

theorem scope?_atop (s : Store) (base : Array Scope) (id : Nat) :
    (s.atop base).scope? (id + base.size) = (s.scope? id).map (Scope.shift base.size) := by
  have hid : ¬id + base.size < base.size := by omega
  simp [scope?, atop, Array.getElem?_append, hid]

theorem scope?_atop_of_lt (s : Store) {id : Nat} (h : id < base.size) : (s.atop base).scope? id = base[id]? := by
  simp [scope?, atop, Array.getElem?_append, h]

@[simp] theorem atop_empty (base : Array Scope) : Store.empty.atop base = ⟨base⟩ := by
  simp [atop, empty]

theorem ext_scope? {s s' : Store} (h : ∀ id, s.scope? id = s'.scope? id) : s = s' := by
  obtain ⟨scopes⟩ := s
  obtain ⟨scopes'⟩ := s'
  exact congrArg mk (Array.ext_getElem? h)

theorem alloc_atop (s : Store) (base : Array Scope) (scope : Scope) :
    (s.atop base).alloc (scope.shift base.size) = ((s.alloc scope).1 + base.size, (s.alloc scope).2.atop base) := by
  have hid : (s.atop base).scopes.size = s.scopes.size + base.size := s.size_atop base
  rw [alloc, alloc, hid]
  simp only [atop, Array.map_push, Array.append_push]

theorem define_atop (s : Store) (base : Array Scope) (id : Nat) (name : String) (v : Value) :
    (s.atop base).define (id + base.size) name (v.shift base.size) = (s.define id name v).atop base := by
  apply ext_scope?
  intro (g : Nat)
  rw [scope?_define]
  by_cases hg : g < base.size
  · have hne : id + base.size ≠ g := by omega
    rw [if_neg hne, scope?_atop_of_lt _ hg, scope?_atop_of_lt _ hg]
  · obtain ⟨k, rfl⟩ : ∃ k, g = k + base.size := ⟨g - base.size, by omega⟩
    rw [scope?_atop, scope?_atop, scope?_define]
    by_cases hk : id = k
    · subst hk
      rw [if_pos rfl, if_pos rfl]
      cases s.scope? id <;> rfl
    · have hne : id + base.size ≠ k + base.size := fun h => hk (Nat.add_right_cancel h)
      rw [if_neg hne, if_neg hk]

theorem plant_cons (s : Store) (bindings : Bindings) (outer : Env) :
    s.plant (bindings :: outer) =
      (some ((s.plant outer).2.alloc ⟨bindings, (s.plant outer).1⟩).1,
        ((s.plant outer).2.alloc ⟨bindings, (s.plant outer).1⟩).2) := rfl

theorem plant_atop (s : Store) (base : Array Scope) (env : Env) :
    (s.atop base).plant (env.shift base.size) =
      ((s.plant env).1.map (· + base.size), (s.plant env).2.atop base) := by
  induction env with
  | nil => rfl
  | cons bindings outer ih =>
    have halloc : ((s.plant outer).2.atop base).alloc
        ⟨Bindings.shift base.size bindings, (s.plant outer).1.map (· + base.size)⟩ = _ :=
      alloc_atop (s.plant outer).2 base ⟨bindings, (s.plant outer).1⟩
    change (s.atop base).plant (Bindings.shift base.size bindings :: Env.shift base.size outer) = _
    rw [plant_cons, plant_cons, ih, halloc, Option.map_some]

theorem envFrom_atop (s : Store) (base : Array Scope) (fuel : Nat) (id? : Option ScopeId) :
    (s.atop base).envFrom fuel (id?.map (· + base.size)) = (s.envFrom fuel id?).shift base.size := by
  induction fuel generalizing id? with
  | zero => rfl
  | succ fuel ih =>
    cases id? with
    | none => rfl
    | some id =>
      rw [Option.map_some, envFrom_succ, envFrom_succ, scope?_atop]
      cases s.scope? id with
      | none => rfl
      | some scope => exact congrArg (_ :: ·) (ih scope.parent)

theorem env_atop (hs : s.Ordered) (base : Array Scope) (id : Nat) :
    (s.atop base).env (id + base.size) = (s.env id).shift base.size := by
  cases hscope : s.scope? id with
  | none =>
    have hatop : (s.atop base).scope? (id + base.size) = none := by rw [scope?_atop, hscope, Option.map_none]
    rw [env_of_not_lt hatop, env_of_not_lt hscope]
    rfl
  | some scope =>
    have hid := lt_size hscope
    -- the chain ends before the fuel does, with the scopes of `base` counted or not
    have hfuel : s.envFrom (s.size + base.size) (some id) = s.envFrom s.size (some id) :=
      envFrom_stable hs id _ _ (by omega) hid
    have hsize : (s.atop base).scopes.size = s.size + base.size := s.size_atop base
    have hatop := envFrom_atop s base (s.size + base.size) (some id)
    rw [hfuel] at hatop
    rw [env, hsize]
    exact hatop

theorem capture_atop (hs : s.Ordered) (base : Array Scope) (id : Nat) :
    (s.atop base).capture (id + base.size) = ((s.capture id).1 + base.size, (s.capture id).2.atop base) := by
  have hhead : (Env.shift base.size (s.env id)).headD [] = Bindings.shift base.size ((s.env id).headD []) := by
    cases s.env id <;> rfl
  have htail : (Env.shift base.size (s.env id)).tail = Env.shift base.size (s.env id).tail := by
    cases s.env id <;> rfl
  rw [capture_eq, capture_eq, env_atop hs, hhead, htail, plant_atop]
  exact alloc_atop _ base ⟨(s.env id).headD [], (s.plant (s.env id).tail).1⟩

theorem extend_atop (hs : s.Ordered) (base : Array Scope) (id : Nat) :
    (s.atop base).extend (id + base.size) = ((s.extend id).1 + base.size, (s.extend id).2.atop base) := by
  change ((s.atop base).capture (id + base.size)).2.child (some ((s.atop base).capture (id + base.size)).1) = _
  rw [capture_atop hs]
  exact alloc_atop (s.capture id).2 base ⟨[], some (s.capture id).1⟩

end Store

end TreeWalk
