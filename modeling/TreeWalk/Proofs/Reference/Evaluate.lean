import TreeWalk.Eval.Interpreter

/-!
# The reference semantics

Evaluation without a store: an environment is a list of scopes, each a list of bindings with the
newest first, and a closure holds the environment it was made in. Evaluation of a term takes an
environment and gives an outcome, the output and the new innermost scope. No scope is ever shared,
so nothing that happens elsewhere can reach an environment.
-/

namespace TreeWalk.Reference

inductive Value where
  | absent
  | int (n : Int64)
  | str (s : ByteArray)
  | bool (b : Bool)
  | pair (first second : Value)
  | closure (params : List String) (body : Term) (env : List (List (String × Value)))

abbrev Bindings := List (String × Value)

abbrev Env := List Bindings

namespace Value

def kind? : Value → Option Kind
  | absent => none
  | int _ => some .integer
  | str _ => some .string
  | bool _ => some .bool
  | pair _ _ => some .tuple
  | closure _ _ _ => some .closure

def format : Value → ByteArray
  | absent => "<nil>".toUTF8
  | int n => (Text.decimal n).toUTF8
  | str s => s
  | bool b => (if b then "true" else "false").toUTF8
  | pair a b => "(".toUTF8 ++ a.format ++ ", ".toUTF8 ++ b.format ++ ")".toUTF8
  | closure _ _ _ => "<#closure>".toUTF8

end Value

def Env.lookup? (env : Env) (name : String) : Option Value :=
  env.findSome? fun bindings => bindings.lookup name

theorem Env.lookup?_cons (scope : Bindings) (outer : Env) (x : String) :
    Env.lookup? (scope :: outer) x = (scope.lookup x).or (Env.lookup? outer x) := by
  rw [lookup?, List.findSome?_cons]
  cases scope.lookup x <;> rfl

theorem Env.mem_of_lookup? {env : Env} {x : String} {v : Value} (h : env.lookup? x = some v) :
    ∃ bindings ∈ env, (x, v) ∈ bindings := by
  obtain ⟨bindings, hbindings, hlookup⟩ := List.exists_of_findSome?_eq_some h
  obtain ⟨before, after, rfl, _⟩ := List.lookup_eq_some_iff.mp hlookup
  exact ⟨_, hbindings, List.mem_append_right before List.mem_cons_self⟩

theorem Env.lookup?_define (name : String) (v : Value) (scope : Bindings) (outer : Env) (x : String) :
    Env.lookup? (((name, v) :: scope) :: outer) x = if x = name then some v else Env.lookup? (scope :: outer) x := by
  rw [lookup?_cons, lookup?_cons, List.lookup_cons]
  by_cases h : x = name
  · simp [h]
  · rw [beq_false_of_ne h, if_neg h]

/-- The table of the operators; what is not in it is a mismatch of types. -/
def operate (loc : Location) : Operator → Value → Value → Except Failure Value
  | .unknown name, _, _ => .error (.fault (.unknownOperator loc name))
  | .add, .int a, .int b => .ok (.int (a + b))
  | .add, .int a, .str b => .ok (.str ((Text.decimal a).toUTF8 ++ b))
  | .add, .str a, .int b => .ok (.str (a ++ (Text.decimal b).toUTF8))
  | .add, .str a, .str b => .ok (.str (a ++ b))
  | .sub, .int a, .int b => .ok (.int (a - b))
  | .mul, .int a, .int b => .ok (.int (a * b))
  | .div, .int a, .int b => if b = 0 then .error (.fault (.byZero loc .quotient)) else .ok (.int (a / b))
  | .rem, .int a, .int b => if b = 0 then .error (.fault (.byZero loc .remainder)) else .ok (.int (a % b))
  | .lt, .int a, .int b => .ok (.bool (a < b))
  | .gt, .int a, .int b => .ok (.bool (b < a))
  | .lte, .int a, .int b => .ok (.bool (a ≤ b))
  | .gte, .int a, .int b => .ok (.bool (b ≤ a))
  | .eq, .int a, .int b => .ok (.bool (a = b))
  | .eq, .str a, .str b => .ok (.bool (Text.sameBytes a b))
  | .eq, .bool a, .bool b => .ok (.bool (a = b))
  | .neq, .int a, .int b => .ok (.bool !(a = b))
  | .neq, .str a, .str b => .ok (.bool !(Text.sameBytes a b))
  | .neq, .bool a, .bool b => .ok (.bool !(a = b))
  | .and, .bool a, .bool b => .ok (.bool (a && b))
  | .or, .bool a, .bool b => .ok (.bool (a || b))
  | op, l, r =>
    match l.kind?, r.kind? with
    | some a, some b => .error (.fault (.operands loc op a b))
    | _, _ => .error .absentValue

/-- What evaluation hands on: the innermost scope and the output. -/
structure State where
  scope : Bindings
  output : Output

abbrev Eval (α : Type) := ExceptT Failure (StateM State) α

namespace Eval

def run {α : Type} (x : Eval α) (st : State) : Except Failure α × State := x st

def fail {α : Type} (f : Fault) : Eval α := throw (.fault f)

def env (outer : Env) : Eval Env := fun st => (.ok (st.scope :: outer), st)

def define (name : String) (v : Value) : Eval Unit :=
  fun st => (.ok (), { st with scope := (name, v) :: st.scope })

def kindOf (v : Value) : Eval Kind :=
  match v.kind? with
  | some k => pure k
  | none => throw .absentValue

def print (loc : Location) (v : Value) : Eval Unit := fun st =>
  match st.output.write? (v.format ++ "\n".toUTF8) with
  | some output => (.ok (), { st with output })
  | none => (.error (.output loc st.output.complaint), st)

/-- Does something elsewhere, which the innermost scope has no part in. -/
def elsewhere {α : Type} (f : Output → Except Failure α × Output) : Eval α :=
  fun st => ((f st.output).1, { st with output := (f st.output).2 })

end Eval

abbrev Entry := Location → Term → Bindings → Env → Output → Except Failure Value × Output

mutual

def evalWith (entry : Entry) (outer : Env) : Term → Eval Value
  | .absent => Eval.fail .missingExpression
  | .int _ n => pure (.int n)
  | .str _ s => pure (.str s)
  | .bool _ b => pure (.bool b)
  | .var loc name => do
    match (← Eval.env outer).lookup? name with
    | some v => pure v
    | none => Eval.fail (.unbound loc name)
  | .binary loc lhs op rhs => do
    let l ← evalWith entry outer lhs
    let r ← evalWith entry outer rhs
    liftExcept (operate loc op l r)
  | .letIn _ name value next => do
    let v ← evalWith entry outer value
    Eval.define name.text v
    evalWith entry outer next
  | .function _ params body => do
    let env ← Eval.env outer
    pure (.closure (params.map Parameter.text) body env)
  | .call loc callee args _ => do
    match ← evalWith entry outer callee with
    | .closure params body env => do
      if args.length ≠ params.length then
        Eval.fail (.arity loc params.length args.length)
      else do
        let values ← evalArgs entry outer args
        Eval.elsewhere (entry loc body (params.zip values).reverse env)
    | v => do Eval.fail (.notCallable loc (← Eval.kindOf v))
  | .ite _ condition thenBranch otherwise => do
    match ← evalWith entry outer condition with
    | .bool true => evalWith entry outer thenBranch
    | .bool false => evalWith entry outer otherwise
    | v => do Eval.fail (.condition condition.loc (← Eval.kindOf v))
  | .tuple _ a b => do
    let x ← evalWith entry outer a
    let y ← evalWith entry outer b
    pure (.pair x y)
  | .first loc t => do
    match ← evalWith entry outer t with
    | .pair x _ => pure x
    | v => do Eval.fail (.projection loc .first (← Eval.kindOf v))
  | .second loc t => do
    match ← evalWith entry outer t with
    | .pair _ y => pure y
    | v => do Eval.fail (.projection loc .second (← Eval.kindOf v))
  | .print loc t => do
    let v ← evalWith entry outer t
    Eval.print loc v
    pure v
  | .error loc message _ => Eval.fail (.parseError loc message)

def evalArgs (entry : Entry) (outer : Env) : List Term → Eval (List Value)
  | [] => pure []
  | arg :: args => do
    let v ← evalWith entry outer arg
    let vs ← evalArgs entry outer args
    pure (v :: vs)

end

def enter (limit : Nat) : (levels : Nat) → Entry
  | 0 => fun loc _ _ _ output => (.error (.fault (.exhausted loc limit)), output)
  | levels + 1 => fun _ body frame env output =>
    let (result, st) := (evalWith (enter limit levels) env body).run ⟨frame, output⟩
    (result, st.output)

/-- The outcome of a term in an environment, the output, and the environment with its new innermost
scope. -/
def evaluate (limit depth : Nat) (t : Term) (env : Env) (output : Output) :
    Except Failure Value × Output × Env :=
  let (result, st) := (evalWith (enter limit (limit - depth)) env.tail t).run ⟨env.headD [], output⟩
  (result, st.output, st.scope :: env.tail)

namespace Eval

variable {α β : Type}

theorem run_bind (x : Eval α) (f : α → Eval β) (st : State) :
    (x >>= f).run st =
      match x.run st with
      | (.ok a, st') => (f a).run st'
      | (.error e, st') => (.error e, st') := by
  change (match x.run st with | (a, st') => ExceptT.bindCont f a st') = _
  rcases x.run st with ⟨_ | _, _⟩ <;> rfl

theorem run_bind_ok {x : Eval α} {f : α → Eval β} {st st' : State} {a : α} (h : x.run st = (.ok a, st')) :
    (x >>= f).run st = (f a).run st' := by rw [run_bind, h]

theorem run_bind_error {x : Eval α} {f : α → Eval β} {st st' : State} {e : Failure}
    (h : x.run st = (.error e, st')) : (x >>= f).run st = (.error e, st') := by rw [run_bind, h]

@[simp] theorem run_liftExcept (x : Except Failure α) (st : State) :
    (liftExcept x : Eval α).run st = (x, st) := by cases x <;> rfl

theorem run_print (loc : Location) (v : Value) (st : State) :
    (print loc v).run st =
      match st.output.write? (v.format ++ "\n".toUTF8) with
      | some output => (.ok (), { st with output })
      | none => (.error (.output loc st.output.complaint), st) := rfl

theorem run_elsewhere (f : Output → Except Failure α × Output) (st : State) :
    (elsewhere f).run st = ((f st.output).1, { st with output := (f st.output).2 }) := rfl

theorem run_kindOf (v : Value) (st : State) :
    (kindOf v).run st = (match v.kind? with | some k => .ok k | none => .error .absentValue, st) := by
  unfold kindOf
  cases v.kind? <;> rfl

end Eval

theorem enter_succ (limit levels : Nat) (loc : Location) (body : Term) (frame : Bindings) (env : Env)
    (output : Output) :
    enter limit (levels + 1) loc body frame env output =
      (((evalWith (enter limit levels) env body).run ⟨frame, output⟩).1,
        ((evalWith (enter limit levels) env body).run ⟨frame, output⟩).2.output) := rfl

end TreeWalk.Reference
