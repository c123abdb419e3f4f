import TreeWalk.Proofs.Reference.Evaluate

/-!
# Block-scoped evaluation

Evaluation that hands environments down only. What a `let` binds is visible in its continuation and nowhere else, and
nothing that is bound while a part of a term is evaluated is there when the next part is. Evaluation hands on
the output alone. Values are those of the reference semantics.
-/

namespace TreeWalk.Reference.Block

abbrev Eval (α : Type) := ExceptT Failure (StateM Output) α

namespace Eval

def run {α : Type} (x : Eval α) (output : Output) : Except Failure α × Output := x output

def fail {α : Type} (f : Fault) : Eval α := throw (.fault f)

def kindOf (v : Value) : Eval Kind :=
  match v.kind? with
  | some k => pure k
  | none => throw .absentValue

def print (loc : Location) (v : Value) : Eval Unit := fun output =>
  match output.write? (v.format ++ "\n".toUTF8) with
  | some output => (.ok (), output)
  | none => (.error (.output loc output.complaint), output)

end Eval

abbrev Entry := Location → Term → Env → Eval Value

mutual

def evalWith (entry : Entry) (env : Env) : Term → Eval Value
  | .absent => Eval.fail .missingExpression
  | .int _ n => pure (.int n)
  | .str _ s => pure (.str s)
  | .bool _ b => pure (.bool b)
  | .var loc name =>
    match env.lookup? name with
    | some v => pure v
    | none => Eval.fail (.unbound loc name)
  | .binary loc lhs op rhs => do
    let l ← evalWith entry env lhs
    let r ← evalWith entry env rhs
    liftExcept (operate loc op l r)
  | .letIn _ name value next => do
    let v ← evalWith entry env value
    evalWith entry ([(name.text, v)] :: env) next
  | .function _ params body => pure (.closure (params.map Parameter.text) body env)
  | .call loc callee args _ => do
    match ← evalWith entry env callee with
    | .closure params body captured => do
      if args.length ≠ params.length then
        Eval.fail (.arity loc params.length args.length)
      else do
        let values ← evalArgs entry env args
        entry loc body ((params.zip values).reverse :: captured)
    | v => do Eval.fail (.notCallable loc (← Eval.kindOf v))
  | .ite _ condition thenBranch otherwise => do
    match ← evalWith entry env condition with
    | .bool true => evalWith entry env thenBranch
    | .bool false => evalWith entry env otherwise
    | v => do Eval.fail (.condition condition.loc (← Eval.kindOf v))
  | .tuple _ a b => do
    let x ← evalWith entry env a
    let y ← evalWith entry env b
    pure (.pair x y)
  | .first loc t => do
    match ← evalWith entry env t with
    | .pair x _ => pure x
    | v => do Eval.fail (.projection loc .first (← Eval.kindOf v))
  | .second loc t => do
    match ← evalWith entry env t with
    | .pair _ y => pure y
    | v => do Eval.fail (.projection loc .second (← Eval.kindOf v))
  | .print loc t => do
    let v ← evalWith entry env t
    Eval.print loc v
    pure v
  | .error loc message _ => Eval.fail (.parseError loc message)

/-- Evaluates arguments from left to right, all in the same environment. -/
def evalArgs (entry : Entry) (env : Env) : List Term → Eval (List Value)
  | [] => pure []
  | arg :: args => do
    let v ← evalWith entry env arg
    let vs ← evalArgs entry env args
    pure (v :: vs)

end

def enter (limit : Nat) : (levels : Nat) → Entry
  | 0 => fun loc _ _ => Eval.fail (.exhausted loc limit)
  | levels + 1 => fun _ body env => evalWith (enter limit levels) env body

/-- The outcome of a program, where bodies may be nested `limit` deep, and the output. -/
def run (limit : Nat) (p : Program) (output : Output) : Except Failure Value × Output :=
  if p.expression.isAbsent then (.error (.fault .noProgram), output)
  else (evalWith (enter limit limit) [] p.expression).run output

namespace Eval

variable {α β : Type}

theorem run_bind (x : Eval α) (f : α → Eval β) (output : Output) :
    (x >>= f).run output =
      match x.run output with
      | (.ok a, output') => (f a).run output'
      | (.error e, output') => (.error e, output') := by
  change (match x.run output with | (a, output') => ExceptT.bindCont f a output') = _
  rcases x.run output with ⟨_ | _, _⟩ <;> rfl

theorem run_bind_ok {x : Eval α} {f : α → Eval β} {output output' : Output} {a : α}
    (h : x.run output = (.ok a, output')) : (x >>= f).run output = (f a).run output' := by rw [run_bind, h]

theorem run_bind_error {x : Eval α} {f : α → Eval β} {output output' : Output} {e : Failure}
    (h : x.run output = (.error e, output')) : (x >>= f).run output = (.error e, output') := by rw [run_bind, h]

theorem run_liftExcept (x : Except Failure α) (output : Output) :
    (liftExcept x : Eval α).run output = (x, output) := by cases x <;> rfl

theorem run_print (loc : Location) (v : Value) (output : Output) :
    (print loc v).run output =
      match output.write? (v.format ++ "\n".toUTF8) with
      | some output => (.ok (), output)
      | none => (.error (.output loc output.complaint), output) := rfl

theorem run_kindOf (v : Value) (output : Output) :
    (kindOf v).run output = (match v.kind? with | some k => .ok k | none => .error .absentValue, output) := by
  unfold kindOf
  cases v.kind? <;> rfl

end Eval

end TreeWalk.Reference.Block
