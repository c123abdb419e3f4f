import TreeWalk.Eval.Machine
import TreeWalk.Eval.Operate

/-!
# Evaluation

Operands are evaluated from left to right, and all of them. A `let` defines its name in the
current scope and nothing removes it again. A call checks the callee, then the number of
arguments, then evaluates the arguments in the caller's scope, and only then asks whether it may
go one level deeper.

Evaluation is by recursion on the term; the body of a closure is evaluated by recursion on the
number of levels left.
-/

namespace TreeWalk

@[noinline]
def onFreshStack {α : Type} (f : Unit → α) : α := (Task.spawn f Task.Priority.dedicated).get

@[simp] theorem onFreshStack_eq {α : Type} (f : Unit → α) : onFreshStack f = f () := rfl

def levelsPerStack : Nat := 1000

def startsStack (levels : Nat) : Bool := levels % levelsPerStack = levelsPerStack / 2

namespace Term

mutual

/-- Evaluates a term in a scope, with `apply` for the bodies of closures. -/
def evalWith (apply : Term → ScopeId → Eval Value) : Term → ScopeId → Eval Value
  | absent, _ => Eval.fail .missingExpression
  | int _ n, _ => pure (.int n)
  | str _ s, _ => pure (.str s)
  | bool _ b, _ => pure (.bool b)
  | var loc text, scope => do
    match ← Eval.lookup? scope text with
    | some v => pure v
    | none => Eval.fail (.unbound loc text)
  | binary loc lhs op rhs, scope => do
    let l ← lhs.evalWith apply scope
    let r ← rhs.evalWith apply scope
    liftExcept (operate loc op l r)
  | letIn _ name value next, scope => do
    let v ← value.evalWith apply scope
    Eval.define scope name.text v
    next.evalWith apply scope
  | function _ params body, scope => do
    let captured ← Eval.onStore (·.capture scope)
    pure (.closure ⟨params.map Parameter.text, body, captured⟩)
  | call loc callee args _, scope => do
    match ← callee.evalWith apply scope with
    | .closure c => do
      if args.length ≠ c.arity then
        Eval.fail (.arity loc c.arity args.length)
      else do
        let inner ← Eval.onStore (·.extend c.scope)
        bindWith apply args c.params scope inner
        Eval.enter loc (apply c.body inner)
    | v => do Eval.fail (.notCallable loc (← Eval.kindOf v))
  | ite _ condition thenBranch otherwise, scope => do
    match ← condition.evalWith apply scope with
    | .bool true => thenBranch.evalWith apply scope
    | .bool false => otherwise.evalWith apply scope
    | v => do Eval.fail (.condition condition.loc (← Eval.kindOf v))
  | tuple _ a b, scope => do
    let x ← a.evalWith apply scope
    let y ← b.evalWith apply scope
    pure (.pair x y)
  | first loc t, scope => do
    match ← t.evalWith apply scope with
    | .pair x _ => pure x
    | v => do Eval.fail (.projection loc .first (← Eval.kindOf v))
  | second loc t, scope => do
    match ← t.evalWith apply scope with
    | .pair _ y => pure y
    | v => do Eval.fail (.projection loc .second (← Eval.kindOf v))
  | print loc t, scope => do
    let v ← t.evalWith apply scope
    Eval.print loc v
    pure v
  | error loc message _, _ => Eval.fail (.parseError loc message)

/-- Evaluates arguments in `scope` and binds each to its parameter in `inner`. -/
def bindWith (apply : Term → ScopeId → Eval Value) :
    List Term → List String → (scope inner : ScopeId) → Eval Unit
  | [], _, _, _ => pure ()
  | arg :: args, params, scope, inner => do
    let v ← arg.evalWith apply scope
    match params with
    | [] => throw .absentParameter
    | name :: names => do
      Eval.define inner name v
      bindWith apply args names scope inner

end

/-- Evaluates a term in a scope, going at most `levels` closure bodies deep. -/
def eval : (levels : Nat) → Term → ScopeId → Eval Value
  | 0 => evalWith fun _ _ => throw .unfinished
  | levels + 1 => evalWith fun body scope m =>
    if startsStack levels then onFreshStack fun _ => eval levels body scope m
    else eval levels body scope m

end Term

end TreeWalk
