import TreeWalk.Eval.Fault

/-!
# Meaning of the operators

Integers are 64-bit words and wrap around; division goes toward zero. Addition joins texts, and
an integer beside a text counts as its decimal digits. Equality is defined on two integers, two
texts or two truth values only. Neither logical operator skips an operand.
-/

namespace TreeWalk

def Value.concatText? : Value → Option ByteArray
  | .str s => some s
  | .int n => some (Text.decimal n).toUTF8
  | _ => none

def mismatch (loc : Location) (op : Operator) (l r : Value) : Failure :=
  match l.kind?, r.kind? with
  | some a, some b => .fault (.operands loc op a b)
  | _, _ => .absentValue

/-- The equality of two scalars of one type. -/
def Value.scalarEq? : Value → Value → Option Bool
  | .int a, .int b => some (a = b)
  | .str a, .str b => some (Text.sameBytes a b)
  | .bool a, .bool b => some (a = b)
  | _, _ => none

def operate (loc : Location) (op : Operator) (l r : Value) : Except Failure Value :=
  let undefined := .error (mismatch loc op l r)
  match op with
  | .add =>
    match l, r with
    | .int a, .int b => .ok (.int (a + b))
    | _, _ =>
      match l.concatText?, r.concatText? with
      | some a, some b => .ok (.str (a ++ b))
      | _, _ => undefined
  | .sub => match l, r with
    | .int a, .int b => .ok (.int (a - b))
    | _, _ => undefined
  | .mul => match l, r with
    | .int a, .int b => .ok (.int (a * b))
    | _, _ => undefined
  | .div => match l, r with
    | .int a, .int b =>
      if b = 0 then .error (.fault (.byZero loc .quotient)) else .ok (.int (a / b))
    | _, _ => undefined
  | .rem => match l, r with
    | .int a, .int b =>
      if b = 0 then .error (.fault (.byZero loc .remainder)) else .ok (.int (a % b))
    | _, _ => undefined
  | .lt => match l, r with
    | .int a, .int b => .ok (.bool (a < b))
    | _, _ => undefined
  | .gt => match l, r with
    | .int a, .int b => .ok (.bool (b < a))
    | _, _ => undefined
  | .lte => match l, r with
    | .int a, .int b => .ok (.bool (a ≤ b))
    | _, _ => undefined
  | .gte => match l, r with
    | .int a, .int b => .ok (.bool (b ≤ a))
    | _, _ => undefined
  | .eq => match l.scalarEq? r with
    | some b => .ok (.bool b)
    | none => undefined
  | .neq => match l.scalarEq? r with
    | some b => .ok (.bool !b)
    | none => undefined
  | .and => match l, r with
    | .bool a, .bool b => .ok (.bool (a && b))
    | _, _ => undefined
  | .or => match l, r with
    | .bool a, .bool b => .ok (.bool (a || b))
    | _, _ => undefined
  | .unknown name => .error (.fault (.unknownOperator loc name))

end TreeWalk
