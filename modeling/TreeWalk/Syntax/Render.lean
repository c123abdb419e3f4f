import TreeWalk.Syntax.Term
import TreeWalk.Text.Quoted

/-!
# Source text of a term

A term as source text for people. Parentheses go around the compound operands of an operator
and around a compound callee; each block is indented by two blanks more than what is around it.
-/

namespace TreeWalk.Term

/-- Terms that stand in parentheses as an operand or callee. -/
def isCompound : Term → Bool
  | binary .. | letIn .. | ite .. | function .. => true
  | _ => false

def lineBreak (indent : Nat) : String := "\n" ++ String.ofList (List.replicate (2 * indent) ' ')

def parenthesized (compound : Bool) (text : String) : String :=
  if compound then "(" ++ text ++ ")" else text

def inBlock (indent : Nat) (text : String) : String :=
  "\x7b" ++ lineBreak (indent + 1) ++ text ++ lineBreak indent ++ "\x7d"

mutual

def renderAt (indent : Nat) : Term → String
  | absent => "<nil>"
  | int _ n => Text.decimal n
  | str _ s => Text.quoteBytes s
  | bool _ b => if b then "true" else "false"
  | var _ text => text
  | binary _ lhs op rhs =>
    parenthesized lhs.isCompound (renderAt indent lhs) ++ " " ++ op.symbol ++ " " ++
      parenthesized rhs.isCompound (renderAt indent rhs)
  | letIn _ name value next =>
    "let " ++ name.text ++ " = " ++ renderAt indent value ++ ";" ++ lineBreak indent ++
      renderAt indent next
  | function _ params body =>
    "fn (" ++ String.intercalate ", " (params.map Parameter.text) ++ ") => " ++
      inBlock indent (renderAt (indent + 1) body)
  | call _ callee args _ =>
    parenthesized callee.isCompound (renderAt indent callee) ++ "(" ++
      String.intercalate ", " (renderEach indent args) ++ ")"
  | ite _ c t e =>
    "if (" ++ renderAt indent c ++ ") " ++ inBlock indent (renderAt (indent + 1) t) ++ " else " ++
      inBlock indent (renderAt (indent + 1) e)
  | tuple _ a b => "(" ++ renderAt indent a ++ ", " ++ renderAt indent b ++ ")"
  | first _ v => "first(" ++ renderAt indent v ++ ")"
  | second _ v => "second(" ++ renderAt indent v ++ ")"
  | print _ v => "print(" ++ renderAt indent v ++ ")"
  | error _ message _ => "<error: " ++ message ++ ">"

def renderEach (indent : Nat) : List Term → List String
  | [] => []
  | t :: rest => renderAt indent t :: renderEach indent rest

end

def render (t : Term) : String := renderAt 0 t

end TreeWalk.Term
