import TreeWalk.Text.Number

/-!
# Source locations

The span of source text that a node stands for. The location whose fields are all empty says
that nothing is known.
-/

namespace TreeWalk

structure Location where
  start : Int64
  stop : Int64
  filename : String
deriving DecidableEq, Repr, Inhabited

namespace Location

def unknown : Location := ⟨0, 0, ""⟩

def render (l : Location) : String :=
  if l = unknown then "<unknown>"
  else l.filename ++ ":" ++ Text.decimal l.start ++ ".." ++ Text.decimal l.stop

end Location

end TreeWalk
