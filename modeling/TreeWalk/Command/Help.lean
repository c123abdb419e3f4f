import TreeWalk.Command.Basic

/-!
# Help texts

The help of a command says what it does, how it is called, and lists its commands and flags.
-/

namespace TreeWalk

def padRight (width : Nat) (s : String) : String :=
  s ++ String.ofList (List.replicate (width - s.length) ' ')

namespace Flag

def heading (f : Flag) : String :=
  (match f.short with
    | some c => "  -" ++ String.singleton c ++ ", --" ++ f.name
    | none => "      --" ++ f.name) ++
  match f.kind with
    | .text => " string"
    | .number => " int"
    | .switch => ""

def describe (flags : List Flag) : String :=
  let sorted := flags.mergeSort fun a b => a.name ≤ b.name
  let width := (sorted.map fun f => f.heading.length).foldl max 0
  "\n".intercalate <| sorted.map fun f =>
    padRight (width + 3) f.heading ++ f.usage ++
      match f.default with
      | some text => s!" (default {text})"
      | none => ""

end Flag

namespace Command

def usageLine (c : Command) : String := c.path ++ c.argumentsText ++ " [flags]"

def nameWidth : Nat := 11

def commandLines (c : Command) : String :=
  String.join (c.children.map fun child => "\n  " ++ padRight nameWidth child.name ++ " " ++ child.short)

/-- The flags that a help text lists as the command's own. -/
def listedFlags (c : Command) : List Flag := if c = root then c.flags else c.helpFlag :: c.ownFlags

def usageText (c : Command) : String :=
  let nested := !c.children.isEmpty
  "Usage:" ++
    (if c.isRunnable then "\n  " ++ c.usageLine else "") ++
    (if nested then "\n  " ++ c.path ++ " [command]" else "") ++
    (if nested then "\n\nAvailable Commands:" ++ c.commandLines else "") ++
    "\n\nFlags:\n" ++ Flag.describe c.listedFlags ++
    (if c = root then "" else "\n\nGlobal Flags:\n" ++ Flag.describe sharedFlags) ++
    (if nested then s!"\n\nUse \"{c.path} [command] --help\" for more information about a command."
      else "") ++
    "\n"

def helpText (c : Command) : String := c.about ++ "\n\n" ++ c.usageText

end Command

end TreeWalk
