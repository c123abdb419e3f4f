import TreeWalk.Command.Flag

/-!
# Commands

The commands of the program, and how a command line names one. The first word that is neither a
flag nor a flag's value is a command's name if there is a command of that name; after a command
with commands of its own, the same holds again.
-/

namespace TreeWalk

inductive Command where
  | root
  | run
  | display
  | test
  | corpus
  | fetch
  | list
  | version
  | help
  | completion
deriving DecidableEq, Repr

inductive Arity where
  | exactly (n : Nat)
  | atMost (n : Nat)
  | none
  | any
deriving DecidableEq, Repr

namespace Command

def name : Command → String
  | root => "rinha"
  | run => "run"
  | display => "show"
  | test => "test"
  | corpus => "corpus"
  | fetch => "fetch"
  | list => "list"
  | version => "version"
  | help => "help"
  | completion => "completion"

def children : Command → List Command
  | root => [completion, corpus, help, run, display, test, version]
  | corpus => [fetch, list]
  | _ => []

def parent? : Command → Option Command
  | root => none
  | fetch | list => some corpus
  | _ => some root

def path : Command → String
  | root => root.name
  | fetch => root.name ++ " " ++ corpus.name ++ " " ++ fetch.name
  | list => root.name ++ " " ++ corpus.name ++ " " ++ list.name
  | c => root.name ++ " " ++ c.name

def argumentsText : Command → String
  | root => " [program.json]"
  | run | display => " <program.json>"
  | test => " [fixtures-dir]"
  | fetch => " <url|name>"
  | help => " [command]"
  | _ => ""

def short : Command → String
  | root => "rinha evaluates rinha programs from their JSON syntax tree"
  | run => "Evaluate a program"
  | display => "Print a program as source text"
  | test => "Run golden fixtures"
  | corpus => "Manage git corpora of AST programs"
  | fetch => "Clone a corpus at a revision and print its checkout path"
  | list => "List corpora declared in rinha.yml"
  | version => "Print version information"
  | help => "Help about any command"
  | completion => "Generate the autocompletion script for the specified shell"

def about : Command → String
  | root => "rinha is a tree-walking interpreter for the rinha language. Programs are\n" ++
      "read as the JSON AST emitted by the rinha parser."
  | run => "Evaluate a program and write everything it prints to stdout. Output\n" ++
      "printed before a runtime error is flushed before the error is reported."
  | test => "Run every fixture below the directory (default: the fixtures setting of\n" ++
      "rinha.yml). A fixture is a directory holding program.json and manifest.yml."
  | fetch => "Clone a git repository of AST programs into the corpus directory. The\n" ++
      "argument is a git URL or the name of a corpus declared in rinha.yml."
  | help => "Help provides help for any command in the application.\n" ++
      "Simply type rinha help [path to command] for full details."
  | c => c.short

def isRunnable : Command → Bool
  | corpus | completion => false
  | _ => true

def arity : Command → Arity
  | root | test => .atMost 1
  | run | display | fetch => .exactly 1
  | list | version => .none
  | corpus | help | completion => .any

def sharedFlags : List Flag := [
  ⟨"color", none, .switch, "colorize diagnostics", some "true"⟩,
  ⟨"config", none, .text,
    "path to rinha.yml (default: nearest rinha.yml upward from the working directory)", none⟩,
  ⟨"log-level", none, .text, "log level: debug, info, warn or error", none⟩,
  ⟨"max-depth", none, .number, "maximum nested call depth before StackExhausted", none⟩]

def ownFlags : Command → List Flag
  | test => [⟨"jobs", some 'j', .number, "fixtures evaluated in parallel", some "1"⟩]
  | fetch => [
    ⟨"branch", none, .text, "branch to check out", none⟩,
    ⟨"rev", none, .text, "commit to check out", none⟩,
    ⟨"tag", none, .text, "tag to check out", none⟩]
  | _ => []

def helpFlag (c : Command) : Flag := ⟨"help", some 'h', .switch, "help for " ++ c.name, none⟩

/-- The flags that tell which words are values while the command is looked for. -/
def namingFlags (c : Command) : List Flag := c.ownFlags ++ sharedFlags

def flags (c : Command) : List Flag := c.helpFlag :: c.namingFlags

/-- Whether a word is a flag whose value is the next word. -/
def takesNext (flags : List Flag) (word : String) : Bool :=
  if '=' ∈ word.toList then false
  else
    match word.toList with
    | '-' :: '-' :: name =>
      !(flags.any fun flag => flag.name = String.ofList name && flag.kind = .switch)
    | '-' :: short =>
      word.utf8ByteSize = 2 &&
        !(flags.any fun flag => flag.short = short.head? && flag.kind = .switch)
    | _ => false

def isFlagWord (word : String) : Bool := word.startsWith "-"

/-- The first word that may name a command. A flag that waits for a value with at most one word
left ends the search. -/
def firstWord? (flags : List Flag) : List String → Option String
  | [] => none
  | word :: words =>
    if word = "--" then none
    else if takesNext flags word then
      match words with
      | _ :: next :: rest => firstWord? flags (next :: rest)
      | _ => none
    else if word ≠ "" && !isFlagWord word then some word
    else firstWord? flags words

/-- The words without the first one that is `name` and neither a flag nor a flag's value. -/
def withoutWord (flags : List Flag) (name : String) : List String → List String
  | [] => []
  | word :: words =>
    if word = "--" then word :: words
    else if takesNext flags word then
      match words with
      | value :: words => word :: value :: withoutWord flags name words
      | [] => [word]
    else if !isFlagWord word && word = name then words
    else word :: withoutWord flags name words

/-- The command that words name, and the words left for it. -/
def select : (fuel : Nat) → Command → List String → Command × List String
  | 0, c, words => (c, words)
  | fuel + 1, c, words =>
    match firstWord? c.namingFlags words with
    | none => (c, words)
    | some name =>
      match c.children.find? (·.name = name) with
      | none => (c, words)
      | some child => select fuel child (withoutWord c.namingFlags name words)

def ofWords (words : List String) : Command × List String := select 2 root words

def arityError? (c : Command) (args : List String) : Option String :=
  match c.arity with
  | .exactly n =>
    if args.length = n then Option.none else some s!"accepts {n} arg(s), received {args.length}"
  | .atMost n =>
    if args.length ≤ n then Option.none else some s!"accepts at most {n} arg(s), received {args.length}"
  | .none => args.head?.map fun arg => s!"unknown command {Text.quote arg} for {Text.quote c.path}"
  | .any => Option.none

end Command

end TreeWalk
