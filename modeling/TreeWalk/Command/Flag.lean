import TreeWalk.Text.Number
import TreeWalk.Text.Quoted

/-!
# Flags

A flag is given as `--name value` or `--name=value`, one with a short name also as `-n value`,
`-nvalue` or `-n=value`. Switches take a value only after an equals sign. Flags and arguments may
be mixed, up to a `--` that ends the flags.
-/

namespace TreeWalk

inductive FlagKind where
  | text
  | number
  | switch
deriving DecidableEq, Repr

structure Flag where
  name : String
  short : Option Char
  kind : FlagKind
  usage : String
  /-- The default as it is shown; a default that goes without saying is left out. -/
  default : Option String
deriving DecidableEq, Repr

def Flag.label (f : Flag) : String :=
  match f.short with
  | some c => "-" ++ String.singleton c ++ ", --" ++ f.name
  | none => "--" ++ f.name

def quoteSingle (c : Char) : String :=
  let body := if c = '\x27' then "\\'" else if c = '"' then "\"" else Text.quoteChar c
  "'" ++ body ++ "'"

inductive FlagError where
  | badForm (word : String)
  | unknown (name : String)
  | unknownShort (c : Char) (cluster : String)
  | needsValue (word : String)
  | shortNeedsValue (c : Char) (cluster : String)
  | badNumber (flag : Flag) (value : String) (cause : Text.NumberError)
  | badSwitch (flag : Flag) (value : String)
deriving DecidableEq, Repr

def FlagError.invalid (flag : Flag) (value : String) : String :=
  s!"invalid argument {Text.quote value} for {Text.quote flag.label} flag: strconv."

def FlagError.message : FlagError → String
  | badForm word => "bad flag syntax: " ++ word
  | unknown name => "unknown flag: --" ++ name
  | unknownShort c cluster => s!"unknown shorthand flag: {quoteSingle c} in -{cluster}"
  | needsValue word => "flag needs an argument: " ++ word
  | shortNeedsValue c cluster => s!"flag needs an argument: {quoteSingle c} in -{cluster}"
  | badNumber flag value cause =>
    invalid flag value ++ s!"ParseInt: parsing {Text.quote value}: {cause.message}"
  | badSwitch flag value => invalid flag value ++ s!"ParseBool: parsing {Text.quote value}: invalid syntax"

/-- Flags with their values, the latest first, and the arguments in order. -/
structure Parsed where
  values : List (String × String)
  args : List String
deriving DecidableEq, Repr

namespace Parsed

def empty : Parsed := ⟨[], []⟩

def value? (p : Parsed) (name : String) : Option String := p.values.lookup name

def text (p : Parsed) (name : String) : String := (p.value? name).getD ""

def number? (p : Parsed) (name : String) : Option Int64 :=
  (p.value? name).bind fun value => (Text.readMarkedInt64 value).toOption

def switch? (p : Parsed) (name : String) : Option Bool := (p.value? name).bind Text.readBool?

def addArg (p : Parsed) (arg : String) : Parsed := { p with args := p.args ++ [arg] }

def set (p : Parsed) (flag : Flag) (value : String) : Except FlagError Parsed :=
  let set : Parsed := { p with values := (flag.name, value) :: p.values }
  match flag.kind with
  | .text => .ok set
  | .number =>
    match Text.readMarkedInt64 value with
    | .ok _ => .ok set
    | .error cause => .error (.badNumber flag value cause)
  | .switch => if (Text.readBool? value).isSome then .ok set else .error (.badSwitch flag value)

end Parsed

inductive ShortWord where
  | done (p : Parsed)
  /-- Its last flag takes the next word as its value; `cluster` starts with that flag. -/
  | waits (p : Parsed) (flag : Flag) (c : Char) (cluster : String)

def firstByteChar (c : Char) : Char := Char.ofNat ((String.singleton c).toUTF8.data.toList.headD 0).toNat

def readShort (flags : List Flag) : List Char → Parsed → Except FlagError ShortWord
  | [], p => .ok (.done p)
  | c :: rest, p =>
    let cluster := String.ofList (c :: rest)
    if "test.".isPrefixOf cluster then .ok (.done p)
    else
      match flags.find? (·.short = some c) with
      | none => .error (.unknownShort (firstByteChar c) cluster)
      | some flag =>
        match rest with
        | '=' :: v :: value => (p.set flag (String.ofList (v :: value))).map .done
        | _ =>
          if flag.kind = .switch then do readShort flags rest (← p.set flag "true")
          else if rest.isEmpty then .ok (.waits p flag c cluster)
          else (p.set flag (String.ofList rest)).map .done

def splitEquals (cs : List Char) : String × Option String :=
  let name := String.ofList (cs.takeWhile (· ≠ '='))
  match cs.dropWhile (· ≠ '=') with
  | _ :: value => (name, some (String.ofList value))
  | [] => (name, none)

def readFlags (flags : List Flag) : List String → Parsed → Except FlagError Parsed
  | [], p => .ok p
  | word :: words, p =>
    match word.toList with
    | ['-', '-'] => .ok { p with args := p.args ++ words }
    | '-' :: '-' :: body =>
      if body.head? = some '-' || body.head? = some '=' then .error (.badForm word)
      else
        let (name, value) := splitEquals body
        match flags.find? (·.name = name) with
        | none => .error (.unknown name)
        | some flag =>
          match value with
          | some value => do readFlags flags words (← p.set flag value)
          | none =>
            if flag.kind = .switch then do readFlags flags words (← p.set flag "true")
            else
              match words with
              | value :: words => do readFlags flags words (← p.set flag value)
              | [] => .error (.needsValue word)
    | '-' :: c :: cluster => do
      match ← readShort flags (c :: cluster) p with
      | .done p => readFlags flags words p
      | .waits p flag c cluster =>
        match words with
        | value :: words => do readFlags flags words (← p.set flag value)
        | [] => .error (.shortNeedsValue c cluster)
    | _ => readFlags flags words (p.addArg word)

end TreeWalk
