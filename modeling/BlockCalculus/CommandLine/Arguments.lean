import BlockCalculus.Number.Decimal

/-! The arguments of a command. Options may stand anywhere among the operands,
take a value attached or as the next argument, and occur at most once; after
two dashes everything is an operand. -/

namespace BlockCalculus.CommandLine

inductive Switch where
  | verbose | quiet | config | quota | output | stats | hex | help | version
  deriving DecidableEq, Repr

namespace Switch

def long : Switch → String
  | verbose => "verbose"
  | quiet => "quiet"
  | config => "config"
  | quota => "quota"
  | output => "output"
  | stats => "stats"
  | hex => "hex"
  | help => "help"
  | version => "version"

def short? : Switch → Option Char
  | verbose => some 'v'
  | quota => some 'q'
  | output => some 'o'
  | help => some 'h'
  | version => some 'V'
  | _ => none

def takesValue : Switch → Bool
  | config | quota | output => true
  | _ => false

end Switch

/-- Why there is no request to run. -/
inductive Stop where
  /-- The arguments are not understood. -/
  | usage
  | help
  | version
  deriving DecidableEq, Repr

/-- The commands, each with operands of its own. -/
inductive Verb where
  | reduce | eval | encode | decode | hash | shell | help
  deriving DecidableEq, Repr

namespace Verb

def all : List Verb :=
  [reduce, eval, encode, decode, hash, shell, help]

def name : Verb → String
  | reduce => "reduce"
  | eval => "eval"
  | encode => "encode"
  | decode => "decode"
  | hash => "hash"
  | shell => "shell"
  | help => "help"

def ofName? (s : String) : Option Verb :=
  all.find? fun v => v.name == s

end Verb

/-- Switches understood in front of a command and anywhere. -/
def commonSwitches : List Switch :=
  [.verbose, .quiet, .config, .help]

/-- The switches in front of a command (`none`) or after it. -/
def switches : Option Verb → List Switch
  | none => .version :: commonSwitches
  | some .reduce => [.quota, .output, .stats] ++ commonSwitches
  | some .eval => [.quota, .stats] ++ commonSwitches
  | some .encode => .hex :: commonSwitches
  | some .shell => .quota :: commonSwitches
  | some _ => commonSwitches

/-- The most operands of a command. -/
def operandLimit : Option Verb → Nat
  | some .reduce | some .eval | some .encode | some .decode | some .hash => 1
  | _ => 0

/-- An unsigned number of 64 bits, with an optional plus sign. -/
def count? (s : String) : Option Nat :=
  let ds := match s.toList with
    | '+' :: rest => rest
    | cs => cs
  if !ds.isEmpty && ds.all Decimal.isDigit && Decimal.ofDigits ds < Nat.pow 2 64 then
    some (Decimal.ofDigits ds)
  else none

/-- How a result is written. -/
inductive Format where
  | text | hex | bytes
  deriving DecidableEq, Repr

def Format.ofName? : String → Option Format
  | "text" => some text
  | "hex" => some hex
  | "bytes" => some bytes
  | _ => none

/-- What has been given on one level, in front of a command or after it. -/
structure Given where
  verbose : Nat := 0
  flags : List Switch := []
  config : Option String := none
  quota : Option Nat := none
  output : Option Format := none
  operands : List String := []

namespace Given

def flag (g : Given) (s : Switch) : Except Stop Given :=
  match s with
  | .help => .error .help
  | .version => .error .version
  | .verbose => .ok { g with verbose := min 255 (g.verbose + 1) }
  | s => if s ∈ g.flags then .error .usage else .ok { g with flags := s :: g.flags }

def value (g : Given) (s : Switch) (v : String) : Except Stop Given :=
  match s with
  | .config =>
    if g.config.isSome || v.isEmpty then .error .usage else .ok { g with config := some v }
  | .quota =>
    match g.quota, count? v with
    | none, some n => .ok { g with quota := some n }
    | _, _ => .error .usage
  | .output =>
    match g.output, Format.ofName? v with
    | none, some f => .ok { g with output := some f }
    | _, _ => .error .usage
  | _ => .error .usage

def operand (verb : Option Verb) (g : Given) (v : String) : Except Stop Given :=
  if g.operands.length < operandLimit verb then .ok { g with operands := g.operands ++ [v] }
  else .error .usage

end Given

/-- Short switches in one argument. The last one may be left waiting for its
value. -/
def cluster (verb : Option Verb) (g : Given) : List Char → Except Stop (Given × Option Switch)
  | [] => .ok (g, none)
  | c :: rest =>
    match (switches verb).find? fun s => s.short? == some c with
    | none => .error .usage
    | some s =>
      if s.takesValue then
        match rest with
        | [] => .ok (g, some s)
        | '=' :: v => do return (← g.value s (String.ofList v), none)
        | v => do return (← g.value s (String.ofList v), none)
      else
        match g.flag s with
        | .ok g => cluster verb g rest
        | .error e => .error e

/-- A long switch, with the value behind its equals sign. -/
def longSwitch (verb : Option Verb) (g : Given) (body : List Char) :
    Except Stop (Given × Option Switch) :=
  let name := String.ofList (body.takeWhile (· != '='))
  match (switches verb).find? fun s => s.long == name, body.dropWhile (· != '=') with
  | none, _ => .error .usage
  | some s, [] => if s.takesValue then .ok (g, some s) else do return (← g.flag s, none)
  | some s, _ :: v =>
    if s.takesValue then do return (← g.value s (String.ofList v), none) else .error .usage

/-- The arguments of one level, up to the name of a command if there may be
one. -/
def scan (verb : Option Verb) (g : Given) :
    List String → Except Stop (Given × Option (Verb × List String))
  | [] => .ok (g, none)
  | arg :: rest =>
    match if verb.isNone then Verb.ofName? arg else none with
    | some next => .ok (g, some (next, rest))
    | none =>
      match arg.toList with
      | ['-', '-'] => do return (← rest.foldlM (Given.operand verb) g, none)
      | '-' :: c :: body =>
        let found := if c = '-' then longSwitch verb g body else cluster verb g (c :: body)
        match found, rest with
        | .error e, _ => .error e
        | .ok (g, none), rest => scan verb g rest
        | .ok (_, some _), [] => .error .usage
        | .ok (g, some s), v :: rest =>
          if v.startsWith "-" && v != "-" then .error .usage
          else
            match g.value s v with
            | .ok g => scan verb g rest
            | .error e => .error e
      | _ =>
        match g.operand verb arg with
        | .ok g => scan verb g rest
        | .error e => .error e

/-- What a command is to do. -/
inductive Action where
  | reduce (file : Option String) (quota : Option Nat) (output : Format) (stats : Bool)
  | eval (code : String) (quota : Option Nat) (stats : Bool)
  | encode (code : String) (hex : Bool)
  | decode (file : Option String)
  | hash (code : String)
  | shell (quota : Option Nat)
  deriving DecidableEq, Repr

structure Request where
  verbose : Nat
  quiet : Bool
  config : Option String
  action : Action
  deriving DecidableEq, Repr

/-- File names are not empty. -/
def file (operands : List String) : Except Stop (Option String) :=
  if operands.head? = some "" then .error .usage else .ok operands.head?

def code (operands : List String) : Except Stop String :=
  match operands with
  | c :: _ => .ok c
  | [] => .error .usage

def action (verb : Verb) (g : Given) : Except Stop Action :=
  match verb with
  | .reduce => do
    return .reduce (← file g.operands) g.quota (g.output.getD .bytes) (.stats ∈ g.flags)
  | .eval => do return .eval (← code g.operands) g.quota (.stats ∈ g.flags)
  | .encode => do return .encode (← code g.operands) (.hex ∈ g.flags)
  | .decode => do return .decode (← file g.operands)
  | .hash => do return .hash (← code g.operands)
  | .shell => .ok (.shell g.quota)
  | .help => .error .help

/-- Asking for help about a command. -/
def helpAbout : List String → Except Stop Request
  | [] => .error .help
  | [name] => .error (if (Verb.ofName? name).isSome then .help else .usage)
  | _ => .error .usage

/-- The request in the arguments. What is given after the command goes before
what is given in front of it. -/
def parse (args : List String) : Except Stop Request := do
  match ← scan none {} args with
  | (_, none) => throw .usage
  | (_, some (.help, rest)) => helpAbout rest
  | (outer, some (verb, rest)) =>
    match ← scan (some verb) {} rest with
    | (_, some _) => throw .usage
    | (inner, none) =>
      return {
        verbose := if inner.verbose = 0 then outer.verbose else inner.verbose
        quiet := .quiet ∈ inner.flags || .quiet ∈ outer.flags
        config := inner.config.orElse fun _ => outer.config
        action := ← action verb inner }

end BlockCalculus.CommandLine
