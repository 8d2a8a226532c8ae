import BlockCalculus.Names.Substitution
import BlockCalculus.Workbench.Edit

/-! Lines of commands for a workbench. The words of a line are commands, run
from left to right; a failing command does not stop the line. -/

namespace BlockCalculus

inductive Command where
  | edit (e : Edit)
  /-- Reads the words that follow as one block. -/
  | push (words : List (List Char))
  | help
  | quit
  | unknown (word : String)

inductive LineResult where
  | success
  | output (text : String)
  | error (text : String)
  | exit
  deriving DecidableEq, Repr

namespace Command

def helpText : String :=
  "\n".intercalate [
    "Commands (several per line, separated by spaces):",
    "  opid opapp opbox opcat opcopy opdrop opswap   push a primitive",
    "  mkbox / rmbox       quote the top entry / unquote it",
    "  mkcat / rmcat       join the top two entries / split the top one",
    "  mklink / rmlink     replace the top entry by its hash / undo",
    "  copy drop swap      shuffle the stack",
    "  reduce              reduce the top entry",
    "  push <text>         read the rest of the line and push it",
    "  help                show this text",
    "  quit                write the composed stack as bytecode and exit"]

/-- The command that a word stands for by itself. -/
def ofWord (quota : Nat) (word : String) : Command :=
  match word with
  | "opid" => edit (.push .empty)
  | "opapp" => edit (.push (.prim .app))
  | "opbox" => edit (.push (.prim .box))
  | "opcat" => edit (.push (.prim .cat))
  | "opcopy" => edit (.push (.prim .copy))
  | "opdrop" => edit (.push (.prim .drop))
  | "opswap" => edit (.push (.prim .swap))
  | "mkbox" => edit .box
  | "rmbox" => edit .unbox
  | "mkcat" => edit .join
  | "rmcat" => edit .split
  | "mklink" => edit .mint
  | "rmlink" => edit .follow
  | "copy" => edit .copy
  | "drop" => edit .drop
  | "swap" => edit .swap
  | "reduce" => edit (.reduce quota)
  | "help" => help
  | "quit" => quit
  | _ => unknown word

/-- The commands of a line; a push takes the rest of it. -/
def ofWords (quota : Nat) : List (List Char) → List Command
  | [] => []
  | w :: rest =>
    if w = "push".toList then [push rest]
    else ofWord quota (String.ofList w) :: ofWords quota rest

end Command

/-- What the commands of a line had to say, latest first. -/
structure Messages where
  output : List String
  errors : List String

def Messages.result (m : Messages) : LineResult :=
  if !m.errors.isEmpty then .error ("\n".intercalate (m.output.reverse ++ m.errors.reverse))
  else if !m.output.isEmpty then .output ("\n".intercalate m.output.reverse)
  else .success

namespace Workbench

variable {σ : Type}

def readWith (host : Host σ) (tokens : List Token) : ExceptT ReadError (StateM σ) Block := do
  match Notation.assemble tokens with
  | .ok b => b.substitute (host.resolve · : String → ExceptT ReadError (StateM σ) Block)
  | .error e => throw e

/-- Runs commands; the first `quit` ends the line at once. -/
def runCommands (host : Host σ) : List Command → Workbench → Messages → σ →
    LineResult × Workbench × σ
  | [], w, said, memory => (said.result, w, memory)
  | .quit :: _, w, _, memory => (.exit, w, memory)
  | .help :: rest, w, said, memory =>
    runCommands host rest w { said with output := Command.helpText :: said.output } memory
  | .unknown word :: rest, w, said, memory =>
    runCommands host rest w
      { said with errors := ("Unknown command: " ++ word) :: said.errors } memory
  | .edit e :: rest, w, said, memory =>
    match w.edit host e memory with
    | (.ok w, memory) => runCommands host rest w said memory
    | (.error e, memory) =>
      runCommands host rest w
        { said with errors := ("Error: " ++ e.message) :: said.errors } memory
  | .push words :: rest, w, said, memory =>
    match readWith host (words.flatMap Token.scan) memory with
    | (.ok b, memory) => runCommands host rest { w with stack := b :: w.stack } said memory
    | (.error e, memory) =>
      runCommands host rest w
        { said with errors := ("Error: " ++ e.message) :: said.errors } memory

/-- Runs a line of commands. -/
def execute (host : Host σ) (quota : Nat) (line : String) (w : Workbench) (memory : σ) :
    LineResult × Workbench × σ :=
  runCommands host (Command.ofWords quota (words line.toList)) w ⟨[], []⟩ memory

/-- The bytecode of the whole stack, and how writing it ended. -/
def written (w : Workbench) : Bytes × Except EncodeError Unit :=
  Bytecode.encodeInto [] none w.block

end Workbench

end BlockCalculus
