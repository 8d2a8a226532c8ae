import BlockCalculus.Block.Cell
import BlockCalculus.Notation.Read
import BlockCalculus.Notation.Render

/-! What happens on the way to a result, and the line that reports it. -/

namespace BlockCalculus

/-- How much an event matters. -/
inductive Level where
  | error | warning | info | debug | trace
  deriving DecidableEq, Repr

namespace Level

def name : Level → String
  | error => "error"
  | warning => "warn"
  | info => "info"
  | debug => "debug"
  | trace => "trace"

/-- The start of a line of the report, five characters wide. -/
def label : Level → String
  | error => "ERROR"
  | warning => " WARN"
  | info => " INFO"
  | debug => "DEBUG"
  | trace => "TRACE"

/-- Fine levels have high ranks. -/
def rank : Level → Nat
  | error => 0
  | warning => 1
  | info => 2
  | debug => 3
  | trace => 4

end Level

inductive Event where
  | starting
  | configLoaded (path : String)
  | decoding (length : Nat)
  | endedInsideQuotation (depth : Nat)
  /-- A step with this data stack and this much budget. -/
  | step (block : Cell) (data : List Cell) (fuel : Nat)
  | loaded (name : String)
  | resolved (name : String)
  | unresolved (name : String) (error : ReadError)
  | stuck (block : Cell) (data : List Cell)
  | finished (fuelUsed stuck : Nat) (exhausted : Bool)
  | tag (block : Block)
  | minted (target : Address)
  | historyNotSaved (fault : FileFault)
  | badHistoryLine (line : String)
  /-- Lines are read from something other than a terminal. -/
  | noTerminal

namespace Event

def level : Event → Level
  | step .. => .trace
  | badHistoryLine _ => .warning
  | _ => .debug

def quoted (s : String) : String :=
  "\"" ++ s ++ "\""

/-- Single steps are reported on the finest level only. -/
def isFine (e : Event) : Bool :=
  e.level = .trace

/-- Controls that a terminal could obey are named by their codes. -/
def showControl (c : Char) : String :=
  if c.toNat = 0x1B then "\\x1b"
  else if c.toNat = 0x07 then "\\x07"
  else if c.toNat = 0x08 then "\\x08"
  else if c.toNat = 0x0C then "\\x0c"
  else if c.toNat = 0x7F then "\\x7f"
  else if 0x80 ≤ c.toNat && c.toNat ≤ 0x9F then
    "\\u\x7b" ++ String.ofList (Nat.toDigits 16 c.toNat) ++ "\x7d"
  else String.singleton c

def showControls (text : String) : String :=
  String.join (text.toList.map showControl)

def version : String := "0.3.0"

/-- The message and its fields. -/
def message : Event → String
  | starting => "starting version=" ++ quoted version ++ " host=" ++ quoted "linux"
  | configLoaded path => "loaded configuration path=" ++ path
  | decoding length => "decoding bytecode len=" ++ toString length
  | endedInsideQuotation depth => "bytecode ended inside a quotation open=" ++ toString depth
  | step b data fuel =>
    "step block=" ++ b.block.render ++ " arity=" ++ toString data.length ++ " fuel=" ++ toString fuel
  | loaded name => "resolved from file name=" ++ quoted name
  | resolved name => "resolved name=" ++ name
  | unresolved name error => "unresolved name=" ++ name ++ " error=" ++ error.message
  | stuck b data => "stuck block=" ++ b.block.render ++ " arity=" ++ toString data.length
  | finished used failures exhausted =>
    "reduction finished fuel_used=" ++ toString used ++ " stuck=" ++ toString failures ++
      " exhausted=" ++ toString exhausted
  | tag b => "tag tag=" ++ b.render
  | minted target => "minted link=" ++ target.hex
  | historyNotSaved fault => "could not save history error=" ++ fault.message
  | badHistoryLine line => "bad escaped line: " ++ showControls line
  | noTerminal => "stdin is not a tty"

def line (e : Event) : String :=
  e.level.label ++ " " ++ e.message ++ "\n"

end Event

end BlockCalculus
