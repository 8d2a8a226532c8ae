import BlockCalculus.Event

/-! How much of the events is reported. -/

namespace BlockCalculus

inductive Verbosity where
  | quiet | normal | debug | trace
  deriving DecidableEq, Repr

namespace Verbosity

/-- Asking for quiet wins over any number of requests for more. -/
def ofFlags (verbose : Nat) (quiet : Bool) : Verbosity :=
  if quiet then .quiet
  else
    match verbose with
    | 0 => .normal
    | 1 => .debug
    | _ => .trace

def name : Verbosity → String
  | quiet => "Quiet"
  | normal => "Normal"
  | debug => "Debug"
  | trace => "Trace"

/-- The finest level that is reported. -/
def level : Verbosity → Level
  | quiet => .error
  | normal => .info
  | debug => .debug
  | trace => .trace

def tracesSteps (v : Verbosity) : Bool :=
  v = trace

def reports (v : Verbosity) (e : Event) : Bool :=
  e.level.rank ≤ v.level.rank

end Verbosity

end BlockCalculus
