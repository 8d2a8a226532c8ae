import BlockCalculus.Names.InFlight
import BlockCalculus.Names.Substitution
import BlockCalculus.Notation.Read

/-! Named blocks whose bodies may mention other names. Resolving a name
replaces the names in its body in turn; asking for a name in its own expansion
is a cycle. -/

namespace BlockCalculus

/-- One body for each name. -/
structure Definitions where
  entries : List (String × Block)
  deriving DecidableEq

namespace Definitions

def empty : Definitions :=
  ⟨[]⟩

/-- Gives a name its body, in place of an earlier one. -/
def define (d : Definitions) (name : String) (body : Block) : Definitions :=
  ⟨(name, body) :: d.entries.filter fun e => e.1 ≠ name⟩

def defineText (d : Definitions) (name text : String) : Except ReadError Definitions := do
  return d.define name (← Notation.parse text)

def find? (d : Definitions) (name : String) : Option Block :=
  d.entries.lookup name

def size (d : Definitions) : Nat :=
  d.entries.length

/-- The block behind a name, met while other names are being expanded. -/
def expand (d : Definitions) (inFlight : List String) (name : String) : Except ReadError Block :=
  if _ : name ∈ inFlight then .error (.cycle name)
  else
    match _ : d.find? name with
    | none => .error (.missing name .undefined)
    | some body => body.substitute fun inner => d.expand (name :: inFlight) inner
termination_by remaining d.entries inFlight
decreasing_by exact remaining_cons_lt (by assumption) (by assumption)

def resolve (d : Definitions) (name : String) : Except ReadError Block :=
  d.expand [] name

end Definitions

end BlockCalculus
