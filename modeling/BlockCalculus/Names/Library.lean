import BlockCalculus.Names.Definitions
import BlockCalculus.Names.Replacement
import BlockCalculus.Proofs.Block.Cell
import BlockCalculus.Reduction.State

/-! Definitions as they lie in memory. A body may share parts with whatever it was
built from; what stands for a name is built anew whenever the name is resolved. -/

namespace BlockCalculus

namespace Cell

theorem nodes_lt_of_mem_items {l m : Label} {a b x : Cell} (hx : x ∈ (pair l a m b).items) :
    x.block.nodes < (pair l a m b).block.nodes := by
  apply Block.nodes_lt_of_mem_items
  rw [← block, ← block_items]
  exact List.mem_map_of_mem hx

variable {m : Type → Type} [Monad m]

/-- Substitution in place. Quotations and compositions are built again around what
becomes of their parts. -/
def substitute (lookup : String → m Cell) (c : Cell) : m Cell :=
  match c with
  | var name => lookup name
  | quote _ body => do
    let body ← body.substitute lookup
    pure (quote .sole body)
  | pair l a m b => do
    let parts ← (pair l a m b).items.attach.mapM fun entry => entry.1.substitute lookup
    pure (compose parts)
  | c => pure c
termination_by c.block.nodes
decreasing_by
  · simp only [block, Block.nodes]; omega
  · exact nodes_lt_of_mem_items entry.2

end Cell

/-- One body for each name. -/
structure Library where
  entries : List (String × Cell)

namespace Library

def find? (d : Library) (name : String) : Option Cell :=
  d.entries.lookup name

/-- The definitions, whatever is shared in their bodies. -/
def definitions (d : Library) : Definitions :=
  ⟨d.entries.map fun e => (e.1, e.2.block)⟩

/-- What stands for a name, met while other names are being expanded. -/
def expand (d : Library) (inFlight : List String) (name : String) : Except ReadError Cell :=
  if _ : name ∈ inFlight then .error (.cycle name)
  else
    match _ : d.find? name with
    | none => .error (.missing name .undefined)
    | some body => body.substitute fun inner => d.expand (name :: inFlight) inner
termination_by remaining d.entries inFlight
decreasing_by exact remaining_cons_lt (by assumption) (by assumption)

def resolve (d : Library) (name : String) : Except ReadError Cell :=
  d.expand [] name

/-- A run that resolves names by these definitions. -/
def setting (d : Library) : Setting Unit where
  resolve name memory := (d.resolve name, memory)
  record _ memory := memory
  same := Cell.same

end Library

end BlockCalculus
