import BlockCalculus.Block.Basic

/-! Building a block from a stream in which quotations open and close. -/

namespace BlockCalculus

/-- The entries read so far, newest first: those of the innermost quotation
and of each one around it, from the inside out. -/
structure Assembly where
  current : List Block
  outer : List (List Block)
  deriving DecidableEq

namespace Assembly

def start : Assembly :=
  ⟨[], []⟩

def add (a : Assembly) (b : Block) : Assembly :=
  { a with current := b :: a.current }

def enter (a : Assembly) : Assembly :=
  ⟨[], a.current :: a.outer⟩

/-- Closes the innermost quotation, if one is open. -/
def leave? (a : Assembly) : Option Assembly :=
  match a.outer with
  | [] => none
  | around :: outer => some ⟨.quote (Block.join a.current.reverse) :: around, outer⟩

/-- The number of open quotations. -/
def depth (a : Assembly) : Nat :=
  a.outer.length

/-- The assembled block, unless a quotation is open. -/
def block? (a : Assembly) : Option Block :=
  if a.outer.isEmpty then some (Block.join a.current.reverse) else none

end Assembly

end BlockCalculus
