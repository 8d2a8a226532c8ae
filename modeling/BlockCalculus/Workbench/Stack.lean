/-! Stacks as lists with the top first. -/

namespace BlockCalculus

abbrev Stack (α : Type) := List α

namespace Stack

variable {α : Type}

/-- The entry so many places below the top. -/
def peek? (s : Stack α) (depth : Nat) : Option α :=
  s[depth]?

/-- Takes off the top. -/
def pop? : Stack α → Option (α × Stack α)
  | [] => none
  | top :: rest => some (top, rest)

/-- Exchanges the top two entries, if there are two. -/
def exchange? : Stack α → Option (Stack α)
  | a :: b :: rest => some (b :: a :: rest)
  | _ => none

/-- The entries from the bottom to the top. -/
def fromBottom (s : Stack α) : List α :=
  s.reverse

end Stack

end BlockCalculus
