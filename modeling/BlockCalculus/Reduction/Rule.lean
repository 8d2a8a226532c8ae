import BlockCalculus.Block.Cell

/-! The rewrite rules of the operators. Stacks are written with the top first. -/

namespace BlockCalculus.Primitive

/-- The code to run next and the data stack after a rule has fired; `none` if
the operator does not fire on this stack. Markers and the tag never do. Guards
compare by `same`, and both copies of a value remember when it was copied. -/
def fire (same : Cell → Cell → Bool) (time : Nat) :
    Primitive → List Cell → Option (List Cell × List Cell)
  | app, .quote _ body :: data => some ([body], data)
  | box, v :: data => some ([], .quote .sole v :: data)
  | cat, .quote _ upper :: .quote _ lower :: data => some ([], .quote .sole (lower.append upper) :: data)
  | copy, v :: data =>
    if v.block.has .copy then some ([], v.copied time :: v.copied time :: data) else none
  | drop, v :: data => if v.block.has .drop then some ([], data) else none
  | swap, v :: w :: data =>
    if v.block.has .swap && w.block.has .swap then some ([], w :: v :: data) else none
  | eq, v :: w :: data => if same v w then some ([], v :: w :: data) else none
  | neq, v :: w :: data => if same v w then none else some ([], v :: w :: data)
  | _, _ => none

end BlockCalculus.Primitive
