import BlockCalculus.Block.Basic

/-! Structural equality of blocks. Literals compare as values, so a NaN is
unequal to itself. A comparison may skip parts that are known to be shared. -/

namespace BlockCalculus.Block

/-- Comparison that settles parts by `shared` where it applies: bodies of
quotations, first parts, and second parts after first parts of the same
compound kind. -/
def equalUpTo (shared : Block → Block → Bool) : Block → Block → Bool
  | empty, empty => true
  | prim p, prim q => p == q
  | link a, link b => a == b
  | num x, num y => x.sameValue y
  | var a, var b => a == b
  | quote a, quote b => shared a b || equalUpTo shared a b
  | pair a b, pair c d =>
    (shared a c || equalUpTo shared a c) &&
      (!shared a c && sameCompound a c && shared b d || equalUpTo shared b d)
  | _, _ => false
where
  sameCompound : Block → Block → Bool
    | quote _, quote _ | pair .., pair .. => true
    | _, _ => false

/-- Equality of separately built blocks. -/
def equal (a b : Block) : Bool :=
  equalUpTo (fun _ _ => false) a b

end BlockCalculus.Block
