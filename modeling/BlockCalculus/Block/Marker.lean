import BlockCalculus.Block.Composition

/-! Looking for a marker in place, over a list of blocks that are still to be
looked into. The search ends with the first marker that it comes to. -/

namespace BlockCalculus.Block

/-- No block that waits holds the operator. The next one to look into comes
first; a composition is followed by its parts, a quotation by its body. -/
def free (p : Primitive) (waiting : List Block) : Bool :=
  match waiting with
  | [] => true
  | prim q :: waiting => if q = p then false else free p waiting
  | quote body :: waiting => free p (body :: waiting)
  | pair a b :: waiting => free p (a :: b :: waiting)
  | _ :: waiting => free p waiting
termination_by totalNodes waiting
decreasing_by
  · simp only [totalNodes, List.foldr_cons, nodes]; omega
  · simp only [totalNodes, List.foldr_cons, nodes]; omega
  · simp only [totalNodes, List.foldr_cons, nodes]; omega
  · rename_i b
    have := b.nodes_pos
    simp only [totalNodes, List.foldr_cons]; omega

def hasInPlace (c : Capability) (b : Block) : Bool :=
  free c.marker [b]

end BlockCalculus.Block
