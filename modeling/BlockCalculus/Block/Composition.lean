import BlockCalculus.Block.Basic

/-! Composition as it is carried out, from the last block to the first. What is
in normal form already is taken over: a single block, the last one that is not
empty, and bodies of quotations. Only the rest is taken apart. -/

namespace BlockCalculus.Block

/-- One entry in front of what is composed already. -/
def prepend (entry built : Block) : Block :=
  if built.isEmpty then entry else pair entry built

/-- The number of constructors in all the blocks. -/
def totalNodes (blocks : List Block) : Nat :=
  blocks.foldr (fun b n => b.nodes + n) 0

mutual

/-- The entries of blocks that wait to be taken apart, the next one first. -/
def entries (waiting : List Block) : List Block :=
  match waiting with
  | [] => []
  | empty :: waiting => entries waiting
  | pair a b :: waiting => entries (a :: b :: waiting)
  | quote body :: waiting =>
    (if body.isNormal then quote body else quote (composeInPlace [body])) :: entries waiting
  | b :: waiting => b :: entries waiting
termination_by 3 * totalNodes waiting
decreasing_by
  · simp only [totalNodes, List.foldr_cons, nodes]; omega
  · simp only [totalNodes, List.foldr_cons, nodes]; omega
  · simp only [totalNodes, List.foldr_cons, List.foldr_nil, nodes]; omega
  · simp only [totalNodes, List.foldr_cons, nodes]; omega
  · have := b.nodes_pos
    simp only [totalNodes, List.foldr_cons]; omega

def composeFromLast (blocks : List Block) : Block :=
  match blocks with
  | [] => empty
  | b :: rest =>
    let built := composeFromLast rest
    if b.isEmpty then built
    else if built.isEmpty && b.isNormal then b
    else (entries [b]).foldr prepend built
termination_by 3 * totalNodes blocks + 1
decreasing_by
  all_goals
    have := b.nodes_pos
    simp only [totalNodes, List.foldr_cons, List.foldr_nil]
    omega

def composeInPlace (blocks : List Block) : Block :=
  match blocks with
  | [b] => if b.isNormal then b else composeFromLast [b]
  | blocks => composeFromLast blocks
termination_by 3 * totalNodes blocks + 2

end

end BlockCalculus.Block
