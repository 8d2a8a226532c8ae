import BlockCalculus.Block.Basic

/-! Replacing names by blocks, from left to right and at any depth. The lookup
may fail or keep a memory, so substitution runs in the monad of the lookup. -/

namespace BlockCalculus.Block

variable {m : Type → Type} [Monad m]

/-- The pieces of a block with each name replaced by the pieces of its
answer. -/
def substitutePieces (lookup : String → m Block) : Block → m (List Block)
  | empty => pure []
  | pair a b => do
    let before ← substitutePieces lookup a
    let after ← substitutePieces lookup b
    pure (before ++ after)
  | quote body => do
    let inner ← substitutePieces lookup body
    pure [quote (ofItems inner)]
  | var name => do
    let answer ← lookup name
    pure answer.pieces
  | b => pure [b]

def substitute (lookup : String → m Block) (b : Block) : m Block := do
  let parts ← b.substitutePieces lookup
  pure (ofItems parts)

end BlockCalculus.Block
