import BlockCalculus.Block.Basic

/-! Joining in place, from the last block to the first. Entries are taken off a
composition one by one; what is joined already, and the bodies of quotations,
are not looked into. -/

namespace BlockCalculus.Block

/-- The next entry of what is left of a composition, and what is left behind
it. There is nothing left in `none`. -/
def next? : Option Block → Option (Block × Option Block)
  | none | some empty => none
  | some (pair a b) => some (a, some b)
  | some b => some (b, none)

theorem next?_lt {rest rest' : Option Block} {entry : Block} (h : next? rest = some (entry, rest')) :
    rest'.elim 0 nodes < rest.elim 0 nodes := by
  rcases rest with _ | b
  · cases h
  · cases b <;> cases h <;> simp only [Option.elim, nodes] <;> omega

def drain (rest : Option Block) : List Block :=
  match _h : next? rest with
  | none => []
  | some (entry, rest') => entry :: drain rest'
termination_by rest.elim 0 nodes
decreasing_by exact next?_lt _h

/-- Goes on with the blocks that wait, the last one first. -/
def joinOnto (built : Block) : List Block → Block
  | [] => built
  | b :: waiting =>
    if built.isEmpty then joinOnto b waiting
    else joinOnto ((drain (some b)).reverse.foldl (fun built entry => pair entry built) built) waiting

def joinInPlace (blocks : List Block) : Block :=
  joinOnto empty blocks.reverse

end BlockCalculus.Block
