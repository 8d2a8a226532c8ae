import BlockCalculus.Block.Assembly
import BlockCalculus.Proofs.Block.NormalForm

/-! Blocks under construction: several entries added at once. -/

namespace BlockCalculus

namespace Assembly

def addAll (a : Assembly) (l : List Block) : Assembly :=
  { a with current := l.reverse ++ a.current }

theorem addAll_append (a : Assembly) (l m : List Block) :
    a.addAll (l ++ m) = (a.addAll l).addAll m := by
  simp [addAll]

theorem leave?_enter_addAll (a : Assembly) (b : Block) :
    (a.enter.addAll b.pieces).leave? = some (a.add (.quote (Block.ofItems b.pieces))) := by
  simp [addAll, enter, leave?, add, Block.join_pieces]

theorem block?_start_addAll (b : Block) :
    (start.addAll b.pieces).block? = some (Block.compose [b]) := by
  simp [addAll, start, block?, Block.join_pieces, Block.compose]

end Assembly

end BlockCalculus
