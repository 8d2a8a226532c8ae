import BlockCalculus.Block.Joining
import BlockCalculus.Proofs.Block.Composition

/-! Joining agrees with composing. Whatever is joined, its pieces stay in order,
so the two differ exactly where joining leaves a block that is not normal. -/

namespace BlockCalculus.Block

theorem drain_of_next? {rest rest' : Option Block} {entry : Block}
    (h : next? rest = some (entry, rest')) : drain rest = entry :: drain rest' := by
  rw [drain]
  split <;> simp_all

theorem drain_of_done {rest : Option Block} (h : next? rest = none) : drain rest = [] := by
  rw [drain]
  split <;> simp_all

theorem drain_eq_items (b : Block) : drain (some b) = b.items := by
  have hone (b : Block) (hb : next? (some b) = some (b, none)) : drain (some b) = [b] := by
    rw [drain_of_next? hb, drain_of_done rfl]
  induction b with
  | empty => exact drain_of_done rfl
  | pair a b _ ih => rw [drain_of_next? rfl, ih, items]
  | _ => exact hone _ rfl

theorem joinOnto_eq_foldl (built : Block) (waiting : List Block) :
    joinOnto built waiting = waiting.foldl (fun built b => append b built) built := by
  induction waiting generalizing built with
  | nil => rfl
  | cons b waiting ih =>
    by_cases he : built.isEmpty
    · simp only [joinOnto, List.foldl_cons, append, he, if_true, ih]
    · simp only [joinOnto, List.foldl_cons, append, he, Bool.false_eq_true, if_false, ih,
        drain_eq_items, List.foldl_reverse]

theorem joinInPlace_eq_join (blocks : List Block) : joinInPlace blocks = join blocks := by
  rw [joinInPlace, joinOnto_eq_foldl, List.foldl_reverse, join]

theorem join_eq_compose_iff {blocks : List Block} :
    join blocks = compose blocks ↔ (join blocks).isNormal := by
  constructor
  · intro h
    rw [h]
    exact isNormal_compose blocks
  · intro h
    apply eq_of_pieces_eq h (isNormal_compose blocks)
    rw [pieces_join, pieces_compose]

/-- Joining keeps the pieces of its operands in order and agrees with composing exactly if
the result is in normal form. If the operands are, it is, and its entries are theirs in a
row. -/
theorem joining_agrees_with_composing :
    (∀ blocks, joinInPlace blocks = join blocks) ∧
    (∀ blocks, (joinInPlace blocks).pieces = blocks.flatMap pieces) ∧
    (∀ blocks, joinInPlace blocks = composeInPlace blocks ↔ (joinInPlace blocks).isNormal) ∧
    ∀ blocks : List Block, (∀ b ∈ blocks, b.isNormal) →
      joinInPlace blocks = composeInPlace blocks ∧ (joinInPlace blocks).isNormal ∧
        (joinInPlace blocks).items = blocks.flatMap items := by
  refine ⟨joinInPlace_eq_join, fun blocks => ?_, fun blocks => ?_, fun blocks h => ?_⟩
  · rw [joinInPlace_eq_join, pieces_join]
  · rw [joinInPlace_eq_join, composeInPlace_eq_compose, join_eq_compose_iff]
  · have hjoin : join blocks = compose blocks := join_of_isNormal h
    have hnormal := join_eq_compose_iff.mp hjoin
    rw [joinInPlace_eq_join, composeInPlace_eq_compose]
    refine ⟨hjoin, hnormal, ?_⟩
    rw [← pieces_eq_items hnormal, pieces_join]
    exact List.flatMap_congr fun b hb => pieces_eq_items (h b hb)

end BlockCalculus.Block
