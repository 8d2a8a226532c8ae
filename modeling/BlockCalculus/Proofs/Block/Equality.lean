import BlockCalculus.Block.Equality

/-! Equality of separately built blocks is symmetric, so a guard may look at
its two operands in either order. -/

namespace BlockCalculus

theorem Binary64.sameValue_comm (x y : Binary64) : x.sameValue y = y.sameValue x := by
  have h : (x == y) = (y == x) := by rw [Bool.eq_iff_iff, beq_iff_eq, beq_iff_eq, eq_comm]
  rw [sameValue, sameValue, h, Bool.and_comm (!x.isNaN), Bool.and_comm (x.magnitude == 0)]

theorem Block.equal_comm (a b : Block) : a.equal b = b.equal a := by
  unfold equal
  induction a generalizing b with
  | prim p => cases b <;> simp [equalUpTo, Bool.beq_comm]
  | link t => cases b <;> simp [equalUpTo, Bool.beq_comm]
  | var n => cases b <;> simp [equalUpTo, Bool.beq_comm]
  | num x => cases b <;> simp [equalUpTo, Binary64.sameValue_comm]
  | empty => cases b <;> rfl
  | quote body ih =>
    cases b with
    | quote other => simpa [equalUpTo] using ih other
    | _ => rfl
  | pair a₁ a₂ ih₁ ih₂ =>
    cases b with
    | pair b₁ b₂ => simp [equalUpTo, ih₁ b₁, ih₂ b₂]
    | _ => rfl

end BlockCalculus
