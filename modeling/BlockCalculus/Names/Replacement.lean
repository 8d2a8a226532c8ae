import BlockCalculus.Block.Composition
import BlockCalculus.Names.Substitution

/-! Substitution in place. A composition is taken apart into its entries, which
may be compositions or empty themselves, and what becomes of them is composed
again; an answer is taken over as it is. -/

namespace BlockCalculus.Block

theorem nodes_lt_of_mem_items {a b x : Block} (hx : x ∈ (pair a b).items) :
    x.nodes < (pair a b).nodes := by
  induction b generalizing a with
  | pair c d _ ih =>
    rcases List.mem_cons.mp hx with rfl | hx
    · simp only [nodes]; omega
    · have := ih hx
      simp only [nodes] at this ⊢; omega
  | empty =>
    rw [List.mem_singleton.mp hx, nodes]; omega
  | _ =>
    simp only [items, List.mem_cons, List.not_mem_nil, or_false] at hx
    rcases hx with rfl | rfl <;> simp only [nodes] <;> omega

variable {m : Type → Type} [Monad m]

def substituteInPlace (lookup : String → m Block) (b : Block) : m Block :=
  match b with
  | var name => lookup name
  | quote body => do
    let body ← body.substituteInPlace lookup
    pure (quote body)
  | pair a b => do
    let parts ← (pair a b).items.attach.mapM fun entry => entry.1.substituteInPlace lookup
    pure (composeInPlace parts)
  | b => pure b
termination_by b.nodes
decreasing_by
  · simp only [nodes]; omega
  · exact nodes_lt_of_mem_items entry.2

end BlockCalculus.Block
