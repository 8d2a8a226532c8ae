import BlockCalculus.Block.Marker
import BlockCalculus.Proofs.Block.Atoms
import BlockCalculus.Proofs.Block.Composition
import BlockCalculus.Proofs.Bytecode.RoundTrip

/-! Capabilities see every marker and nothing else. Wherever a marker stands, no
composition, quotation or code hides it or brings in another. -/

namespace BlockCalculus.Block

/-- The operator stands in the block, at some depth of compositions and
quotations. -/
inductive Holds (p : Primitive) : Block → Prop
  | here : Holds p (prim p)
  | body {body : Block} (h : Holds p body) : Holds p (quote body)
  | first {a b : Block} (h : Holds p a) : Holds p (pair a b)
  | second {a b : Block} (h : Holds p b) : Holds p (pair a b)

variable {p : Primitive}

theorem holds_iff_mem_atoms {b : Block} : Holds p b ↔ prim p ∈ b.atoms := by
  constructor
  · intro h
    induction h with
    | here => exact List.mem_singleton_self _
    | body _ ih => exact ih
    | first _ ih => exact List.mem_append_left _ ih
    | second _ ih => exact List.mem_append_right _ ih
  · intro h
    induction b with
    | empty => cases h
    | quote body ih => exact .body (ih h)
    | pair a b iha ihb =>
      rcases List.mem_append.mp h with h | h
      · exact .first (iha h)
      · exact .second (ihb h)
    | _ =>
      rw [← List.mem_singleton.mp h]
      exact .here

theorem holds_compose_iff {blocks : List Block} :
    Holds p (compose blocks) ↔ ∃ b ∈ blocks, Holds p b := by
  simp only [holds_iff_mem_atoms, atoms_compose, List.mem_flatMap]

theorem holds_quote_iff {body : Block} : Holds p (quote body) ↔ Holds p body := by
  simp only [holds_iff_mem_atoms, atoms]

theorem free_iff {waiting : List Block} : free p waiting ↔ ∀ b ∈ waiting, ¬Holds p b := by
  simp only [holds_iff_mem_atoms]
  fun_induction free p waiting with
  | case1 => simp
  | case2 waiting => simp [atoms]
  | case3 q waiting hq ih => simp [atoms, ih, Ne.symm hq]
  | case4 body waiting ih => simpa [atoms] using ih
  | case5 a b waiting ih => simp [atoms, ih, and_assoc]
  | case6 b waiting hprim hquote hpair ih =>
    have hb : prim p ∉ b.atoms := by cases b <;> simp_all [atoms]
    simp [hb, ih]

theorem hasInPlace_iff {c : Capability} {b : Block} : b.hasInPlace c ↔ ¬Holds c.marker b := by
  rw [hasInPlace, free_iff, List.forall_mem_singleton]

theorem hasInPlace_eq_has (c : Capability) (b : Block) : b.hasInPlace c = b.has c := by
  rw [Bool.eq_iff_iff, hasInPlace_iff, has_iff, holds_iff_mem_atoms]

theorem hasInPlace_compose_iff {c : Capability} {blocks : List Block} :
    (compose blocks).hasInPlace c ↔ ∀ b ∈ blocks, b.hasInPlace c := by
  simp only [hasInPlace_iff, holds_compose_iff, not_exists, not_and]

theorem hasInPlace_quote (c : Capability) (body : Block) :
    (quote body).hasInPlace c = body.hasInPlace c := by
  rw [Bool.eq_iff_iff, hasInPlace_iff, hasInPlace_iff, holds_quote_iff]

/-- A capability is missing exactly if its marker stands somewhere in the block. So a
composition has the capabilities that all its operands have, a quotation has those of its
body, and what has been written as bytecode has them all again once it is read. -/
theorem capabilities_see_markers :
    (∀ (b : Block) c, b.hasInPlace c = b.has c) ∧
    (∀ (b : Block) c, b.hasInPlace c = false ↔ Holds c.marker b) ∧
    (∀ blocks c, (composeInPlace blocks).hasInPlace c ↔ ∀ b ∈ blocks, b.hasInPlace c) ∧
    (∀ (body : Block) c, (quote body).hasInPlace c = body.hasInPlace c) ∧
    ∀ b : Block, b.names = [] → ∃ bytes read, Bytecode.encode b = .ok bytes ∧
      Bytecode.decode bytes = .ok read ∧ ∀ c, read.hasInPlace c = b.hasInPlace c := by
  refine ⟨fun b c => hasInPlace_eq_has c b, fun b c => ?_, fun blocks c => ?_,
    fun body c => hasInPlace_quote c body, fun b hb => ?_⟩
  · rw [← Bool.not_eq_true, hasInPlace_iff, not_not]
  · rw [composeInPlace_eq_compose, hasInPlace_compose_iff]
  · refine ⟨Bytecode.written b, compose [b], Bytecode.encode_of_names_eq_nil hb,
      Bytecode.decode_written hb, fun c => ?_⟩
    rw [Bool.eq_iff_iff, hasInPlace_compose_iff, List.forall_mem_singleton]

end BlockCalculus.Block
