import BlockCalculus.Proofs.Block.NormalForm
import BlockCalculus.Proofs.Names.Substitution

/-! The indivisible parts of a block. Names and markers are found among them,
and substitution replaces them one by one. -/

namespace BlockCalculus.Block

/-- The parts at any depth that are neither compositions nor quotations nor
empty. -/
def atoms : Block → List Block
  | empty => []
  | pair a b => a.atoms ++ b.atoms
  | quote body => body.atoms
  | b => [b]

theorem atoms_of_mem_atoms {b x : Block} (hx : x ∈ b.atoms) : x.atoms = [x] := by
  induction b with
  | empty => simp [atoms] at hx
  | pair a b iha ihb =>
    rcases List.mem_append.mp hx with hx | hx
    · exact iha hx
    · exact ihb hx
  | quote body ih => exact ih hx
  | _ =>
    rw [List.mem_singleton.mp hx]
    rfl

theorem mem_names_iff {b : Block} {n : String} : n ∈ b.names ↔ var n ∈ b.atoms := by
  induction b with
  | pair a b iha ihb => simp [names, atoms, iha, ihb]
  | quote body ih => exact ih
  | _ => simp [names, atoms]

theorem has_iff {b : Block} {c : Capability} : b.has c ↔ prim c.marker ∉ b.atoms := by
  induction b with
  | prim p =>
    change (p != c.marker) = true ↔ prim c.marker ∉ [prim p]
    rw [bne_iff_ne, ne_comm, List.mem_singleton, prim.injEq]
  | pair a b iha ihb => simp [has, atoms, iha, ihb]
  | quote body ih => exact ih
  | _ => simp [has, atoms]

@[simp] theorem atoms_ofItems (l : List Block) : (ofItems l).atoms = l.flatMap atoms := by
  induction l with
  | nil => rfl
  | cons b l ih =>
    cases l with
    | nil => simp [ofItems]
    | cons c l => simp [ofItems, atoms, ih]

@[simp] theorem flatMap_atoms_pieces (b : Block) : b.pieces.flatMap atoms = b.atoms := by
  induction b with
  | pair a b iha ihb => simp [pieces, atoms, iha, ihb]
  | quote body ih => simp [pieces, atoms, ih]
  | _ => rfl

@[simp] theorem atoms_compose (blocks : List Block) : (compose blocks).atoms = blocks.flatMap atoms := by
  simp [compose, List.flatMap_assoc]

@[simp] theorem atoms_join (blocks : List Block) : (join blocks).atoms = blocks.flatMap atoms := by
  rw [← flatMap_atoms_pieces, pieces_join, List.flatMap_assoc]
  simp only [flatMap_atoms_pieces]

theorem atoms_filled (answers : String → Except ReadError Block) (b : Block) :
    (b.filled answers).atoms = b.atoms.flatMap fun x => (x.filled answers).atoms := by
  simp only [filled, atoms_ofItems]
  induction b with
  | pair a b iha ihb => simp [fill, atoms, iha, ihb]
  | quote body ih => simpa [fill, atoms] using ih
  | _ => simp [fill, atoms]

end BlockCalculus.Block
