import BlockCalculus.Block.Cell
import BlockCalculus.Proofs.Block.Composition

/-! What is done with blocks as they lie in memory is done with the blocks. Each
operation on cells is the operation of the same name on what they stand for, and
composition takes labelled quotations over as they are. -/

namespace BlockCalculus

theorem Block.join_pair (a b : Block) : join [a, b] = append a b :=
  rfl

namespace Cell

@[simp] theorem block_ofBlock (b : Block) : (ofBlock b).block = b := by
  induction b with
  | quote body ih => rw [ofBlock, block, ih]
  | pair a b iha ihb => rw [ofBlock, block, iha, ihb]
  | _ => rfl

theorem eq_empty_of_ofBlock {b : Block} (h : ofBlock b = empty) : b = .empty := by
  rw [← block_ofBlock b, h, block]

@[simp] theorem isEmpty_block (c : Cell) : c.block.isEmpty = c.isEmpty := by
  cases c <;> rfl

theorem eq_empty_of_block {c : Cell} (h : c.block = .empty) : c = empty := by
  cases c <;> first | rfl | cases h

theorem eq_prim_of_block {c : Cell} {p : Primitive} (h : c.block = .prim p) : c = prim p := by
  cases c <;> first | exact congrArg prim (Block.prim.inj h) | cases h

theorem eq_var_of_block {c : Cell} {name : String} (h : c.block = .var name) : c = var name := by
  cases c <;> first | exact congrArg var (Block.var.inj h) | cases h

theorem exists_quote_of_block {c : Cell} {b : Block} (h : c.block = .quote b) :
    ∃ l body, c = quote l body ∧ body.block = b := by
  cases c with
  | quote l body => exact ⟨l, body, rfl, Block.quote.inj h⟩
  | _ => cases h

theorem exists_pair_of_block {c : Cell} {a b : Block} (h : c.block = .pair a b) :
    ∃ l x m y, c = pair l x m y ∧ x.block = a ∧ y.block = b := by
  cases c with
  | pair l x m y => exact ⟨l, x, m, y, rfl, (Block.pair.inj h).1, (Block.pair.inj h).2⟩
  | _ => cases h

@[simp] theorem block_items (c : Cell) : c.items.map block = c.block.items := by
  induction c with
  | pair _ a _ b _ ih => rw [items, List.map_cons, ih, block, Block.items]
  | _ => rfl

@[simp] theorem block_ofItems (l : List Cell) : (ofItems l).block = .ofItems (l.map block) := by
  induction l with
  | nil => rfl
  | cons c l ih =>
    cases l with
    | nil => rfl
    | cons d l => exact congrArg (Block.pair c.block) ih

@[simp] theorem block_pieces (c : Cell) : c.pieces.map block = c.block.pieces := by
  induction c with
  | pair _ a _ b iha ihb => rw [pieces, List.map_append, iha, ihb, block, Block.pieces]
  | quote l body ih =>
    by_cases hb : body.block.isNormal
    · rw [pieces, if_pos hb, block, Block.pieces, Block.ofItems_pieces hb]
      rfl
    · rw [pieces, if_neg hb, block, Block.pieces, ← ih, ← block_ofItems]
      rfl
  | _ => rfl

theorem block_prepend (entry built : Cell) :
    (entry.prepend built).block = entry.block.prepend built.block := by
  rw [prepend, Block.prepend, isEmpty_block]
  split <;> rfl

theorem block_foldr_prepend (l : List Cell) (built : Cell) :
    (l.foldr prepend built).block = (l.map block).foldr Block.prepend built.block := by
  induction l with
  | nil => rfl
  | cons c l ih => rw [List.foldr_cons, block_prepend, ih, List.map_cons, List.foldr_cons]

theorem compose_cons (c : Cell) (rest : List Cell) :
    compose (c :: rest) =
      if (compose rest).isEmpty && c.block.isNormal then c else c.pieces.foldr prepend (compose rest) :=
  rfl

@[simp] theorem block_compose (cells : List Cell) :
    (compose cells).block = .compose (cells.map block) := by
  induction cells with
  | nil => rfl
  | cons c rest ih =>
    rw [compose_cons, List.map_cons]
    split
    · rename_i h
      obtain ⟨he, hn⟩ := Bool.and_eq_true_iff.mp h
      rw [← isEmpty_block, ih] at he
      exact (Block.compose_cons_of_isNormal he hn).symm
    · rw [block_foldr_prepend, ih, block_pieces, ← Block.compose_cons_eq_foldr]

@[simp] theorem block_append (a b : Cell) : (a.append b).block = a.block.append b.block := by
  rw [append, Block.append, isEmpty_block]
  split
  · rfl
  · rw [← block_items]
    induction a.items with
    | nil => rfl
    | cons c l ih => rw [List.foldr_cons, before, block, ih, List.map_cons, List.foldr_cons]

theorem block_mark (time : Nat) (place : Block.Place) (c : Cell) : (c.mark time place).block = c.block := by
  induction c generalizing place with
  | quote l body ih => rw [mark, block, ih, block]
  | pair l a m b iha ihb => rw [mark, block, iha, ihb, block]
  | _ => rfl

@[simp] theorem block_copied (time : Nat) (c : Cell) : (c.copied time).block = c.block :=
  block_mark time [] c

/-! Pieces with their labels. -/

theorem items_of_isPiece {c : Cell} (h : c.block.isPiece) : c.items = [c] := by
  cases c <;> simp_all [block, Block.isPiece, Block.isPair, Block.isEmpty, items]

theorem pieces_of_isPiece {c : Cell} (h : c.block.isPiece) : c.pieces = [c] := by
  cases c with
  | quote l body => exact if_pos (Block.isNormal_of_isPiece h)
  | empty | pair => cases h
  | _ => rfl

theorem pieces_eq_items {c : Cell} (hc : c.block.isNormal) : c.pieces = c.items := by
  induction c with
  | pair l a m b _ ih =>
    obtain ⟨ha, -, hb⟩ := Block.isNormal_pair_iff.mp hc
    rw [pieces, pieces_of_isPiece ha, ih hb]
    rfl
  | quote l body => exact pieces_of_isPiece (c := quote l body) hc
  | _ => rfl

theorem isPiece_of_mem_pieces {c x : Cell} (hx : x ∈ c.pieces) : x.block.isPiece := by
  have hb := List.mem_map_of_mem (f := block) hx
  rw [block_pieces] at hb
  exact Block.isPiece_of_mem_pieces hb

theorem flatMap_pieces {l : List Cell} (hl : ∀ x ∈ l, x.block.isPiece) : l.flatMap pieces = l := by
  induction l with
  | nil => rfl
  | cons x l ih =>
    obtain ⟨hx, hl⟩ := List.forall_mem_cons.mp hl
    rw [List.flatMap_cons, pieces_of_isPiece hx, ih hl]
    rfl

theorem pieces_prepend (entry built : Cell) :
    (entry.prepend built).pieces = entry.pieces ++ built.pieces := by
  cases built with
  | empty => exact (List.append_nil _).symm
  | _ => rfl

theorem pieces_foldr_prepend (l : List Cell) (built : Cell) :
    (l.foldr prepend built).pieces = l.flatMap pieces ++ built.pieces := by
  induction l with
  | nil => rfl
  | cons c l ih => rw [List.foldr_cons, pieces_prepend, ih, List.flatMap_cons, List.append_assoc]

/-- Composing keeps the pieces, and the labels in them. -/
@[simp] theorem pieces_compose (cells : List Cell) :
    (compose cells).pieces = cells.flatMap pieces := by
  induction cells with
  | nil => rfl
  | cons c rest ih =>
    rw [compose_cons, List.flatMap_cons, ← ih]
    split
    · rename_i h
      have he : (compose rest).isEmpty := (Bool.and_eq_true_iff.mp h).1
      have hr : compose rest = empty := by cases hc : compose rest <;> simp_all [isEmpty]
      rw [hr]
      exact (List.append_nil _).symm
    · rw [pieces_foldr_prepend, flatMap_pieces fun _ hx => isPiece_of_mem_pieces hx]

theorem isNormal_compose (cells : List Cell) : (compose cells).block.isNormal := by
  rw [block_compose]
  exact Block.isNormal_compose _

theorem pieces_eq_nil_iff {c : Cell} : c.pieces = [] ↔ c.block.pieces = [] := by
  rw [← block_pieces, List.map_eq_nil_iff]

/-- Blocks in normal form are composed along their outer compositions only. -/
theorem append_eq_compose {a b : Cell} (ha : a.block.isNormal) (hb : b.block.isNormal) :
    a.append b = compose [a, b] := by
  have hfold (l : List Cell) {c : Cell} (hc : c.isEmpty = false) :
      l.foldr prepend c = l.foldr before c ∧ (l.foldr before c).isEmpty = false := by
    induction l with
    | nil => exact ⟨rfl, hc⟩
    | cons x l ih =>
      rw [List.foldr_cons, List.foldr_cons, ih.1, prepend, ih.2]
      exact ⟨rfl, rfl⟩
  have hlast : compose [b] = b := if_pos (Bool.and_eq_true_iff.mpr ⟨rfl, hb⟩)
  rw [append, compose_cons, hlast, ha, Bool.and_true, pieces_eq_items ha]
  cases hbe : b.isEmpty with
  | true => rfl
  | false => exact (hfold a.items hbe).1.symm

/-! Blocks that have just been built. -/

theorem ofItems_map (l : List Block) : ofItems (l.map ofBlock) = ofBlock (.ofItems l) := by
  induction l with
  | nil => rfl
  | cons b l ih =>
    cases l with
    | nil => rfl
    | cons c l => exact congrArg (before (ofBlock b)) ih

theorem pieces_ofBlock (b : Block) : (ofBlock b).pieces = b.pieces.map ofBlock := by
  induction b with
  | pair a b iha ihb => rw [ofBlock, pieces, iha, ihb, Block.pieces, List.map_append]
  | quote body ih =>
    rw [ofBlock, pieces, ih, ofItems_map, block_ofBlock, Block.pieces]
    split
    · rename_i hb
      rw [Block.ofItems_pieces hb]
      rfl
    · rfl
  | _ => rfl

/-- Composing what is not shared builds what is not shared. -/
theorem compose_map_ofBlock (blocks : List Block) :
    compose (blocks.map ofBlock) = ofBlock (.compose blocks) := by
  have hempty (b : Block) : (ofBlock b).isEmpty = b.isEmpty := by rw [← isEmpty_block, block_ofBlock]
  have hfold (l : List Block) (b : Block) :
      (l.map ofBlock).foldr prepend (ofBlock b) = ofBlock (l.foldr Block.prepend b) := by
    induction l with
    | nil => rfl
    | cons c l ih =>
      rw [List.map_cons, List.foldr_cons, ih, prepend, hempty, List.foldr_cons, Block.prepend]
      split <;> rfl
  induction blocks with
  | nil => rfl
  | cons b rest ih =>
    rw [List.map_cons, compose_cons, ih, hempty, block_ofBlock]
    split
    · rename_i h
      obtain ⟨he, hn⟩ := Bool.and_eq_true_iff.mp h
      rw [Block.compose_cons_of_isNormal he hn]
    · rw [pieces_ofBlock, hfold, ← Block.compose_cons_eq_foldr]

end Cell

end BlockCalculus
