import BlockCalculus.Block.Basic

/-! Normal forms. The pieces of a block are what its normal form is made of, so
two blocks in normal form with the same pieces are identical. -/

namespace BlockCalculus.Block

/-- An entry of a composition in normal form. -/
def isPiece (b : Block) : Bool :=
  !b.isPair && !b.isEmpty && b.isNormal

theorem isNormal_of_isPiece {b : Block} (h : b.isPiece) : b.isNormal := by
  simp only [isPiece, Bool.and_eq_true] at h
  exact h.2

theorem isNormal_pair_iff {a b : Block} :
    (pair a b).isNormal ↔ a.isPiece ∧ b.isEmpty = false ∧ b.isNormal := by
  simp [isNormal, isPiece, and_assoc, and_left_comm]

theorem isPiece_of_isValue {v : Block} (hv : v.isValue) (hn : v.isNormal) : v.isPiece := by
  cases v <;> simp_all [isPiece, isValue, isPair, isEmpty]

theorem items_of_isPiece {b : Block} (h : b.isPiece) : b.items = [b] := by
  cases b <;> simp_all [isPiece, isPair, isEmpty, items]

theorem items_eq_nil_iff {b : Block} : b.items = [] ↔ b = empty := by
  cases b <;> simp [items]

theorem ofItems_cons {b : Block} {l : List Block} (hl : l ≠ []) :
    ofItems (b :: l) = pair b (ofItems l) := by
  cases l with
  | nil => exact (hl rfl).elim
  | cons c l => rfl

theorem ofItems_items {b : Block} (hb : b.isNormal) : ofItems b.items = b := by
  induction b with
  | pair a b _ ih =>
    have h := isNormal_pair_iff.mp hb
    have hne : b.items ≠ [] := fun he => by simp [items_eq_nil_iff.mp he, isEmpty] at h
    rw [items, ofItems_cons hne, ih h.2.2]
  | _ => rfl

theorem items_inj {a b : Block} (ha : a.isNormal) (hb : b.isNormal) : a.items = b.items ↔ a = b := by
  refine ⟨fun h => ?_, congrArg items⟩
  rw [← ofItems_items ha, h, ofItems_items hb]

@[simp] theorem pieces_ofItems (l : List Block) : (ofItems l).pieces = l.flatMap pieces := by
  induction l with
  | nil => rfl
  | cons b l ih =>
    cases l with
    | nil => simp [ofItems]
    | cons c l => simp [ofItems, pieces, ih]

theorem isNormal_ofItems {l : List Block} (hl : ∀ x ∈ l, x.isPiece) : (ofItems l).isNormal := by
  induction l with
  | nil => rfl
  | cons b l ih =>
    have hb := hl b List.mem_cons_self
    have hi := ih fun x hx => hl x (List.mem_cons_of_mem b hx)
    cases l with
    | nil => exact isNormal_of_isPiece hb
    | cons c l =>
      refine isNormal_pair_iff.mpr ⟨hb, ?_, hi⟩
      have hc := hl c (by simp)
      cases l with
      | nil => cases c <;> simp_all [isPiece, isEmpty, ofItems]
      | cons d l => rfl

theorem isPiece_of_mem_pieces {b x : Block} (hx : x ∈ b.pieces) : x.isPiece := by
  induction b generalizing x with
  | empty => simp [pieces] at hx
  | pair a b iha ihb =>
    rcases List.mem_append.mp hx with hx | hx
    · exact iha hx
    · exact ihb hx
  | quote body ih =>
    have hn : (ofItems body.pieces).isNormal := isNormal_ofItems fun _ hy => ih hy
    simp_all [pieces, isPiece, isPair, isEmpty, isNormal]
  | _ => simp_all [pieces, isPiece, isPair, isEmpty, isNormal]

theorem pieces_eq_items {b : Block} (hb : b.isNormal) : b.pieces = b.items := by
  induction b with
  | pair a b iha ihb =>
    have h := isNormal_pair_iff.mp hb
    rw [pieces, iha (isNormal_of_isPiece h.1), ihb h.2.2, items_of_isPiece h.1]
    rfl
  | quote body ih =>
    have h : body.isNormal := hb
    rw [pieces, ih h, ofItems_items h]
    rfl
  | _ => rfl

theorem pieces_of_isPiece {b : Block} (h : b.isPiece) : b.pieces = [b] :=
  (pieces_eq_items (isNormal_of_isPiece h)).trans (items_of_isPiece h)

theorem flatMap_pieces {l : List Block} (hl : ∀ x ∈ l, x.isPiece) : l.flatMap pieces = l := by
  induction l with
  | nil => rfl
  | cons b l ih =>
    rw [List.flatMap_cons, pieces_of_isPiece (hl b List.mem_cons_self),
      ih fun x hx => hl x (List.mem_cons_of_mem b hx)]
    rfl

@[simp] theorem flatMap_pieces_pieces (b : Block) : b.pieces.flatMap pieces = b.pieces :=
  flatMap_pieces fun _ hx => isPiece_of_mem_pieces hx

theorem isNormal_compose (blocks : List Block) : (compose blocks).isNormal := by
  apply isNormal_ofItems
  intro x hx
  obtain ⟨b, -, hb⟩ := List.mem_flatMap.mp hx
  exact isPiece_of_mem_pieces hb

@[simp] theorem pieces_compose (blocks : List Block) :
    (compose blocks).pieces = blocks.flatMap pieces := by
  simp [compose, List.flatMap_assoc]

theorem items_compose (blocks : List Block) : (compose blocks).items = blocks.flatMap pieces := by
  rw [← pieces_eq_items (isNormal_compose blocks), pieces_compose]

theorem ofItems_pieces {b : Block} (hb : b.isNormal) : ofItems b.pieces = b := by
  rw [pieces_eq_items hb, ofItems_items hb]

theorem pieces_eq_nil_iff {b : Block} : b.pieces = [] ↔ b.size = 0 := by
  induction b with
  | pair a b iha ihb => simp [pieces, size, iha, ihb]
  | _ => simp [pieces, size]

theorem eq_empty_of_pieces_eq_nil {b : Block} (hb : b.isNormal) (h : b.pieces = []) : b = empty := by
  rw [← ofItems_pieces hb, h]
  rfl

theorem compose_singleton {b : Block} (hb : b.isNormal) : compose [b] = b := by
  simpa [compose] using ofItems_pieces hb

theorem compose_congr {xs ys : List Block} (h : xs.flatMap pieces = ys.flatMap pieces) :
    compose xs = compose ys :=
  congrArg ofItems h

/-! The names in a composition. -/

@[simp] theorem names_ofItems (l : List Block) : (ofItems l).names = l.flatMap names := by
  induction l with
  | nil => rfl
  | cons b l ih =>
    cases l with
    | nil => simp [ofItems]
    | cons c l => simp [ofItems, names, ih]

@[simp] theorem flatMap_names_pieces (b : Block) : b.pieces.flatMap names = b.names := by
  induction b with
  | pair a b iha ihb => simp [pieces, names, iha, ihb]
  | quote body ih => simp [pieces, names, ih]
  | _ => rfl

/-! Compositions along the outer compositions only. -/

theorem flatMap_pieces_items (b : Block) : b.items.flatMap pieces = b.pieces := by
  induction b with
  | pair a b _ ih => rw [items, List.flatMap_cons, ih, pieces]
  | _ => simp [items, pieces]

theorem pieces_foldr_pair (l : List Block) (b : Block) :
    (l.foldr pair b).pieces = l.flatMap pieces ++ b.pieces := by
  induction l with
  | nil => rfl
  | cons x l ih => rw [List.foldr_cons, pieces, ih, List.flatMap_cons, List.append_assoc]

theorem pieces_append (a b : Block) : (append a b).pieces = a.pieces ++ b.pieces := by
  cases b with
  | empty => exact (List.append_nil _).symm
  | _ => rw [append, if_neg (by simp [isEmpty]), pieces_foldr_pair, flatMap_pieces_items]

theorem pieces_join (blocks : List Block) : (join blocks).pieces = blocks.flatMap pieces := by
  induction blocks with
  | nil => rfl
  | cons b blocks ih => rw [join, List.foldr_cons, ← join, pieces_append, ih, List.flatMap_cons]

theorem append_eq_ofItems {a b : Block} (ha : a.isNormal) (hb : b.isNormal) :
    append a b = ofItems (a.items ++ b.items) := by
  by_cases he : b = empty
  · subst he
    simp [append, isEmpty, items, ofItems_items ha]
  · have hf : b.isEmpty = false := by cases b <;> simp_all [isEmpty]
    have hne : b.items ≠ [] := fun h => he (items_eq_nil_iff.mp h)
    simp only [append, hf, Bool.false_eq_true, if_false]
    induction a.items with
    | nil => exact (ofItems_items hb).symm
    | cons x l ih => rw [List.foldr_cons, ih, List.cons_append, ofItems_cons (by simp [hne])]

/-- Joining blocks in normal form is composing them. -/
theorem join_of_isNormal {blocks : List Block} (h : ∀ b ∈ blocks, b.isNormal) :
    join blocks = compose blocks := by
  induction blocks with
  | nil => rfl
  | cons b blocks ih =>
    have hb := h b List.mem_cons_self
    have hi := ih fun x hx => h x (List.mem_cons_of_mem b hx)
    rw [join, List.foldr_cons, ← join, hi, append_eq_ofItems hb (isNormal_compose blocks),
      items_compose, ← pieces_eq_items hb]
    rfl

theorem join_of_isPiece {l : List Block} (h : ∀ b ∈ l, b.isPiece) : join l = ofItems l := by
  rw [join_of_isNormal fun b hb => isNormal_of_isPiece (h b hb), compose, flatMap_pieces h]

theorem join_pieces (b : Block) : join b.pieces = ofItems b.pieces :=
  join_of_isPiece fun _ hx => isPiece_of_mem_pieces hx

/-- A block that bytecode stands for. -/
def Writable (b : Block) : Prop :=
  b.isNormal ∧ b.names = []

theorem writable_ofItems {l : List Block} (h : ∀ x ∈ l, x.isPiece ∧ x.names = []) :
    (ofItems l).Writable := by
  have hnames : ∀ x ∈ l, x.names = [] := fun x hx => (h x hx).2
  refine ⟨isNormal_ofItems fun x hx => (h x hx).1, ?_⟩
  rw [names_ofItems, List.flatMap_eq_nil_iff.mpr hnames]

theorem piece_of_names_eq_nil {b x : Block} (h : b.names = []) (hx : x ∈ b.pieces) :
    x.isPiece ∧ x.names = [] := by
  rw [← flatMap_names_pieces, List.flatMap_eq_nil_iff] at h
  exact ⟨isPiece_of_mem_pieces hx, h x hx⟩

theorem writable_compose {blocks : List Block} (h : ∀ b ∈ blocks, b.Writable) :
    (compose blocks).Writable := by
  refine writable_ofItems fun x hx => ?_
  obtain ⟨b, hb, hx⟩ := List.mem_flatMap.mp hx
  exact piece_of_names_eq_nil (h b hb).2 hx

theorem writable_quote_iff {body : Block} : (quote body).Writable ↔ body.Writable :=
  Iff.rfl

theorem Writable.pair {a b : Block} (h : (pair a b).Writable) : a.Writable ∧ b.Writable := by
  obtain ⟨hn, hv⟩ := h
  obtain ⟨ha, -, hb⟩ := isNormal_pair_iff.mp hn
  obtain ⟨hva, hvb⟩ := List.append_eq_nil_iff.mp hv
  exact ⟨⟨isNormal_of_isPiece ha, hva⟩, hb, hvb⟩

end BlockCalculus.Block
