import BlockCalculus.Block.Composition
import BlockCalculus.Proofs.Block.NormalForm
import BlockCalculus.Proofs.Bytecode.Written
import Mathlib

/-! Composition puts the pieces of its operands in a row. Its short cuts make no
difference, and blocks in normal form are a monoid under it. -/

namespace BlockCalculus

namespace Block

theorem isEmpty_ofItems {l : List Block} (hl : ∀ x ∈ l, x.isPiece) :
    (ofItems l).isEmpty = l.isEmpty := by
  have hp : (ofItems l).pieces = l := by rw [pieces_ofItems, flatMap_pieces hl]
  cases l with
  | nil => rfl
  | cons b l =>
    cases he : ofItems (b :: l) with
    | empty =>
      rw [he] at hp
      cases hp
    | _ => rfl

theorem prepend_ofItems {l : List Block} (hl : ∀ x ∈ l, x.isPiece) (b : Block) :
    prepend b (ofItems l) = ofItems (b :: l) := by
  rw [prepend, isEmpty_ofItems hl]
  cases l with
  | nil => rfl
  | cons c l => rfl

theorem foldr_prepend {l m : List Block} (hl : ∀ x ∈ l, x.isPiece) (hm : ∀ x ∈ m, x.isPiece) :
    l.foldr prepend (ofItems m) = ofItems (l ++ m) := by
  induction l with
  | nil => rfl
  | cons b l ih =>
    obtain ⟨-, hl⟩ := List.forall_mem_cons.mp hl
    have hlm : ∀ x ∈ l ++ m, x.isPiece := List.forall_mem_append.mpr ⟨hl, hm⟩
    rw [List.foldr_cons, ih hl, prepend_ofItems hlm, List.cons_append]

theorem isPiece_of_mem_flatMap {blocks : List Block} : ∀ x ∈ blocks.flatMap pieces, x.isPiece := by
  intro x hx
  obtain ⟨b, -, hb⟩ := List.mem_flatMap.mp hx
  exact isPiece_of_mem_pieces hb

theorem compose_cons_of_isEmpty {b : Block} (hb : b.isEmpty) (rest : List Block) :
    compose (b :: rest) = compose rest := by
  cases b <;> simp_all [isEmpty, compose, pieces]

theorem compose_cons_of_isNormal {b : Block} {rest : List Block} (hrest : (compose rest).isEmpty)
    (hb : b.isNormal) : compose (b :: rest) = b := by
  rw [compose, isEmpty_ofItems isPiece_of_mem_flatMap, List.isEmpty_iff] at hrest
  rw [compose, List.flatMap_cons, hrest, List.append_nil, ofItems_pieces hb]

theorem compose_cons_eq_foldr (b : Block) (rest : List Block) :
    compose (b :: rest) = b.pieces.foldr prepend (compose rest) := by
  rw [compose, compose, List.flatMap_cons,
    foldr_prepend (fun _ hx => isPiece_of_mem_pieces hx) isPiece_of_mem_flatMap]

theorem pieces_quote (body : Block) :
    (quote body).pieces = [if body.isNormal then quote body else quote (compose [body])] := by
  by_cases hb : body.isNormal
  · rw [pieces, ofItems_pieces hb, if_pos hb]
  · rw [pieces, if_neg hb, compose, List.flatMap_singleton]

theorem composition_in_place :
    (∀ waiting, entries waiting = waiting.flatMap pieces) ∧
      (∀ blocks, composeInPlace blocks = compose blocks) ∧
      ∀ blocks, composeFromLast blocks = compose blocks := by
  -- The three functions call one another, so their statements share one induction.
  refine entries.mutual_induct (fun waiting => entries waiting = waiting.flatMap pieces)
    (fun blocks => composeInPlace blocks = compose blocks)
    (fun blocks => composeFromLast blocks = compose blocks)
    ?entriesNil ?entriesEmpty ?entriesPair ?entriesQuote ?entriesPiece
    ?single ?singleRepaired ?several
    ?lastNil ?lastEmpty ?lastTaken ?lastApart
  case entriesNil => rw [entries, List.flatMap_nil]
  case entriesEmpty =>
    intro waiting ih
    rw [entries, ih, List.flatMap_cons, pieces, List.nil_append]
  case entriesPair =>
    intro a b waiting ih
    rw [entries, ih, List.flatMap_cons, List.flatMap_cons, List.flatMap_cons, pieces,
      List.append_assoc]
  case entriesQuote =>
    intro body waiting hbody ih
    rw [entries, hbody, ih, List.flatMap_cons, pieces_quote, List.singleton_append]
  case entriesPiece =>
    intro b waiting he hp hq ih
    have hb : b.pieces = [b] := by cases b <;> simp_all [pieces]
    rw [entries, ih, List.flatMap_cons, hb, List.singleton_append]
    · exact he
    · exact hp
    · exact hq
  case single =>
    intro b hb
    rw [composeInPlace, if_pos hb, compose_singleton hb]
  case singleRepaired =>
    intro b hb ih
    rw [composeInPlace, if_neg hb, ih]
  case several =>
    intro blocks hne ih
    rw [composeInPlace, ih]
    exact hne
  case lastNil => rw [composeFromLast]; rfl
  case lastEmpty =>
    intro b rest hb ih
    rw [composeFromLast, if_pos hb, ih, compose_cons_of_isEmpty hb]
  case lastTaken =>
    intro b rest built hb hn ih
    rw [composeFromLast, if_neg hb, if_pos hn]
    obtain ⟨hempty, hb⟩ := Bool.and_eq_true_iff.mp hn
    rw [show built = compose rest from ih] at hempty
    exact (compose_cons_of_isNormal hempty hb).symm
  case lastApart =>
    intro b rest built hb hn ih hentries
    rw [composeFromLast, if_neg hb, if_neg hn, ih, hentries, List.flatMap_singleton,
      compose_cons_eq_foldr]

theorem composeInPlace_eq_compose (blocks : List Block) : composeInPlace blocks = compose blocks :=
  composition_in_place.2.1 blocks

/-! Laws of composition. -/

theorem eq_of_pieces_eq {a b : Block} (ha : a.isNormal) (hb : b.isNormal)
    (h : a.pieces = b.pieces) : a = b := by
  rw [← ofItems_pieces ha, h, ofItems_pieces hb]

theorem isNormal_iff_compose_singleton (b : Block) : b.isNormal ↔ compose [b] = b := by
  constructor
  · exact compose_singleton
  · intro h
    rw [← h]
    exact isNormal_compose [b]

theorem compose_append (xs ys : List Block) : compose (xs ++ ys) = compose [compose xs, compose ys] :=
  compose_congr (by simp)

theorem cat_assoc (a b c : Block) : (a.cat b).cat c = a.cat (b.cat c) :=
  compose_congr (by simp [cat])

theorem empty_cat (b : Block) : empty.cat b = compose [b] :=
  compose_congr (by simp [pieces])

theorem cat_empty (b : Block) : b.cat empty = compose [b] :=
  compose_congr (by simp [pieces])

/-- Blocks in normal form, one after another. -/
instance : Monoid {b : Block // b.isNormal} where
  mul a b := ⟨a.1.cat b.1, isNormal_compose [a.1, b.1]⟩
  one := ⟨empty, rfl⟩
  mul_assoc a b c := Subtype.ext (cat_assoc a.1 b.1 c.1)
  one_mul b := Subtype.ext ((empty_cat b.1).trans (compose_singleton b.2))
  mul_one b := Subtype.ext ((cat_empty b.1).trans (compose_singleton b.2))

theorem size_ofItems (l : List Block) : (ofItems l).size = (l.map size).sum := by
  induction l with
  | nil => rfl
  | cons b l ih =>
    cases l with
    | nil => simp [ofItems]
    | cons c l => simp [ofItems_cons (List.cons_ne_nil c l), size, ih]

theorem sum_size_pieces (b : Block) : (b.pieces.map size).sum = b.size := by
  induction b with
  | pair a b iha ihb => rw [pieces, List.map_append, List.sum_append, iha, ihb, size]
  | quote body ih => simp [pieces, size, size_ofItems, ih]
  | _ => rfl

theorem sum_size_flatMap_pieces (blocks : List Block) :
    ((blocks.flatMap pieces).map size).sum = (blocks.map size).sum := by
  induction blocks with
  | nil => rfl
  | cons b blocks ih =>
    rw [List.flatMap_cons, List.map_append, List.sum_append, sum_size_pieces, ih, List.map_cons,
      List.sum_cons]

theorem size_compose (blocks : List Block) : (compose blocks).size = (blocks.map size).sum := by
  rw [compose, size_ofItems, sum_size_flatMap_pieces]

theorem size_join (blocks : List Block) : (join blocks).size = (blocks.map size).sum := by
  rw [← sum_size_pieces, pieces_join, sum_size_flatMap_pieces]

theorem names_compose (blocks : List Block) : (compose blocks).names = blocks.flatMap names := by
  rw [compose, names_ofItems, List.flatMap_assoc]
  simp only [flatMap_names_pieces]

end Block

namespace Bytecode

theorem mapM_encode {blocks : List Block} (h : ∀ b ∈ blocks, b.names = []) :
    blocks.mapM encode = .ok (blocks.map written) := by
  induction blocks with
  | nil => rfl
  | cons b blocks ih =>
    obtain ⟨hb, hrest⟩ := List.forall_mem_cons.mp h
    rw [List.mapM_cons, encode_of_names_eq_nil hb, ih hrest]
    rfl

theorem written_compose (blocks : List Block) :
    written (Block.compose blocks) = blocks.flatMap written := by
  rw [Block.compose, written_ofItems, List.flatMap_assoc]
  simp only [flatMap_written_pieces]

/-- A composition is encoded like its operands in a row. -/
theorem encode_compose {blocks : List Block} (h : blocks.flatMap Block.names = []) :
    ∃ codes, blocks.mapM encode = .ok codes ∧
      encode (Block.compose blocks) = .ok codes.flatten := by
  have hc : (Block.compose blocks).names = [] := by rw [Block.names_compose, h]
  refine ⟨blocks.map written, mapM_encode (List.flatMap_eq_nil_iff.mp h), ?_⟩
  rw [encode_of_names_eq_nil hc, written_compose, List.flatMap]

theorem encode_compose_unresolved {blocks : List Block} {name : String} {later : List String}
    (h : blocks.flatMap Block.names = name :: later) :
    encode (Block.compose blocks) = .error (.unresolved name) :=
  encode_of_names_eq_cons ((Block.names_compose blocks).trans h)

end Bytecode

namespace Block

/-- Composition computes the only normal form with the pieces of its operands,
whichever short cuts it takes; it is associative, and the empty program is its
unit up to normal form, which is its unit on blocks in normal form. Lengths add
up and codes follow one another. -/
theorem compose_unique_normal_form :
    (∀ blocks, composeInPlace blocks = compose blocks) ∧
    (∀ blocks, (compose blocks).isNormal ∧ (compose blocks).pieces = blocks.flatMap pieces) ∧
    (∀ a b : Block, a.isNormal → b.isNormal → a.pieces = b.pieces → a = b) ∧
    (∀ b : Block, b.isNormal ↔ compose [b] = b) ∧
    (∀ xs ys, compose (xs ++ ys) = compose [compose xs, compose ys]) ∧
    (∀ a b c : Block, (a.cat b).cat c = a.cat (b.cat c)) ∧
    (∀ b : Block, empty.cat b = compose [b] ∧ b.cat empty = compose [b]) ∧
    (∃ m : Monoid {b : Block // b.isNormal},
      (∀ a b, (m.mul a b).1 = a.1.cat b.1) ∧ m.one.1 = empty) ∧
    (∀ blocks, (compose blocks).size = (blocks.map size).sum) ∧
    (∀ blocks, blocks.flatMap names = [] → ∃ codes, blocks.mapM Bytecode.encode = .ok codes ∧
      Bytecode.encode (compose blocks) = .ok codes.flatten) ∧
    ∀ blocks name later, blocks.flatMap names = name :: later →
      Bytecode.encode (compose blocks) = .error (.unresolved name) := by
  refine ⟨composeInPlace_eq_compose, fun blocks => ⟨isNormal_compose blocks, pieces_compose blocks⟩,
    fun a b => eq_of_pieces_eq, isNormal_iff_compose_singleton, compose_append, cat_assoc,
    fun b => ⟨empty_cat b, cat_empty b⟩, ?_, size_compose, fun blocks => Bytecode.encode_compose,
    fun blocks name later => Bytecode.encode_compose_unresolved⟩
  exact ⟨inferInstance, fun a b => rfl, rfl⟩

end Block

end BlockCalculus
