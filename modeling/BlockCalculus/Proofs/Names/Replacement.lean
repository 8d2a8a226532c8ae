import BlockCalculus.Names.Replacement
import BlockCalculus.Proofs.Block.Composition
import BlockCalculus.Proofs.Names.Inlining

/-! Substitution is a homomorphism. In place it has the pieces that substitution
piece by piece has, whatever the tree looks like and whatever the lookup
remembers; so compositions may be taken apart before or after it. -/

namespace BlockCalculus.Block

section Lookup

variable {m : Type → Type} [Monad m]

/-- The pieces of several blocks in a row, with their names replaced. -/
def substituteAll (lookup : String → m Block) (blocks : List Block) : m (List Block) := do
  let parts ← blocks.mapM (substitutePieces lookup)
  pure parts.flatten

variable [LawfulMonad m] {lookup : String → m Block}

@[simp] theorem substituteAll_nil : substituteAll lookup [] = pure [] := by
  simp [substituteAll]

@[simp] theorem substituteAll_cons (b : Block) (blocks : List Block) :
    substituteAll lookup (b :: blocks) = (do
      let before ← b.substitutePieces lookup
      let after ← substituteAll lookup blocks
      pure (before ++ after)) := by
  simp [substituteAll]

theorem substituteAll_append (l l' : List Block) :
    substituteAll lookup (l ++ l') = (do
      let before ← substituteAll lookup l
      let after ← substituteAll lookup l'
      pure (before ++ after)) := by
  induction l with
  | nil => simp
  | cons b l ih =>
    simp only [List.cons_append, substituteAll_cons, ih, bind_assoc, pure_bind, List.append_assoc]

theorem substituteAll_items (b : Block) : substituteAll lookup b.items = b.substitutePieces lookup := by
  induction b with
  | pair a b _ ih => simp [items, substitutePieces, ih]
  | _ => simp [items, substitutePieces]

theorem substitutePieces_ofItems (l : List Block) :
    (ofItems l).substitutePieces lookup = substituteAll lookup l := by
  induction l with
  | nil => simp [ofItems, substitutePieces]
  | cons b l ih =>
    cases l with
    | nil => simp [ofItems]
    | cons c l => rw [ofItems_cons (List.cons_ne_nil c l), substitutePieces, ih, substituteAll_cons b]

theorem substituteAll_pieces (b : Block) : substituteAll lookup b.pieces = b.substitutePieces lookup := by
  induction b with
  | pair a b iha ihb => rw [pieces, substituteAll_append, iha, ihb, substitutePieces]
  | quote body ih => simp [pieces, substitutePieces, substitutePieces_ofItems, ih]
  | _ => simp [pieces, substitutePieces]

theorem substitutePieces_compose (blocks : List Block) :
    (compose blocks).substitutePieces lookup = substituteAll lookup blocks := by
  rw [compose, substitutePieces_ofItems]
  induction blocks with
  | nil => rfl
  | cons b blocks ih =>
    rw [List.flatMap_cons, substituteAll_append, ih, substituteAll_pieces, substituteAll_cons]

theorem mapM_pieces {blocks : List Block}
    (h : ∀ b ∈ blocks, pieces <$> b.substituteInPlace lookup = b.substitutePieces lookup) :
    List.flatMap pieces <$> blocks.mapM (substituteInPlace lookup) = substituteAll lookup blocks := by
  induction blocks with
  | nil => simp
  | cons b blocks ih =>
    obtain ⟨hb, hblocks⟩ := List.forall_mem_cons.mp h
    rw [substituteAll_cons, ← hb, ← ih hblocks]
    simp

theorem substituteInPlace_pair (a b : Block) :
    (pair a b).substituteInPlace lookup =
      composeInPlace <$> (pair a b).items.mapM (substituteInPlace lookup) := by
  have hattach : (pair a b).items.attach.mapM (fun entry => entry.1.substituteInPlace lookup) =
      (pair a b).items.mapM (substituteInPlace lookup) := by
    conv_rhs => rw [← List.attach_map_subtype_val (pair a b).items, List.mapM_map]
    rfl
  rw [substituteInPlace, hattach, map_eq_pure_bind]

/-- In place and piece by piece, the same names are looked up in the same order, and the
results have the same pieces. -/
theorem pieces_substituteInPlace (b : Block) :
    pieces <$> b.substituteInPlace lookup = b.substitutePieces lookup := by
  -- The induction is on the walk, not on the tree: a composition goes on with its entries.
  induction b using substituteInPlace.induct with
  | case1 name => simp [substituteInPlace, substitutePieces]
  | case2 body ih => simp [substituteInPlace, substitutePieces, ← ih, pieces]
  | case3 a b ih =>
    rw [← substituteAll_items, ← mapM_pieces fun entry he => ih ⟨entry, he⟩, substituteInPlace_pair]
    simp [composeInPlace_eq_compose]
  | case4 b hvar hquote hpair => cases b <;> simp_all [substituteInPlace, substitutePieces, pieces]

theorem substitute_eq_compose (b : Block) :
    b.substitute lookup = (fun r => compose [r]) <$> b.substituteInPlace lookup := by
  rw [substitute, ← pieces_substituteInPlace]
  simp [compose]

theorem substitute_compose (blocks : List Block) :
    (compose blocks).substitute lookup = compose <$> blocks.mapM (substituteInPlace lookup) := by
  rw [substitute, substitutePieces_compose, ← mapM_pieces fun b _ => pieces_substituteInPlace b]
  simp only [map_eq_pure_bind, bind_assoc, pure_bind]
  rfl

end Lookup

section Answers

variable {lookup : String → Except ReadError Block}

theorem isNormal_of_substituteInPlace (hl : ∀ n a, lookup n = .ok a → a.isNormal) {b r : Block}
    (h : b.substituteInPlace lookup = .ok r) : r.isNormal := by
  induction b using substituteInPlace.induct generalizing r with
  | case1 name =>
    rw [substituteInPlace] at h
    exact hl name r h
  | case2 body ih =>
    rw [substituteInPlace, bind_eq_ok_iff] at h
    obtain ⟨inner, hinner, hr⟩ := h
    rw [← pure_eq_ok_iff.mp hr]
    show inner.isNormal
    exact ih hinner
  | case3 a b _ =>
    rw [substituteInPlace_pair, map_eq_pure_bind, bind_eq_ok_iff] at h
    obtain ⟨parts, -, hr⟩ := h
    cases hr
    rw [composeInPlace_eq_compose]
    exact isNormal_compose parts
  | case4 b hvar hquote hpair =>
    have hb : b.isNormal := by cases b <;> simp_all [isNormal]
    rw [substituteInPlace, pure_eq_ok_iff] at h
    · rwa [← h]
    · exact hvar
    · exact hquote
    · exact hpair

theorem substituteInPlace_eq_substitute (hl : ∀ n a, lookup n = .ok a → a.isNormal) (b : Block) :
    b.substituteInPlace lookup = b.substitute lookup := by
  -- Answers in normal form leave nothing to compose again.
  rw [substitute_eq_compose]
  cases h : b.substituteInPlace lookup with
  | error e => rfl
  | ok r =>
    change Except.ok r = .ok (compose [r])
    rw [compose_singleton (isNormal_of_substituteInPlace hl h)]

theorem substitute_eq_error_iff_first {b : Block} {e : ReadError} :
    b.substitute lookup = .error e ↔ ∃ before n after, b.names = before ++ n :: after ∧
      (∀ m ∈ before, ∃ a, lookup m = .ok a) ∧ lookup n = .error e := by
  simp only [substitute_eq_error_iff, List.findSome?_eq_some_iff, failure?_eq_some_iff,
    failure?_eq_none_iff]
  grind

/-- Substitution on a tree of any shape comes to the normal form of the tree with each name
replaced by its answer, or to the failure of the first name without one; on a composition
it comes to the composition of what becomes of the operands. -/
theorem substitution_homomorphic (lookup : String → Except ReadError Block)
    (hl : ∀ n a, lookup n = .ok a → a.isNormal ∧ a.names = []) :
    (∀ b : Block, b.substituteInPlace lookup = b.substitute lookup) ∧
    (∀ b : Block, b.substituteInPlace lookup = (composeInPlace [b]).substituteInPlace lookup) ∧
    (∀ (b : Block) (f : String → Block), (∀ n ∈ b.names, lookup n = .ok (f n)) →
      ∃ r, b.substituteInPlace lookup = .ok r ∧ r.isNormal ∧ r.names = [] ∧
        r.items = (b.replace f).pieces ∧ r.substituteInPlace lookup = .ok r) ∧
    (∀ (b : Block) e, b.substituteInPlace lookup = .error e ↔
      ∃ before n after, b.names = before ++ n :: after ∧
        (∀ m ∈ before, ∃ a, lookup m = .ok a) ∧ lookup n = .error e) ∧
    ∀ blocks, (composeInPlace blocks).substituteInPlace lookup =
      composeInPlace <$> blocks.mapM (substituteInPlace lookup) := by
  have hin (b : Block) : b.substituteInPlace lookup = b.substitute lookup :=
    substituteInPlace_eq_substitute (fun n a h => (hl n a h).1) b
  have hnames {b r : Block} (h : b.substitute lookup = .ok r) : r.names = [] :=
    names_of_substitute (fun n a h => (hl n a h).2) h
  refine ⟨hin, fun b => ?_, fun b f hf => ?_, fun b e => ?_, fun blocks => ?_⟩
  · rw [hin, hin, composeInPlace_eq_compose, substitute, substitute, substitutePieces_compose]
    simp
  · have hok : b.substitute lookup = .ok (b.filled lookup) :=
      substitute_eq_ok_iff.mpr ⟨fun n hn => ⟨f n, hf n hn⟩, rfl⟩
    have hnormal : (b.filled lookup).isNormal := isNormal_filled b
    refine ⟨b.filled lookup, (hin b).trans hok, hnormal, hnames hok, ?_, ?_⟩
    · rw [filled_eq_compose_replace hf, items_compose, List.flatMap_singleton]
    · rw [hin, substitute_eq_ok_iff, hnames hok]
      refine ⟨List.forall_mem_nil _, ?_⟩
      rw [filled, fill_of_names_eq_nil (hnames hok), ofItems_pieces hnormal]
  · rw [hin, substitute_eq_error_iff_first]
  · rw [hin, show composeInPlace = compose from funext composeInPlace_eq_compose, substitute_compose]

/-- The answer stands once beside the empty program and once inside a quotation; where
answers are missing, the first name decides. -/
theorem substitution_homomorphic_twice :
    let twice : Block := .pair (.prim .copy) (.prim .app)
    let lookup : String → Except ReadError Block := fun n =>
      if n = "twice" then .ok twice else .error (.missing n .undefined)
    let b : Block := .pair (.pair (.var "twice") .empty) (.quote (.pair .empty (.var "twice")))
    (∀ n a, lookup n = .ok a → a.isNormal ∧ a.names = []) ∧
    (∃ r, b.substituteInPlace lookup = .ok r ∧ r.isNormal ∧ r.names = [] ∧
      r.items = [.prim .copy, .prim .app, .quote twice] ∧ r.substituteInPlace lookup = .ok r) ∧
    (pair (.quote (.var "lost")) (.pair (.var "twice") (.var "gone"))).substituteInPlace lookup =
      .error (.missing "lost" .undefined) := by
  intro twice lookup b
  have hl : ∀ n a, lookup n = .ok a → a.isNormal ∧ a.names = [] := by
    intro n a h
    by_cases hn : n = "twice"
    · simp only [lookup, if_pos hn] at h
      cases h
      exact ⟨rfl, rfl⟩
    · simp only [lookup, if_neg hn] at h
      cases h
  obtain ⟨-, -, hok, herror, -⟩ := substitution_homomorphic lookup hl
  have hf : ∀ n ∈ b.names, lookup n = .ok twice := by
    intro n hn
    have hname : n = "twice" := by simpa [b, names] using hn
    simp only [lookup, if_pos hname]
  refine ⟨hl, hok b (fun _ => twice) hf, ?_⟩
  exact (herror _ _).mpr ⟨[], "lost", ["twice", "gone"], rfl, List.forall_mem_nil _, rfl⟩

end Answers

end BlockCalculus.Block
