import BlockCalculus.Names.Substitution
import BlockCalculus.Notation.Read
import BlockCalculus.Proofs.Block.NormalForm
import Mathlib.Data.List.Basic

/-! Substitution with fixed answers. It succeeds if every name has an answer,
and then replaces names by pieces; the result depends on the pieces of a block
only. -/

namespace BlockCalculus.Block

variable (answers : String → Except ReadError Block)

def answerPieces (n : String) : List Block :=
  match answers n with
  | .ok b => b.pieces
  | .error _ => []

/-- The pieces of a block with those of the answer in the place of each name. -/
def fill : Block → List Block
  | pair a b => a.fill ++ b.fill
  | quote body => [quote (ofItems body.fill)]
  | empty => []
  | var n => answerPieces answers n
  | b => [b]

def filled (b : Block) : Block :=
  ofItems (b.fill answers)

variable {answers}

theorem bind_eq_ok_iff {α β : Type} {x : Except ReadError α} {g : α → Except ReadError β} {c : β} :
    (x >>= g) = .ok c ↔ ∃ a, x = .ok a ∧ g a = .ok c := by
  cases x <;> simp [bind, Except.bind]

theorem pure_eq_ok_iff {α : Type} {a c : α} : (pure a : Except ReadError α) = .ok c ↔ a = c := by
  simp [pure, Except.pure]

theorem bind_eq_error_iff {α β : Type} {x : Except ReadError α} {g : α → Except ReadError β}
    {e : ReadError} : (x >>= g) = .error e ↔ x = .error e ∨ ∃ a, x = .ok a ∧ g a = .error e := by
  cases x <;> simp [bind, Except.bind]

theorem bind_pure_eq_error_iff {α β : Type} {x : Except ReadError α} {f : α → β} {e : ReadError} :
    (x >>= fun a => pure (f a)) = .error e ↔ x = .error e := by
  cases x <;> simp [bind, Except.bind, pure, Except.pure]

theorem substitutePieces_eq_ok_iff {b : Block} {l : List Block} :
    b.substitutePieces answers = .ok l ↔
      (∀ n ∈ b.names, ∃ c, answers n = .ok c) ∧ b.fill answers = l := by
  induction b generalizing l with
  | var n =>
    simp only [substitutePieces, bind_eq_ok_iff, pure_eq_ok_iff, names, fill,
      List.forall_mem_singleton]
    cases h : answers n <;> simp [answerPieces, h]
  | quote body ih =>
    simp only [substitutePieces, bind_eq_ok_iff, pure_eq_ok_iff, ih, names, fill]
    constructor
    · rintro ⟨inner, ⟨hn, rfl⟩, rfl⟩
      exact ⟨hn, rfl⟩
    · rintro ⟨hn, rfl⟩
      exact ⟨_, ⟨hn, rfl⟩, rfl⟩
  | pair a b iha ihb =>
    simp only [substitutePieces, bind_eq_ok_iff, pure_eq_ok_iff, iha, ihb, names, fill,
      List.forall_mem_append]
    constructor
    · rintro ⟨before, ⟨hna, rfl⟩, after, ⟨hnb, rfl⟩, rfl⟩
      exact ⟨⟨hna, hnb⟩, rfl⟩
    · rintro ⟨⟨hna, hnb⟩, rfl⟩
      exact ⟨_, ⟨hna, rfl⟩, _, ⟨hnb, rfl⟩, rfl⟩
  | _ => simp [substitutePieces, pure_eq_ok_iff, names, fill]

theorem substitute_eq_ok_iff {b c : Block} :
    b.substitute answers = .ok c ↔
      (∀ n ∈ b.names, ∃ c, answers n = .ok c) ∧ b.filled answers = c := by
  simp only [substitute, bind_eq_ok_iff, pure_eq_ok_iff, substitutePieces_eq_ok_iff]
  constructor
  · rintro ⟨parts, ⟨hn, rfl⟩, rfl⟩
    exact ⟨hn, rfl⟩
  · rintro ⟨hn, rfl⟩
    exact ⟨_, ⟨hn, rfl⟩, rfl⟩

/-- Substitution fails with the failure of a name that it came to. -/
theorem substitute_error {b : Block} {e : ReadError} (h : b.substitute answers = .error e) :
    ∃ n ∈ b.names, answers n = .error e := by
  have hp : b.substitutePieces answers = .error e := bind_pure_eq_error_iff.mp h
  clear h
  induction b with
  | var n => exact ⟨n, by simp [names], bind_pure_eq_error_iff.mp hp⟩
  | quote body ih => exact ih (bind_pure_eq_error_iff.mp hp)
  | pair a b iha ihb =>
    rcases bind_eq_error_iff.mp hp with ha | ⟨before, -, hb⟩
    · obtain ⟨n, hn, he⟩ := iha ha
      exact ⟨n, List.mem_append_left _ hn, he⟩
    · obtain ⟨n, hn, he⟩ := ihb (bind_pure_eq_error_iff.mp hb)
      exact ⟨n, List.mem_append_right _ hn, he⟩
  | _ => cases hp

/-- Why a name has no answer, if it has none. -/
def failure? (answers : String → Except ReadError Block) (n : String) : Option ReadError :=
  match answers n with
  | .ok _ => none
  | .error e => some e

theorem failure?_eq_some_iff {n : String} {e : ReadError} :
    failure? answers n = some e ↔ answers n = .error e := by
  cases h : answers n <;> simp [failure?, h]

theorem failure?_eq_none_iff {n : String} :
    failure? answers n = none ↔ ∃ c, answers n = .ok c := by
  cases h : answers n <;> simp [failure?, h]

theorem substitutePieces_eq_error_iff {b : Block} {e : ReadError} :
    b.substitutePieces answers = .error e ↔ b.names.findSome? (failure? answers) = some e := by
  induction b with
  | var n =>
    rw [substitutePieces, bind_pure_eq_error_iff, names, List.findSome?_singleton, failure?_eq_some_iff]
  | quote body ih => rw [substitutePieces, bind_pure_eq_error_iff, ih, names]
  | pair a b iha ihb =>
    rw [substitutePieces, bind_eq_error_iff, names, List.findSome?_append, Option.or_eq_some_iff, iha]
    simp only [bind_pure_eq_error_iff, ihb]
    have hok : (∃ l, a.substitutePieces answers = .ok l) ↔ a.names.findSome? (failure? answers) = none := by
      simp only [substitutePieces_eq_ok_iff, List.findSome?_eq_none_iff, failure?_eq_none_iff]
      rw [exists_and_left, and_iff_left ⟨_, rfl⟩]
    rw [← hok, exists_and_right]
  | _ => simp [substitutePieces, pure, Except.pure, names]

/-- The first name without an answer decides how a substitution fails. -/
theorem substitute_eq_error_iff {b : Block} {e : ReadError} :
    b.substitute answers = .error e ↔ b.names.findSome? (failure? answers) = some e := by
  rw [substitute, bind_pure_eq_error_iff, substitutePieces_eq_error_iff]

theorem substitutePieces_congr {answers' : String → Except ReadError Block} {b : Block}
    (h : ∀ n ∈ b.names, answers n = answers' n) :
    b.substitutePieces answers = b.substitutePieces answers' := by
  induction b with
  | var n =>
    have hn : answers n = answers' n := h n (by simp [names])
    rw [substitutePieces, substitutePieces, hn]
  | quote body ih =>
    have hbody := ih h
    rw [substitutePieces, substitutePieces, hbody]
  | pair a b iha ihb =>
    have hp := List.forall_mem_append.mp h
    rw [substitutePieces, substitutePieces, iha hp.1, ihb hp.2]
  | _ => rfl

/-- The result depends on the answers for the names of the block only. -/
theorem substitute_congr {answers' : String → Except ReadError Block} {b : Block}
    (h : ∀ n ∈ b.names, answers n = answers' n) : b.substitute answers = b.substitute answers' := by
  rw [substitute, substitute, substitutePieces_congr h]

theorem isPiece_of_mem_answerPieces {n : String} {x : Block} (h : x ∈ answerPieces answers n) :
    x.isPiece := by
  unfold answerPieces at h
  split at h
  · exact isPiece_of_mem_pieces h
  · cases h

theorem isPiece_of_mem_fill {b x : Block} (hx : x ∈ b.fill answers) : x.isPiece := by
  induction b generalizing x with
  | empty => simp [fill] at hx
  | pair a b iha ihb =>
    rcases List.mem_append.mp hx with hx | hx
    · exact iha hx
    · exact ihb hx
  | quote body ih =>
    have hn : (ofItems (body.fill answers)).isNormal := isNormal_ofItems fun _ hy => ih hy
    simp_all [fill, isPiece, isPair, isEmpty, isNormal]
  | var n => exact isPiece_of_mem_answerPieces hx
  | _ => simp_all [fill, isPiece, isPair, isEmpty, isNormal]

@[simp] theorem fill_ofItems (l : List Block) : (ofItems l).fill answers = l.flatMap (fill answers) := by
  induction l with
  | nil => rfl
  | cons b l ih =>
    cases l with
    | nil => simp [ofItems]
    | cons c l => simp [ofItems, fill, ih]

@[simp] theorem flatMap_fill_pieces (b : Block) : b.pieces.flatMap (fill answers) = b.fill answers := by
  induction b with
  | pair a b iha ihb => simp [pieces, fill, iha, ihb]
  | quote body ih => simp [pieces, fill, ih]
  | _ => simp [pieces, fill]

theorem isNormal_filled (b : Block) : (b.filled answers).isNormal :=
  isNormal_ofItems fun _ hx => isPiece_of_mem_fill hx

@[simp] theorem pieces_filled (b : Block) : (b.filled answers).pieces = b.fill answers := by
  rw [filled, pieces_ofItems, flatMap_pieces fun _ hx => isPiece_of_mem_fill hx]

theorem fill_of_isValue {v : Block} (hv : v.isValue) : v.fill answers = [v.filled answers] := by
  cases v <;> first | rfl | cases hv

theorem isValue_filled {v : Block} (hv : v.isValue) : (v.filled answers).isValue := by
  cases v <;> first | rfl | cases hv

theorem filled_join {blocks : List Block} (hb : ∀ b ∈ blocks, b.isNormal) :
    (join blocks).filled answers = join (blocks.map (filled answers)) := by
  have hn : ∀ b ∈ blocks.map (filled answers), b.isNormal := by
    intro b h
    obtain ⟨a, -, rfl⟩ := List.mem_map.mp h
    exact isNormal_filled a
  rw [join_of_isNormal hb, join_of_isNormal hn, filled, compose, compose, fill_ofItems,
    List.flatMap_assoc, List.flatMap_map]
  simp only [flatMap_fill_pieces, pieces_filled]

theorem fill_congr {answers' : String → Except ReadError Block} {b : Block}
    (h : ∀ n ∈ b.names, answers n = answers' n) : b.fill answers = b.fill answers' := by
  induction b with
  | pair a b iha ihb =>
    have hp := List.forall_mem_append.mp h
    rw [fill, fill, iha hp.1, ihb hp.2]
  | quote body ih => rw [fill, fill, ih h]
  | var n =>
    have hn := h n (by simp [names])
    simp [fill, answerPieces, hn]
  | _ => rfl

theorem fill_of_names_eq_nil {b : Block} (h : b.names = []) : b.fill answers = b.pieces := by
  induction b with
  | pair a b iha ihb =>
    have hn := List.append_eq_nil_iff.mp h
    rw [fill, pieces, iha hn.1, ihb hn.2]
  | quote body ih => rw [fill, pieces, ih h]
  | var n => simp [names] at h
  | _ => rfl

theorem names_of_mem_answerPieces (ha : ∀ n b, answers n = .ok b → b.names = []) {n : String}
    {x : Block} (hx : x ∈ answerPieces answers n) : x.names = [] := by
  unfold answerPieces at hx
  split at hx
  · rename_i b hb
    have hn := ha n b hb
    rw [← flatMap_names_pieces, List.flatMap_eq_nil_iff] at hn
    exact hn x hx
  · cases hx

theorem names_of_mem_fill (ha : ∀ n b, answers n = .ok b → b.names = []) {b x : Block}
    (hx : x ∈ b.fill answers) : x.names = [] := by
  induction b generalizing x with
  | pair a b iha ihb =>
    rcases List.mem_append.mp hx with hx | hx
    · exact iha hx
    · exact ihb hx
  | quote body ih =>
    rw [List.mem_singleton.mp hx, names, names_ofItems, List.flatMap_eq_nil_iff]
    exact fun _ hy => ih hy
  | var n => exact names_of_mem_answerPieces ha hx
  | empty => cases hx
  | _ =>
    rw [List.mem_singleton.mp hx]
    rfl

theorem substitute_isNormal {b c : Block} (h : b.substitute answers = .ok c) : c.isNormal := by
  obtain ⟨-, rfl⟩ := substitute_eq_ok_iff.mp h
  exact isNormal_filled b

theorem names_of_substitute (ha : ∀ n b, answers n = .ok b → b.names = []) {b c : Block}
    (h : b.substitute answers = .ok c) : c.names = [] := by
  obtain ⟨-, rfl⟩ := substitute_eq_ok_iff.mp h
  rw [filled, names_ofItems, List.flatMap_eq_nil_iff]
  exact fun _ hx => names_of_mem_fill ha hx

end BlockCalculus.Block
