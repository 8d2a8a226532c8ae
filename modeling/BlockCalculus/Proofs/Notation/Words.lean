import BlockCalculus.Notation.Token
import Mathlib.Data.List.Basic

/-! White space splits a text. What stands on one side of it makes no difference
to the words and the tokens on the other. -/

namespace BlockCalculus

theorem wordsFrom_append_blank {c : Char} (hc : isBlank c) (l l' read : List Char) :
    wordsFrom read (l ++ c :: l') = wordsFrom read l ++ words l' := by
  induction l generalizing read with
  | nil =>
    by_cases hr : read.isEmpty <;> simp [wordsFrom, hc, hr, words]
  | cons d l ih =>
    by_cases hd : isBlank d
    · by_cases hr : read.isEmpty <;> simp [wordsFrom, hd, hr, ih]
    · simp [wordsFrom, hd, ih]

theorem words_append_blank {c : Char} (hc : isBlank c) (l l' : List Char) :
    words (l ++ c :: l') = words l ++ words l' :=
  wordsFrom_append_blank hc l l' []

theorem words_cons_blank {c : Char} (hc : isBlank c) (text : List Char) :
    words (c :: text) = words text :=
  words_append_blank hc [] text

theorem words_dropWhile (text : List Char) : words (text.dropWhile isBlank) = words text := by
  induction text with
  | nil => rfl
  | cons c text ih =>
    by_cases hc : isBlank c
    · rw [List.dropWhile_cons_of_pos hc, ih, words_cons_blank hc]
    · rw [List.dropWhile_cons_of_neg hc]

theorem words_of_blank {text : List Char} (h : ∀ c ∈ text, isBlank c) : words text = [] := by
  induction text with
  | nil => rfl
  | cons c text ih =>
    obtain ⟨hc, htext⟩ := List.forall_mem_cons.mp h
    rw [words_cons_blank hc, ih htext]

theorem words_append_of_blank (l : List Char) {blanks : List Char} (h : ∀ c ∈ blanks, isBlank c) :
    words (l ++ blanks) = words l := by
  cases blanks with
  | nil => rw [List.append_nil]
  | cons c blanks =>
    obtain ⟨hc, hblanks⟩ := List.forall_mem_cons.mp h
    rw [words_append_blank hc, words_of_blank hblanks, List.append_nil]

theorem wordsFrom_word {w : List Char} (hw : ∀ c ∈ w, isBlank c = false) (read rest : List Char) :
    wordsFrom read (w ++ rest) = wordsFrom (w.reverse ++ read) rest := by
  induction w generalizing read with
  | nil => rfl
  | cons c w ih =>
    obtain ⟨hc, hw⟩ := List.forall_mem_cons.mp hw
    simp [wordsFrom, hc, ih hw]

/-- A word ends with the text or at white space. -/
theorem words_word {w rest : List Char} (hne : w ≠ []) (hw : ∀ c ∈ w, isBlank c = false)
    (hrest : ∀ c ∈ rest.head?, isBlank c) : words (w ++ rest) = w :: words rest := by
  rw [words, wordsFrom_word hw, List.append_nil]
  cases rest with
  | nil => simp [wordsFrom, words, hne]
  | cons c rest =>
    have hc := hrest c rfl
    simp [wordsFrom, words, hne, hc]

namespace Token

theorem scanFrom_append_blank {c : Char} (hc : isBlank c) (l l' read : List Char) :
    scanFrom read (l ++ c :: l') = scanFrom read l ++ scan l' := by
  induction l generalizing read with
  | nil =>
    have ho : c ≠ '[' := by
      rintro rfl
      cases hc
    have hcl : c ≠ ']' := by
      rintro rfl
      cases hc
    simp [scanFrom, ho, hcl, hc, scan]
  | cons d l ih =>
    simp only [List.cons_append, scanFrom, ih]
    split_ifs <;> simp

theorem scan_append_blank {c : Char} (hc : isBlank c) (l l' : List Char) :
    scan (l ++ c :: l') = scan l ++ scan l' :=
  scanFrom_append_blank hc l l' []

theorem flatMap_scan_wordsFrom (text read : List Char) :
    (wordsFrom read text).flatMap scan = scan (read.reverse ++ text) := by
  induction text generalizing read with
  | nil => cases read <;> simp [wordsFrom, scan, scanFrom, ofRead]
  | cons c text ih =>
    by_cases hc : isBlank c
    · have hrest : (wordsFrom [] text).flatMap scan = scan text := ih []
      rw [scan_append_blank hc, ← hrest]
      cases read with
      | nil => simp [wordsFrom, hc, scan, scanFrom, ofRead]
      | cons d read => simp [wordsFrom, hc]
    · have hrest := ih (c :: read)
      simp only [List.reverse_cons, List.append_assoc, List.singleton_append] at hrest
      simp only [wordsFrom, hc, Bool.false_eq_true, if_false, hrest]

/-- Scanned word by word, a text has the tokens that it has as a whole. -/
theorem flatMap_scan_words (text : List Char) : (words text).flatMap scan = scan text :=
  flatMap_scan_wordsFrom text []

end Token

end BlockCalculus
