import BlockCalculus.Notation.Token
import Mathlib.Data.List.Basic

/-! What scanning makes of a text: the one way to split it into tokens. Tokens read back as
they are spelled, as long as their words are not empty and hold neither brackets nor white
space. -/

namespace BlockCalculus.Token

/-- A character that can stand in a word. -/
def isWordChar (c : Char) : Bool :=
  c != '[' && c != ']' && !isBlank c

def Plain : Token → Prop
  | word w => w ≠ [] ∧ w.all isWordChar
  | _ => True

theorem scanFrom_word {w : List Char} (hw : w.all isWordChar) (read rest : List Char) :
    scanFrom read (w ++ rest) = scanFrom (w.reverse ++ read) rest := by
  induction w generalizing read with
  | nil => rfl
  | cons c w ih =>
    obtain ⟨hc, hw⟩ : isWordChar c ∧ w.all isWordChar := by simpa using hw
    have hc : c ≠ '[' ∧ c ≠ ']' ∧ isBlank c = false := by simpa [isWordChar, and_assoc] using hc
    rw [List.cons_append, scanFrom, if_neg hc.1, if_neg hc.2.1, hc.2.2, if_neg Bool.false_ne_true,
      ih hw, List.reverse_cons, List.append_assoc]
    rfl

theorem ofRead_reverse {w : List Char} (hw : w ≠ []) : ofRead w.reverse = [word w] := by
  cases h : w.reverse with
  | nil => exact (hw (List.reverse_eq_nil_iff.mp h)).elim
  | cons c cs =>
    change [word (c :: cs).reverse] = _
    rw [← h, List.reverse_reverse]

/-- The first token joins what has been read only if it comes without a gap, and that it
does only where nothing has been read. -/
theorem scanFrom_spell {tokens : List Token} (h : ∀ t ∈ tokens, t.Plain) (read : List Char) :
    scanFrom read (spell false tokens) = ofRead read ++ tokens ∧
      scanFrom [] (spell true tokens) = tokens := by
  induction tokens generalizing read with
  | nil => exact ⟨(List.append_nil _).symm, rfl⟩
  | cons t tokens ih =>
    obtain ⟨ht, hts⟩ := List.forall_mem_cons.mp h
    have ih := ih hts
    have hblank : isBlank ' ' = true := rfl
    cases t with
    | opening =>
      have hopen (read : List Char) : scanFrom read ('[' :: spell true tokens) =
          ofRead read ++ opening :: tokens := by
        rw [scanFrom, if_pos rfl, (ih []).2]
      constructor
      · change scanFrom read (' ' :: '[' :: spell true tokens) = _
        rw [scanFrom, if_neg (by decide), if_neg (by decide), if_pos hblank, hopen]
        rfl
      · exact hopen []
    | closing =>
      have hclose (read : List Char) : scanFrom read (']' :: spell false tokens) =
          ofRead read ++ closing :: tokens := by
        rw [scanFrom, if_neg (by decide), if_pos rfl, (ih []).1]
        rfl
      exact ⟨hclose read, hclose []⟩
    | word w =>
      obtain ⟨hne, hw⟩ := ht
      have hword : scanFrom [] (w ++ spell false tokens) = word w :: tokens := by
        rw [scanFrom_word hw, List.append_nil, (ih w.reverse).1, ofRead_reverse hne]
        rfl
      constructor
      · change scanFrom read (' ' :: (w ++ spell false tokens)) = _
        rw [scanFrom, if_neg (by decide), if_neg (by decide), if_pos hblank, hword]
      · exact hword

theorem scan_spell {tokens : List Token} (h : ∀ t ∈ tokens, t.Plain) :
    scan (spell true tokens) = tokens :=
  (scanFrom_spell h []).2

/-- The text consists of these tokens in order, with any white space around them. A word
goes on until something comes that cannot stand in it. -/
inductive Splits : List Char → List Token → Prop
  | done : Splits [] []
  | blank {c : Char} {text : List Char} {tokens : List Token} (hc : isBlank c) (h : Splits text tokens) :
    Splits (c :: text) tokens
  | opening {text : List Char} {tokens : List Token} (h : Splits text tokens) :
    Splits ('[' :: text) (opening :: tokens)
  | closing {text : List Char} {tokens : List Token} (h : Splits text tokens) :
    Splits (']' :: text) (closing :: tokens)
  | word {w text : List Char} {tokens : List Token} (hw : (word w).Plain)
    (hend : ∀ c ∈ text.head?, isWordChar c = false) (h : Splits text tokens) :
    Splits (w ++ text) (word w :: tokens)

theorem scanFrom_of_end {text : List Char} (hend : ∀ c ∈ text.head?, isWordChar c = false)
    (read : List Char) : scanFrom read text = ofRead read ++ scanFrom [] text := by
  cases text with
  | nil => exact (List.append_nil _).symm
  | cons c text =>
    have hc := hend c rfl
    by_cases ho : c = '['
    · subst ho
      simp [scanFrom, ofRead]
    · by_cases hcl : c = ']'
      · subst hcl
        simp [scanFrom, ofRead]
      · have hb : isBlank c := by simpa [isWordChar, ho, hcl] using hc
        simp [scanFrom, ofRead, ho, hcl, hb]

theorem Splits.scan_eq {text : List Char} {tokens : List Token} (h : Splits text tokens) :
    scan text = tokens := by
  induction h with
  | done => rfl
  | @blank c text tokens hc h ih =>
    have ho : c ≠ '[' := by
      rintro rfl
      cases hc
    have hcl : c ≠ ']' := by
      rintro rfl
      cases hc
    rw [scan, scanFrom, if_neg ho, if_neg hcl, if_pos hc]
    exact ih
  | opening h ih =>
    rw [scan, scanFrom, if_pos rfl]
    exact congrArg (Token.opening :: ·) ih
  | closing h ih =>
    rw [scan, scanFrom, if_neg (by decide), if_pos rfl]
    exact congrArg (Token.closing :: ·) ih
  | @word w text tokens hw hend h ih =>
    rw [scan, scanFrom_word hw.2, List.append_nil, scanFrom_of_end hend, ofRead_reverse hw.1]
    exact congrArg (Token.word w :: ·) ih

theorem Splits.ofRead {read text : List Char} {tokens : List Token} (hr : read.all isWordChar)
    (hend : ∀ c ∈ text.head?, isWordChar c = false) (h : Splits text tokens) :
    Splits (read.reverse ++ text) (ofRead read ++ tokens) := by
  cases read with
  | nil => exact h
  | cons c read =>
    refine .word ⟨by simp, ?_⟩ hend h
    rw [List.all_reverse]
    exact hr

theorem splits_scanFrom (text read : List Char) (hr : read.all isWordChar) :
    Splits (read.reverse ++ text) (scanFrom read text) := by
  induction text generalizing read with
  | nil => simpa [scanFrom] using Splits.ofRead hr (by simp) .done
  | cons c text ih =>
    have hrest : Splits text (scanFrom [] text) := ih [] rfl
    have hend (hc : isWordChar c = false) : ∀ d ∈ (c :: text).head?, isWordChar d = false := by
      rintro d ⟨⟩
      exact hc
    rw [scanFrom]
    split_ifs with ho hcl hb
    · subst ho
      exact .ofRead hr (hend rfl) (.opening hrest)
    · subst hcl
      exact .ofRead hr (hend rfl) (.closing hrest)
    · exact .ofRead hr (hend (by simp [isWordChar, hb])) (.blank hb hrest)
    · have hc : isWordChar c := by simp [isWordChar, ho, hcl, hb]
      have hword := ih (c :: read) (by rw [List.all_cons, hc, hr]; rfl)
      rwa [List.reverse_cons, List.append_assoc] at hword

/-- There is exactly one way to split a text into tokens. -/
theorem splits_iff {text : List Char} {tokens : List Token} :
    Splits text tokens ↔ scan text = tokens := by
  refine ⟨Splits.scan_eq, ?_⟩
  rintro rfl
  exact splits_scanFrom text [] rfl

end BlockCalculus.Token
