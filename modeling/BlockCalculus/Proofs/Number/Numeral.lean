import BlockCalculus.Number.Decimal
import Mathlib.Data.List.TakeWhile

/-! The number words: the pattern `[-+]?[0-9]*\.?[0-9]+([eE][-+]?[0-9]+)?`, with the decimal
that a word of this form is read as. -/

namespace BlockCalculus.Decimal

inductive Sign : List Char → Bool → Prop
  | none : Sign [] false
  | plus : Sign ['+'] false
  | minus : Sign ['-'] true

inductive Exponent : List Char → Int → Prop
  | none : Exponent [] 0
  | some {c : Char} {sign digits : List Char} {negative : Bool} (hc : c = 'e' ∨ c = 'E')
    (hs : Sign sign negative) (hd : digits.all isDigit) (hne : digits ≠ []) :
    Exponent (c :: (sign ++ digits)) (if negative then -ofDigits digits else ofDigits digits)

/-- A number word and its value: digits without a point, or with one in front of the last
of them. -/
inductive Numeral : List Char → Decimal → Prop
  | whole {sign digits power : List Char} {negative : Bool} {e : Int} (hs : Sign sign negative)
    (hd : digits.all isDigit) (hne : digits ≠ []) (he : Exponent power e) :
    Numeral (sign ++ (digits ++ power)) ⟨negative, ofDigits digits, e⟩
  | point {sign whole fraction power : List Char} {negative : Bool} {e : Int} (hs : Sign sign negative)
    (hw : whole.all isDigit) (hf : fraction.all isDigit) (hne : fraction ≠ []) (he : Exponent power e) :
    Numeral (sign ++ (whole ++ '.' :: (fraction ++ power)))
      ⟨negative, ofDigits (whole ++ fraction), e - fraction.length⟩

/-- What follows an optional sign does not start with another one. -/
def Unsigned (w : List Char) : Prop :=
  ∀ c ∈ w.head?, c ≠ '-' ∧ c ≠ '+'

theorem unsigned_digits {digits : List Char} (hd : digits.all isDigit) (hne : digits ≠ [])
    (rest : List Char) : Unsigned (digits ++ rest) := by
  cases digits with
  | nil => exact (hne rfl).elim
  | cons c digits =>
    rintro c ⟨⟩
    have hc : isDigit c := (Bool.and_eq_true_iff.mp hd).1
    constructor <;> rintro rfl <;> cases hc

theorem Sign.splitSign {sign w : List Char} {negative : Bool} (hs : Sign sign negative)
    (hw : Unsigned w) : splitSign (sign ++ w) = (negative, w) := by
  cases hs with
  | plus | minus => rfl
  | none =>
    cases w with
    | nil => rfl
    | cons c w =>
      obtain ⟨hminus, hplus⟩ := hw c rfl
      rw [List.nil_append, Decimal.splitSign]
      · rintro rest ⟨⟩
        exact hminus rfl
      · rintro rest ⟨⟩
        exact hplus rfl

theorem exists_sign (w : List Char) :
    ∃ sign, Sign sign (splitSign w).1 ∧ w = sign ++ (splitSign w).2 := by
  unfold splitSign
  split
  · exact ⟨_, .minus, rfl⟩
  · exact ⟨_, .plus, rfl⟩
  · exact ⟨_, .none, rfl⟩

theorem takeWhile_digits {digits rest : List Char} (hd : digits.all isDigit)
    (hr : ∀ c ∈ rest.head?, isDigit c = false) : (digits ++ rest).takeWhile isDigit = digits := by
  rw [List.takeWhile_append_of_pos (List.all_eq_true.mp hd)]
  cases rest with
  | nil => simp
  | cons c rest => rw [List.takeWhile_cons_of_neg (by simp [hr c rfl]), List.append_nil]

theorem dropWhile_digits {digits rest : List Char} (hd : digits.all isDigit)
    (hr : ∀ c ∈ rest.head?, isDigit c = false) : (digits ++ rest).dropWhile isDigit = rest := by
  rw [List.dropWhile_append_of_pos (List.all_eq_true.mp hd)]
  cases rest with
  | nil => rfl
  | cons c rest => rw [List.dropWhile_cons_of_neg (by simp [hr c rfl])]

theorem Exponent.head {power : List Char} {e : Int} (h : Exponent power e) :
    ∀ c ∈ power.head?, isDigit c = false ∧ c ≠ '.' := by
  cases h with
  | none => rintro c ⟨⟩
  | some hc =>
    rintro c ⟨⟩
    rcases hc with rfl | rfl <;> decide

theorem Exponent.read {power : List Char} {e : Int} (h : Exponent power e) :
    isExponent power ∧ readExponent? power = .some e := by
  cases h with
  | none => exact ⟨rfl, rfl⟩
  | @some c sign digits negative hc hs hd hne =>
    have hw : Unsigned digits := by simpa using unsigned_digits hd hne []
    have hc : (c == 'e' || c == 'E') = true := by simpa using hc
    have he : digits.isEmpty = false := by simpa using hne
    constructor
    · simp only [isExponent, hs.splitSign hw, hc, he, hd]
      rfl
    · simp only [readExponent?, hs.splitSign hw, hc, he, hd]
      rfl

theorem exists_exponent {power : List Char} (h : isExponent power) : ∃ e, Exponent power e := by
  cases power with
  | nil => exact ⟨0, .none⟩
  | cons c rest =>
    obtain ⟨hne, hd⟩ : ((c = 'e' ∨ c = 'E') ∧ (splitSign rest).2 ≠ []) ∧
        (splitSign rest).2.all isDigit := by
      simpa [isExponent] using h
    obtain ⟨sign, hs, hrest⟩ := exists_sign rest
    rw [hrest]
    exact ⟨_, .some hne.1 hs hd hne.2⟩

theorem Numeral.read {w : List Char} {d : Decimal} (h : Numeral w d) :
    isNumber w ∧ ofChars? w = .some d := by
  cases h with
  | @whole sign digits power negative e hs hd hne he =>
    have hsplit := hs.splitSign (unsigned_digits hd hne power)
    have hdigit : ∀ c ∈ power.head?, isDigit c = false := fun c hc => (he.head c hc).1
    have hpoint : ∀ rest, power ≠ '.' :: rest := by
      rintro rest rfl
      exact (he.head '.' rfl).2 rfl
    have hdot : power.head? ≠ .some '.' := fun hc => (he.head '.' hc).2 rfl
    have hempty : digits.isEmpty = false := by simpa using hne
    constructor
    · simp only [isNumber, hsplit, takeWhile_digits hd hdigit, dropWhile_digits hd hdigit, hempty, he.read.1]
      rfl
    · simp only [ofChars?, hsplit, takeWhile_digits hd hdigit, dropWhile_digits hd hdigit, hdot]
      simp [hempty, he.read.2]
  | @point sign whole fraction power negative e hs hw hf hne he =>
    have hunsigned : Unsigned (whole ++ '.' :: (fraction ++ power)) := by
      by_cases hz : whole = []
      · subst hz
        rintro c ⟨⟩
        decide
      · exact unsigned_digits hw hz _
    have hsplit := hs.splitSign hunsigned
    have hdot : ∀ c ∈ ('.' :: (fraction ++ power)).head?, isDigit c = false := by
      rintro c ⟨⟩
      rfl
    have hdigit : ∀ c ∈ power.head?, isDigit c = false := fun c hc => (he.head c hc).1
    have hempty : fraction.isEmpty = false := by simpa using hne
    constructor
    · simp only [isNumber, hsplit, dropWhile_digits hw hdot, takeWhile_digits hf hdigit,
        dropWhile_digits hf hdigit, hempty, he.read.1]
      rfl
    · simp only [ofChars?, hsplit, takeWhile_digits hw hdot, dropWhile_digits hw hdot, List.head?_cons,
        if_true, List.tail_cons, takeWhile_digits hf hdigit, dropWhile_digits hf hdigit, hempty,
        Bool.and_false, Bool.false_eq_true, if_false, he.read.2]
      rfl

theorem exists_numeral {w : List Char} (h : isNumber w) : ∃ d, Numeral w d := by
  obtain ⟨sign, hs, hw⟩ := exists_sign w
  unfold isNumber at h
  dsimp only at h
  have hbody := List.takeWhile_append_dropWhile (p := isDigit) (l := (splitSign w).2)
  have hdigits : ((splitSign w).2.takeWhile isDigit).all isDigit := List.all_takeWhile
  rw [hw, ← hbody]
  split at h
  · rename_i rest hrest
    obtain ⟨hne, he⟩ := Bool.and_eq_true_iff.mp h
    obtain ⟨e, he⟩ := exists_exponent he
    have hf : rest.takeWhile isDigit ≠ [] := by simpa using hne
    rw [hrest, ← List.takeWhile_append_dropWhile (p := isDigit) (l := rest)]
    exact ⟨_, .point hs hdigits List.all_takeWhile hf he⟩
  · obtain ⟨hne, he⟩ := Bool.and_eq_true_iff.mp h
    obtain ⟨e, he⟩ := exists_exponent he
    exact ⟨_, .whole hs hdigits (by simpa using hne) he⟩

end BlockCalculus.Decimal
