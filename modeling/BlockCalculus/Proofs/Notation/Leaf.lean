import BlockCalculus.Notation.Read
import BlockCalculus.Notation.Render
import BlockCalculus.Proofs.Block.Atoms
import BlockCalculus.Proofs.Notation.Token
import BlockCalculus.Proofs.Number.Shortest

/-! The word of a leaf is read back as that leaf, unless it is a literal that is not finite:
those words are names or nothing. -/

namespace BlockCalculus

namespace Bytes

theorem hexValue?_hexDigit {n : Nat} (h : n < 16) : hexValue? (hexDigit n) = some n := by
  interval_cases n <;> rfl

theorem isWordChar_hexDigit {n : Nat} (h : n < 16) : Token.isWordChar (hexDigit n) := by
  interval_cases n <;> rfl

theorem ofHexChars?_hexChars (bytes : Bytes) : ofHexChars? bytes.hexChars = some bytes := by
  induction bytes with
  | nil => rfl
  | cons b bytes ih =>
    have hb : b.toNat < 256 := b.toNat_lt
    have hhigh := hexValue?_hexDigit (n := b.toNat / 16) (by omega)
    have hlow := hexValue?_hexDigit (n := b.toNat % 16) (by omega)
    have hbyte : UInt8.ofNat (16 * (b.toNat / 16) + b.toNat % 16) = b := by
      rw [Nat.div_add_mod, UInt8.ofNat_toNat]
    change ofHexChars? (hexDigit (b.toNat / 16) :: hexDigit (b.toNat % 16) :: hexChars bytes) = _
    simp only [ofHexChars?, hhigh, hlow, ih, Option.bind_eq_bind, Option.bind_some, hbyte]
    rfl

theorem all_hexChars (bytes : Bytes) : bytes.hexChars.all Token.isWordChar := by
  simp only [hexChars, List.all_flatMap, List.all_eq_true]
  intro b _
  have hb : b.toNat < 256 := b.toNat_lt
  have hhigh := isWordChar_hexDigit (n := b.toNat / 16) (by omega)
  have hlow := isWordChar_hexDigit (n := b.toNat % 16) (by omega)
  simp [hhigh, hlow]

end Bytes

theorem Address.ofHexChars?_hexChars (a : Address) : ofHexChars? a.bytes.hexChars = some a := by
  rw [ofHexChars?, Bytes.ofHexChars?_hexChars]
  exact ofBytes?_bytes a

namespace Notation

/-! Words are told apart by their first characters. -/

theorem isDigit_iff {c : Char} : Decimal.isDigit c ↔ 48 ≤ c.toNat ∧ c.toNat ≤ 57 := by
  simp [Decimal.isDigit, Char.le_def, UInt32.le_iff_toNat_le]

theorem isLetter_iff {c : Char} :
    isLetter c ↔ 97 ≤ c.toNat ∧ c.toNat ≤ 122 ∨ 65 ≤ c.toNat ∧ c.toNat ≤ 90 := by
  simp [isLetter, Char.le_def, UInt32.le_iff_toNat_le]

theorem isWordChar_of_toNat {c : Char} (hlow : 33 ≤ c.toNat) (hhigh : c.toNat ≤ 127)
    (hopen : c.toNat ≠ 91) (hclose : c.toNat ≠ 93) : Token.isWordChar c := by
  have ho : c ≠ '[' := fun h => hopen (congrArg Char.toNat h)
  have hc : c ≠ ']' := fun h => hclose (congrArg Char.toNat h)
  simp only [Token.isWordChar, isBlank]
  simp [ho, hc]
  omega

theorem isWordChar_of_isDigit {c : Char} (h : Decimal.isDigit c) : Token.isWordChar c := by
  have := isDigit_iff.mp h
  exact isWordChar_of_toNat (by omega) (by omega) (by omega) (by omega)

theorem isWordChar_of_isLetter {c : Char} (h : isLetter c) : Token.isWordChar c := by
  have := isLetter_iff.mp h
  exact isWordChar_of_toNat (by omega) (by omega) (by omega) (by omega)

/-- The characters that a number can start with. -/
def startsNumber (c : Char) : Bool :=
  c == '-' || c == '+' || c == '.' || Decimal.isDigit c

theorem isNumber_cons_of_not {c : Char} (h : startsNumber c = false) (rest : List Char) :
    Decimal.isNumber (c :: rest) = false := by
  have hc : ((c ≠ '-' ∧ c ≠ '+') ∧ c ≠ '.') ∧ Decimal.isDigit c = false := by
    simpa [startsNumber] using h
  have hs : Decimal.splitSign (c :: rest) = (false, c :: rest) := by
    unfold Decimal.splitSign
    split <;> simp_all
  simp [Decimal.isNumber, hs, hc]

theorem startsNumber_of_isLetter {c : Char} (h : isLetter c) : startsNumber c = false := by
  have hl := isLetter_iff.mp h
  have hd : ¬ Decimal.isDigit c := fun hd => by
    have := isDigit_iff.mp hd
    omega
  have hne (d : Char) (hd : d.toNat < 65) : c ≠ d := by
    rintro rfl
    omega
  simp [startsNumber, hd, hne '-' (by decide), hne '+' (by decide), hne '.' (by decide)]

theorem isIdentifier_iff {w : List Char} :
    isIdentifier w ↔ ∃ c rest, w = c :: rest ∧ isLetter c ∧ rest ≠ [] ∧
      ∀ x ∈ rest, isLetter x ∨ Decimal.isDigit x ∨ x = '-' := by
  rcases w with _ | ⟨c, _ | ⟨d, rest⟩⟩
  · simp [isIdentifier]
  · simp [isIdentifier]
  · simp [isIdentifier, or_assoc]

theorem isLetter_of_isIdentifier {w : List Char} (h : isIdentifier w) :
    ∃ c rest, w = c :: rest ∧ isLetter c := by
  obtain ⟨c, rest, hw, hc, -⟩ := isIdentifier_iff.mp h
  exact ⟨c, rest, hw, hc⟩

theorem isIdentifier_mnemonic (p : Primitive) : isIdentifier p.mnemonic.toList := by
  cases p <;> rfl

theorem ofMnemonic?_eq_none {w : List Char} (h : isIdentifier w = false) :
    Primitive.ofMnemonic? (String.ofList w) = none := by
  cases hp : Primitive.ofMnemonic? (String.ofList w) with
  | none => rfl
  | some p =>
    have hw : p.mnemonic.toList = w := by
      rw [Primitive.mnemonic_of_ofMnemonic? hp, String.toList_ofList]
    rw [← hw, isIdentifier_mnemonic] at h
    cases h

theorem isNumber_of_isIdentifier {w : List Char} (h : isIdentifier w) :
    Decimal.isNumber w = false := by
  obtain ⟨c, rest, rfl, hc⟩ := isLetter_of_isIdentifier h
  exact isNumber_cons_of_not (startsNumber_of_isLetter hc) rest

theorem all_of_isIdentifier {w : List Char} (h : isIdentifier w) : w.all Token.isWordChar := by
  obtain ⟨c, rest, rfl, hc, -, hr⟩ := isIdentifier_iff.mp h
  rw [List.all_cons, isWordChar_of_isLetter hc, Bool.true_and, List.all_eq_true]
  intro x hx
  rcases hr x hx with hl | hd | rfl
  · exact isWordChar_of_isLetter hl
  · exact isWordChar_of_isDigit hd
  · rfl

theorem ne_nil_of_isIdentifier {w : List Char} (h : isIdentifier w) : w ≠ [] := by
  rintro rfl
  cases h

theorem isIdentifier_of_isName {n : String} (hn : isName n) : isIdentifier n.toList := by
  simp only [isName, Bool.and_eq_true] at hn
  exact hn.1.2

/-! Each kind of leaf. -/

theorem leaf_mnemonic (p : Primitive) : leaf p.mnemonic.toList = .ok (.prim p) := by
  simp only [leaf, String.ofList_toList, Primitive.ofMnemonic?_mnemonic]

theorem leaf_link {digits : List Char} {target : Address} (h : Address.ofHexChars? digits = some target) :
    leaf ('#' :: digits) = .ok (.link target) := by
  have hi : isIdentifier ('#' :: digits) = false := by
    cases digits <;> rfl
  have hn := isNumber_cons_of_not (c := '#') rfl digits
  simp only [leaf, ofMnemonic?_eq_none hi, hn, Bool.false_eq_true, if_false, h]

theorem leaf_numeral {w : List Char} {d : Decimal} (h : Decimal.Numeral w d) :
    leaf w = .ok (.num d.toBinary64) := by
  obtain ⟨hn, hd⟩ := h.read
  have hi : isIdentifier w = false := by
    by_contra hi
    rw [isNumber_of_isIdentifier (by simpa using hi)] at hn
    cases hn
  simp only [leaf, ofMnemonic?_eq_none hi, hn, if_true, hd]

theorem leaf_finite {x : Binary64} (hx : x.isFinite) : leaf x.chars = .ok (.num x) := by
  obtain ⟨d, hd, hv⟩ := Binary64.numeral_chars hx
  rw [leaf_numeral hd, hv]

theorem leaf_name {n : String} (hn : isName n) : leaf n.toList = .ok (.var n) := by
  have hn : (2 < n.length ∧ isIdentifier n.toList) ∧ Primitive.ofMnemonic? n = none := by
    simpa [isName] using hn
  obtain ⟨⟨hl, hi⟩, hp⟩ := hn
  have hl : ¬ n.toList.length ≤ 2 := by
    rw [String.length_toList]
    omega
  obtain ⟨c, rest, hw, hc⟩ := isLetter_of_isIdentifier hi
  have hlink (digits : List Char) : n.toList ≠ '#' :: digits := by
    rw [hw]
    rintro ⟨⟩
    cases hc
  simp only [leaf, String.ofList_toList, hp, isNumber_of_isIdentifier hi, Bool.false_eq_true, if_false]
  rw [if_neg hl, if_pos hi]

/-- The three words of the literals that are not finite. -/
theorem chars_of_not_isFinite {x : Binary64} (hx : x.isFinite = false) :
    x.chars = "NaN".toList ∨ x.chars = "inf".toList ∨ x.chars = "-inf".toList := by
  unfold Binary64.chars
  rw [hx]
  by_cases hnan : x.isNaN
  · exact .inl (if_pos hnan)
  · rw [if_neg hnan]
    cases x.isNegative
    · exact .inr (.inl rfl)
    · exact .inr (.inr rfl)

theorem leaf_not_finite {x : Binary64} (hx : x.isFinite = false) (y : Binary64) :
    leaf x.chars ≠ .ok (.num y) := by
  have hnan : leaf "NaN".toList = .ok (.var "NaN") := leaf_name (by decide)
  have hinf : leaf "inf".toList = .ok (.var "inf") := leaf_name (by decide)
  have hminus : leaf "-inf".toList = .error (.unknownWord "-inf") := by decide
  rcases chars_of_not_isFinite hx with h | h | h
  · rw [h, hnan]
    rintro ⟨⟩
  · rw [h, hinf]
    rintro ⟨⟩
  · rw [h, hminus]
    rintro ⟨⟩

theorem plain_chars (x : Binary64) : (Token.word x.chars).Plain := by
  by_cases hx : x.isFinite
  · obtain ⟨whole, fraction, hw, hne, hf, hc, -⟩ := Binary64.chars_of_isFinite hx
    have hdigits {l : List Char} (hl : l.all Decimal.isDigit) : l.all Token.isWordChar :=
      List.all_eq_true.mpr fun c hc => isWordChar_of_isDigit (List.all_eq_true.mp hl c hc)
    have hsign : (if x.isNegative then ['-'] else []).all Token.isWordChar := by
      cases x.isNegative <;> rfl
    have hpoint : (Decimal.point fraction).all Token.isWordChar := by
      cases fraction with
      | nil => rfl
      | cons c cs =>
        change (c :: cs).all Token.isWordChar
        exact hdigits hf
    refine ⟨?_, ?_⟩
    · simp [hc, hne]
    · rw [hc, List.all_append, List.all_append, hsign, hdigits hw, hpoint]
      rfl
  · rcases chars_of_not_isFinite (by simpa using hx) with h | h | h <;>
      rw [h] <;> exact ⟨by decide, by decide⟩

end Notation

namespace Block

def word : Block → List Char
  | prim p => p.mnemonic.toList
  | link target => '#' :: target.bytes.hexChars
  | num x => x.chars
  | var name => name.toList
  | _ => []

/-- The leaves that are not read back are the literals that are not finite. -/
theorem leaf_word_iff {b : Block} (hb : ∀ n ∈ b.names, Notation.isName n) :
    (∀ x ∈ b.atoms, Notation.leaf x.word = .ok x) ↔ ∀ v, num v ∈ b.atoms → v.isFinite := by
  induction b with
  | empty => simp [atoms]
  | quote body ih => exact ih hb
  | pair a b iha ihb =>
    have hn := List.forall_mem_append.mp hb
    rw [atoms, List.forall_mem_append, iha hn.1, ihb hn.2]
    simp only [List.mem_append, or_imp, forall_and]
  | prim p => simp [atoms, word, Notation.leaf_mnemonic]
  | link target => simp [atoms, word, Notation.leaf_link target.ofHexChars?_hexChars]
  | var n => simp [atoms, word, Notation.leaf_name (hb n List.mem_cons_self)]
  | num x =>
    by_cases hx : x.isFinite
    · simp [atoms, word, Notation.leaf_finite hx, hx]
    · have hne := Notation.leaf_not_finite (by simpa using hx) x
      simp [atoms, word, hne, hx]

end Block

end BlockCalculus
