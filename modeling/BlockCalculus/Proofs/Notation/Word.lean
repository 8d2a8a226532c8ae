import BlockCalculus.Proofs.Notation.Leaf

/-! The words of the notation and what they stand for. Any other word is a fault, told by
its first character and by its length. -/

namespace BlockCalculus

namespace Bytes

def IsHexDigit (c : Char) : Prop :=
  '0' ≤ c ∧ c ≤ '9' ∨ 'a' ≤ c ∧ c ≤ 'f' ∨ 'A' ≤ c ∧ c ≤ 'F'

theorem toNat_toLower (c : Char) :
    c.toLower.toNat = if 65 ≤ c.toNat ∧ c.toNat ≤ 90 then c.toNat + 32 else c.toNat := by
  have hu : (c.val ≥ 'A'.val ∧ c.val ≤ 'Z'.val) ↔ 65 ≤ c.toNat ∧ c.toNat ≤ 90 := by
    simp [UInt32.le_iff_toNat_le]
  unfold Char.toLower
  split
  · rename_i h
    have hr := hu.mp h
    rw [if_pos hr]
    change (c.val + 32).toNat = _
    rw [UInt32.toNat_add]
    exact Nat.mod_eq_of_lt (by change c.toNat + 32 < _; omega)
  · rename_i h
    rw [if_neg fun hr => h (hu.mpr hr)]

theorem hexValue?_eq (c : Char) :
    hexValue? c =
      if 48 ≤ c.toNat ∧ c.toNat ≤ 57 then some (c.toNat - 48)
      else if 97 ≤ c.toNat ∧ c.toNat ≤ 102 then some (c.toNat - 87)
      else if 65 ≤ c.toNat ∧ c.toNat ≤ 70 then some (c.toNat - 55)
      else none := by
  simp [hexValue?, Char.le_def, UInt32.le_iff_toNat_le]

theorem hexValue?_toLower (c : Char) : hexValue? c.toLower = hexValue? c := by
  rw [hexValue?_eq, hexValue?_eq, toNat_toLower]
  split_ifs <;> first | omega | rfl

theorem toNat_hexDigit {n : Nat} (h : n < 16) :
    (hexDigit n).toNat = if n < 10 then 48 + n else 87 + n := by
  interval_cases n <;> rfl

/-- A digit is read in either case, and written in lower case. -/
theorem hexValue?_eq_some_iff {c : Char} {n : Nat} :
    hexValue? c = some n ↔ n < 16 ∧ c.toLower = hexDigit n := by
  constructor
  · intro h
    rw [hexValue?_eq] at h
    have hn : n < 16 := by
      split_ifs at h <;> cases h <;> omega
    refine ⟨hn, Char.toNat_inj.mp ?_⟩
    rw [toNat_toLower, toNat_hexDigit hn]
    split_ifs at h ⊢ <;> cases h <;> omega
  · rintro ⟨hn, hc⟩
    rw [← hexValue?_toLower, hc, hexValue?_hexDigit hn]

theorem isHexDigit_iff {c : Char} : IsHexDigit c ↔ ∃ n, hexValue? c = some n := by
  simp only [IsHexDigit, hexValue?]
  split_ifs <;> simp_all

theorem length_hexChars (bytes : Bytes) : (hexChars bytes).length = 2 * bytes.length := by
  induction bytes with
  | nil => rfl
  | cons b bytes ih =>
    change (hexChars bytes).length + 2 = 2 * (bytes.length + 1)
    omega

theorem ofHexChars?_map_toLower (digits : List Char) :
    ofHexChars? (digits.map Char.toLower) = ofHexChars? digits := by
  match digits with
  | [] => rfl
  | [_] => rfl
  | a :: b :: rest =>
    simp only [List.map_cons, ofHexChars?, hexValue?_toLower, ofHexChars?_map_toLower rest]

theorem hexChars_of_ofHexChars? {digits : List Char} {bytes : Bytes}
    (h : ofHexChars? digits = some bytes) : digits.map Char.toLower = bytes.hexChars := by
  match digits with
  | [] =>
    cases h
    rfl
  | [_] => cases h
  | a :: b :: rest =>
    simp only [ofHexChars?, Option.bind_eq_bind, Option.bind_eq_some_iff] at h
    obtain ⟨high, ha, low, hb, tail, ht, he⟩ := h
    cases he
    obtain ⟨hhigh, ha⟩ := hexValue?_eq_some_iff.mp ha
    obtain ⟨hlow, hb⟩ := hexValue?_eq_some_iff.mp hb
    have hbyte : (UInt8.ofNat (16 * high + low)).toNat = 16 * high + low := by
      rw [UInt8.toNat_ofNat']
      omega
    have hdiv : (16 * high + low) / 16 = high := by omega
    have hmod : (16 * high + low) % 16 = low := by omega
    change a.toLower :: b.toLower :: rest.map Char.toLower = hexDigit _ :: hexDigit _ :: tail.hexChars
    rw [ha, hb, hexChars_of_ofHexChars? ht, hbyte, hdiv, hmod]

theorem exists_ofHexChars? {digits : List Char} {n : Nat} (hl : digits.length = 2 * n)
    (hd : ∀ c ∈ digits, IsHexDigit c) : ∃ bytes, ofHexChars? digits = some bytes := by
  induction n generalizing digits with
  | zero => exact ⟨[], by rw [List.length_eq_zero_iff.mp hl]; rfl⟩
  | succ n ih =>
    match digits with
    | [] => exact ⟨[], rfl⟩
    | [_] =>
      have hl : 1 = 2 * (n + 1) := hl
      omega
    | a :: b :: rest =>
      obtain ⟨ha, hd⟩ := List.forall_mem_cons.mp hd
      obtain ⟨hb, hd⟩ := List.forall_mem_cons.mp hd
      have hl : rest.length + 2 = 2 * (n + 1) := hl
      obtain ⟨high, ha⟩ := isHexDigit_iff.mp ha
      obtain ⟨low, hb⟩ := isHexDigit_iff.mp hb
      obtain ⟨bytes, hr⟩ := ih (by omega) hd
      exact ⟨_, by simp only [ofHexChars?, ha, hb, hr]; rfl⟩

theorem isHexDigit_of_map_toLower {digits : List Char} {bytes : Bytes}
    (h : digits.map Char.toLower = hexChars bytes) : ∀ c ∈ digits, IsHexDigit c := by
  intro c hc
  have hm : c.toLower ∈ hexChars bytes := h ▸ List.mem_map_of_mem hc
  obtain ⟨b, -, hb⟩ := List.mem_flatMap.mp hm
  have hlt : b.toNat < 256 := b.toNat_lt
  have hdigit {n : Nat} (hn : n < 16) (he : c.toLower = hexDigit n) : IsHexDigit c :=
    isHexDigit_iff.mpr ⟨n, hexValue?_eq_some_iff.mpr ⟨hn, he⟩⟩
  rcases List.mem_pair.mp hb with he | he
  · exact hdigit (by omega) he
  · exact hdigit (by omega) he

end Bytes

namespace Address

theorem ofHexChars?_eq_some_iff {digits : List Char} {target : Address} :
    ofHexChars? digits = some target ↔ digits.map Char.toLower = Bytes.hexChars target.bytes := by
  constructor
  · intro h
    obtain ⟨bytes, hb, ht⟩ := Option.bind_eq_some_iff.mp h
    rw [bytes_of_ofBytes? ht]
    exact Bytes.hexChars_of_ofHexChars? hb
  · intro h
    rw [ofHexChars?, ← Bytes.ofHexChars?_map_toLower, h]
    exact ofHexChars?_hexChars target

theorem exists_ofHexChars? {digits : List Char} (hl : digits.length = 64)
    (hd : ∀ c ∈ digits, Bytes.IsHexDigit c) : ∃ target, ofHexChars? digits = some target := by
  obtain ⟨bytes, hb⟩ := Bytes.exists_ofHexChars? (n := 32) hl hd
  have hlen := congrArg List.length (Bytes.hexChars_of_ofHexChars? hb)
  rw [List.length_map, Bytes.length_hexChars] at hlen
  have hbytes : bytes.length = 32 := by omega
  refine ⟨⟨bytes, hbytes⟩, ?_⟩
  rw [ofHexChars?, hb]
  exact dif_pos hbytes

theorem length_hexChars (a : Address) : (Bytes.hexChars a.bytes).length = 64 := by
  rw [Bytes.length_hexChars, a.length_eq]

end Address

namespace Notation

/-- The leaf that a word stands for. The digits of a link may be in either case. -/
inductive Denotes : List Char → Block → Prop
  | operator (p : Primitive) : Denotes p.mnemonic.toList (.prim p)
  | number {w : List Char} {d : Decimal} (h : Decimal.Numeral w d) : Denotes w (.num d.toBinary64)
  | link {digits : List Char} {target : Address}
    (h : digits.map Char.toLower = Bytes.hexChars target.bytes) : Denotes ('#' :: digits) (.link target)
  | name {n : String} (h : isName n) : Denotes n.toList (.var n)

inductive IsWord : List Char → Prop
  | operator (p : Primitive) : IsWord p.mnemonic.toList
  | number {w : List Char} {d : Decimal} (h : Decimal.Numeral w d) : IsWord w
  | link {digits : List Char} (hl : digits.length = 64) (hd : ∀ c ∈ digits, Bytes.IsHexDigit c) :
    IsWord ('#' :: digits)
  | name {c : Char} {rest : List Char} (hc : isLetter c) (hl : 2 ≤ rest.length)
    (hr : ∀ x ∈ rest, isLetter x ∨ Decimal.isDigit x ∨ x = '-')
    (hp : ∀ p : Primitive, p.mnemonic.toList ≠ c :: rest) : IsWord (c :: rest)

/-- What is reported about a word that stands for nothing. -/
def fault (w : List Char) : ReadError :=
  if w.head? ≠ some '#' ∧ w.length ≤ 2 then .reserved (String.ofList w)
  else .unknownWord (String.ofList w)

theorem leaf_of_denotes {w : List Char} {b : Block} (h : Denotes w b) : leaf w = .ok b := by
  cases h with
  | operator p => exact leaf_mnemonic p
  | number h => exact leaf_numeral h
  | link h => exact leaf_link (Address.ofHexChars?_eq_some_iff.mpr h)
  | name h => exact leaf_name h

theorem ofMnemonic?_eq_none_iff {w : List Char} :
    Primitive.ofMnemonic? (String.ofList w) = none ↔ ∀ p : Primitive, p.mnemonic.toList ≠ w := by
  constructor
  · rintro h p rfl
    rw [String.ofList_toList, Primitive.ofMnemonic?_mnemonic] at h
    cases h
  · intro h
    refine Option.eq_none_iff_forall_ne_some.mpr fun p hp => h p ?_
    rw [Primitive.mnemonic_of_ofMnemonic? hp, String.toList_ofList]

theorem isName_of_isIdentifier {w : List Char} (hp : Primitive.ofMnemonic? (String.ofList w) = none)
    (hl : 2 < w.length) (hi : isIdentifier w) : isName (String.ofList w) := by
  simp [isName, hp, hl, hi]

theorem leaf_cases (w : List Char) :
    (∃ b, Denotes w b ∧ leaf w = .ok b) ∨ leaf w = .error (fault w) := by
  unfold leaf
  dsimp only
  split
  · rename_i p hp
    have hw : p.mnemonic.toList = w := by
      rw [Primitive.mnemonic_of_ofMnemonic? hp, String.toList_ofList]
    exact .inl ⟨_, hw ▸ .operator p, rfl⟩
  · rename_i hp
    split
    · rename_i hn
      obtain ⟨d, hd⟩ := Decimal.exists_numeral hn
      rw [hd.read.2]
      exact .inl ⟨_, .number hd, rfl⟩
    · split
      · rename_i digits
        split
        · rename_i target ht
          exact .inl ⟨_, .link (Address.ofHexChars?_eq_some_iff.mp ht), rfl⟩
        · exact .inr (by simp [fault])
      · rename_i hw
        have hhash : w.head? ≠ some '#' := by
          cases w with
          | nil => rintro ⟨⟩
          | cons c rest =>
            rintro ⟨⟩
            exact hw rest rfl
        split
        · rename_i hl
          exact .inr (by simp [fault, hhash, hl])
        · rename_i hl
          split
          · rename_i hi
            have hn := isName_of_isIdentifier hp (by omega) hi
            have hname := Denotes.name hn
            rw [String.toList_ofList] at hname
            exact .inl ⟨_, hname, rfl⟩
          · exact .inr (by simp [fault, hl])

theorem leaf_eq_ok_iff {w : List Char} {b : Block} : leaf w = .ok b ↔ Denotes w b := by
  refine ⟨fun h => ?_, leaf_of_denotes⟩
  rcases leaf_cases w with ⟨c, hc, hl⟩ | hl
  · cases hl.symm.trans h
    exact hc
  · cases hl.symm.trans h

theorem isWord_iff {w : List Char} : IsWord w ↔ ∃ b, Denotes w b := by
  constructor
  · rintro (p | ⟨h⟩ | ⟨hl, hd⟩ | ⟨hc, hl, hr, hp⟩)
    · exact ⟨_, .operator p⟩
    · exact ⟨_, .number h⟩
    · obtain ⟨target, ht⟩ := Address.exists_ofHexChars? hl hd
      exact ⟨_, .link (Address.ofHexChars?_eq_some_iff.mp ht)⟩
    · rename_i c rest
      have hne : rest ≠ [] := by
        rintro rfl
        cases hl
      have hi := isIdentifier_iff.mpr ⟨c, rest, rfl, hc, hne, hr⟩
      have hn := isName_of_isIdentifier (ofMnemonic?_eq_none_iff.mpr hp) (Nat.lt_succ_of_le hl) hi
      have hname := Denotes.name hn
      rw [String.toList_ofList] at hname
      exact ⟨_, hname⟩
  · rintro ⟨b, h⟩
    cases h with
    | operator p => exact .operator p
    | number h => exact .number h
    | @link digits target h =>
      have hl : digits.length = 64 := by
        rw [← target.length_hexChars, ← h, List.length_map]
      exact .link hl (Bytes.isHexDigit_of_map_toLower h)
    | @name n h =>
      obtain ⟨⟨hl, hi⟩, hp⟩ : (2 < n.length ∧ isIdentifier n.toList) ∧ Primitive.ofMnemonic? n = none := by
        simpa [isName] using h
      rw [← String.ofList_toList (s := n)] at hp
      have hp := ofMnemonic?_eq_none_iff.mp hp
      rw [← String.length_toList] at hl
      obtain ⟨c, rest, hw, hc, -, hr⟩ := isIdentifier_iff.mp hi
      rw [hw] at hl hp ⊢
      exact .name hc (Nat.le_of_lt_succ hl) hr hp

theorem leaf_eq_error_iff {w : List Char} {e : ReadError} :
    leaf w = .error e ↔ ¬ IsWord w ∧ e = fault w := by
  rw [isWord_iff]
  constructor
  · intro h
    rcases leaf_cases w with ⟨c, hc, hl⟩ | hl
    · cases hl.symm.trans h
    · refine ⟨?_, Except.error.inj (h.symm.trans hl)⟩
      rintro ⟨b, hb⟩
      cases (leaf_of_denotes hb).symm.trans h
  · rintro ⟨hw, rfl⟩
    rcases leaf_cases w with ⟨c, hc, -⟩ | hl
    · exact (hw ⟨c, hc⟩).elim
    · exact hl

end Notation

end BlockCalculus
