import BlockCalculus.Proofs.Number.Digits
import BlockCalculus.Proofs.Number.Numeral
import Mathlib.Tactic.NormNum
import Mathlib.Tactic.Positivity

/-! The written form of a finite literal is a number word that reads back as the same
bits. What is read depends on the quotient only, so digits may move across the point. -/

namespace BlockCalculus

namespace Binary64

theorem roundDiv_mul_left {k : Nat} (hk : 0 < k) (num den : Nat) :
    roundDiv (k * num) (k * den) = roundDiv num den := by
  have hlt (a b : Nat) : k * a < k * b ↔ a < b := Nat.mul_lt_mul_left hk
  have heq (a b : Nat) : k * a = k * b ↔ a = b := Nat.mul_right_inj hk.ne'
  have htwo : 2 * (k * (num % den)) = k * (2 * (num % den)) := Nat.mul_left_comm 2 k _
  simp only [roundDiv, Nat.mul_div_mul_left _ _ hk, Nat.mul_mod_mul_left, htwo, hlt, heq]

theorem nearest_mul_left {k : Nat} (hk : 0 < k) (num den : Nat) :
    nearest (k * num) (k * den) = nearest num den := by
  simp only [nearest, Nat.mul_div_mul_left _ _ hk, Nat.mul_assoc, roundDiv_mul_left hk]

theorem nearest_of_lt {num den : Nat} (h : 2 * num < den) : nearest num den = 0 := by
  have hd : num / den = 0 := Nat.div_eq_of_lt (by omega)
  have hm : num % den = num := Nat.mod_eq_of_lt (by omega)
  have hr : roundDiv num den = 0 := by
    rw [roundDiv, hd, hm, if_neg (by omega)]
  have hz : Nat.log2 0 - 52 = 0 := rfl
  have hp : Nat.pow 2 0 = 1 := rfl
  simp only [nearest, hd, hz, hp, Nat.mul_one, hr, Nat.zero_mul, Nat.add_zero, Nat.min_zero]

theorem roundDiv_mul_self {den : Nat} (hd : 0 < den) (n : Nat) : roundDiv (n * den) den = n := by
  rw [roundDiv, Nat.mul_div_cancel _ hd, Nat.mul_mod_left, if_neg (by omega)]

theorem log2_mul_two_pow {k r : Nat} (hr : r < 2 ^ k) (q : Nat) :
    Nat.log2 ((2 ^ k + r) * 2 ^ q) = k + q := by
  have hlow : 2 ^ (k + q) ≤ (2 ^ k + r) * 2 ^ q := by
    rw [pow_add]
    exact Nat.mul_le_mul_right _ (by omega)
  have hhigh : (2 ^ k + r) * 2 ^ q < 2 ^ (k + q + 1) := by
    rw [Nat.add_right_comm, pow_add, pow_succ]
    exact Nat.mul_lt_mul_of_pos_right (by omega) (by positivity)
  have hne : (2 ^ k + r) * 2 ^ q ≠ 0 := by positivity
  have h₁ := (Nat.le_log2 hne).mpr hlow
  have h₂ := (Nat.log2_lt hne).mpr hhigh
  omega

/-- A finite value is its own nearest value. -/
theorem nearest_unitsOf {m : Nat} (h : m < infinity) : nearest (unitsOf m) 1 = m := by
  have hp (a b : Nat) : Nat.pow a b = a ^ b := rfl
  by_cases hm : m < 2 ^ 52
  · have hu : unitsOf m = m := by simp only [unitsOf, hp, if_pos hm]
    have hs : Nat.log2 m - 52 = 0 := by
      by_cases hz : m = 0
      · subst hz
        rfl
      · have := (Nat.log2_lt hz).mpr hm
        omega
    simp only [nearest, hu, Nat.div_one, hs, hp, pow_zero, Nat.mul_one, Nat.zero_mul, Nat.zero_add]
    have hr := roundDiv_mul_self Nat.one_pos m
    rw [Nat.mul_one] at hr
    omega
  · have hq : 0 < m / 2 ^ 52 := Nat.div_pos (by omega) (by omega)
    obtain ⟨q, hq⟩ : ∃ q, m / 2 ^ 52 = q + 1 := ⟨m / 2 ^ 52 - 1, by omega⟩
    have hu : unitsOf m = (2 ^ 52 + m % 2 ^ 52) * 2 ^ q := by
      simp only [unitsOf, hp, if_neg hm, hq, Nat.add_sub_cancel]
    have hr : m % 2 ^ 52 < 2 ^ 52 := Nat.mod_lt _ (by omega)
    have hlog := log2_mul_two_pow hr q
    have hshift : 52 + q - 52 = q := by omega
    simp only [nearest, hu, Nat.div_one, hlog, hshift, hp, Nat.one_mul]
    rw [roundDiv_mul_self (by positivity)]
    have hsplit := Nat.div_add_mod m (2 ^ 52)
    rw [hq] at hsplit
    have hsum : q * 2 ^ 52 + (2 ^ 52 + m % 2 ^ 52) = m := by omega
    omega

end Binary64

namespace Decimal

open Binary64

theorem magnitude_zero (e : Int) : magnitude 0 e = 0 :=
  if_pos rfl

theorem two_mul_lt_ten_pow {c k n u : Nat} (hc : c ≠ 0) (hk : c.log2 + 1 + 13 * n ≤ k)
    (hu : u + 1 ≤ 43 * n) : 2 * (c * 2 ^ u) < 10 ^ k := by
  have hbits : c < 2 ^ (c.log2 + 1) := (Nat.log2_lt hc).mp (Nat.lt_succ_self _)
  have hten : 2 ^ (c.log2 + 1) ≤ 10 ^ (c.log2 + 1) := Nat.pow_le_pow_left (by omega) _
  have hgroup : 2 ^ (u + 1) ≤ 10 ^ (13 * n) := by
    calc 2 ^ (u + 1) ≤ (2 ^ 43) ^ n := by
          rw [← pow_mul]
          exact Nat.pow_le_pow_right (by omega) hu
      _ ≤ (10 ^ 13) ^ n := Nat.pow_le_pow_left (by norm_num) n
      _ = 10 ^ (13 * n) := (pow_mul 10 13 n).symm
  calc 2 * (c * 2 ^ u) = c * 2 ^ (u + 1) := by ring
    _ < 2 ^ (c.log2 + 1) * 2 ^ (u + 1) := Nat.mul_lt_mul_of_pos_right hbits (by positivity)
    _ ≤ 10 ^ (c.log2 + 1) * 10 ^ (13 * n) := Nat.mul_le_mul hten hgroup
    _ = 10 ^ (c.log2 + 1 + 13 * n) := (pow_add 10 _ _).symm
    _ ≤ 10 ^ k := Nat.pow_le_pow_right (by omega) hk

-- The number of places of the smallest value stays a variable: as a numeral it would be
-- evaluated in a power.
variable {k : Nat}

/-- Below the least exponent the quotient rounds to zero anyway. -/
theorem magnitude_eq_nearest {c : Nat} {e : Int} (hk : k = 1074) (hc : c ≠ 0) (he : e ≤ 400) :
    magnitude c e = nearest (c * 10 ^ e.toNat * 2 ^ k) (10 ^ (-e).toNat) := by
  rw [magnitude, if_neg hc, if_neg (by omega), ← hk]
  by_cases hlow : e + c.log2 + 1 < -400
  · have hz : e.toNat = 0 := by omega
    have hlt : 2 * (c * 2 ^ k) < 10 ^ (-e).toNat :=
      two_mul_lt_ten_pow (n := 25) hc (by omega) (by omega)
    rw [if_pos hlow, hz, pow_zero, Nat.mul_one, nearest_of_lt hlt]
  · rw [if_neg hlow]
    rfl

theorem magnitude_of_onGrid? {m : Nat} {e : Int} {d : Nat × Int} (h : onGrid? m e = some d) :
    magnitude d.1 d.2 = m := by
  unfold onGrid? at h
  extract_lets value step low readsBack upper at h
  have hread {n : Nat} (hn : readsBack n = true) : magnitude n e = m := eq_of_beq hn
  split at h
  · rename_i hlow
    cases h
    exact hread (Bool.and_eq_true_iff.mp hlow).1
  · split at h
    · rename_i hup
      cases h
      exact hread hup
    · cases h

theorem magnitude_mul_five_pow {u : Nat} {e : Int} (hk : k = 1074) (hu : u ≠ 0) (he : e = -k) :
    magnitude (u * Nat.pow 5 k) e = nearest u 1 := by
  have hpos : 0 < 10 ^ k := by positivity
  have hten : (10 : Nat) ^ k = 5 ^ k * 2 ^ k := mul_pow 5 2 k
  have hfive : Nat.pow 5 k = 5 ^ k := rfl
  have hne : u * 5 ^ k ≠ 0 := Nat.mul_ne_zero hu (by positivity)
  have hz : e.toNat = 0 := by omega
  have hp : (-e).toNat = k := by omega
  have hnum : u * 5 ^ k * 10 ^ 0 * 2 ^ k = 10 ^ k * u := by
    rw [hten]
    ring
  rw [hfive, magnitude_eq_nearest hk hne (by omega), hz, hp, hnum, ← nearest_mul_left hpos u 1,
    Nat.mul_one]

/-- What the search for few digits finds reads back, and so does the exact value. -/
theorem magnitude_shortest {m : Nat} (hm : m < infinity) :
    magnitude (shortest m).1 (shortest m).2 = m := by
  by_cases hz : m = 0
  · subst hz
    rfl
  · obtain ⟨k, hk⟩ : ∃ k, k = 1074 := ⟨_, rfl⟩
    rw [shortest, if_neg hz, ← hk]
    cases hf : (List.range 17).findSome? fun (n : Nat) => onGrid? m (leading m - (n + 1)) with
    | some d =>
      obtain ⟨n, -, hn⟩ := List.exists_of_findSome?_eq_some hf
      exact magnitude_of_onGrid? hn
    | none =>
      have hu : unitsOf m ≠ 0 := fun hu => by
        have := nearest_unitsOf hm
        rw [hu] at this
        exact hz this.symm
      have he : (-1074 : Int) = -k := by omega
      exact (magnitude_mul_five_pow hk hu he).trans (nearest_unitsOf hm)

theorem magnitude_trimmed {c : Nat} {e : Int} (h : magnitude c e < infinity) :
    magnitude (trimmed (c * 10 ^ e.toNat) (-e).toNat).1
      (-(trimmed (c * 10 ^ e.toNat) (-e).toNat).2) = magnitude c e := by
  obtain ⟨hle, hmul⟩ := trimmed_spec (c * 10 ^ e.toNat) (-e).toNat
  generalize trimmed (c * 10 ^ e.toNat) (-e).toNat = t at hle hmul ⊢
  obtain ⟨c', p⟩ := t
  simp only at hle hmul ⊢
  by_cases hc : c = 0
  · have hc' : c' = 0 := by simpa [hc] using hmul
    rw [hc, hc', magnitude_zero, magnitude_zero]
  · have he : e ≤ 400 := by
      by_contra hlt
      rw [magnitude, if_neg hc, if_pos (by omega)] at h
      exact Nat.lt_irrefl _ h
    have hc' : c' ≠ 0 := by
      rintro rfl
      simp [hc] at hmul
    have hpos : 0 < 10 ^ ((-e).toNat - p) := by positivity
    have hsplit : 10 ^ (-e).toNat = 10 ^ ((-e).toNat - p) * 10 ^ p := by
      rw [← pow_add, Nat.sub_add_cancel hle]
    have hp : (- -(p : Int)).toNat = p := by omega
    have hz : (-(p : Int)).toNat = 0 := by omega
    have hscale (u : Nat) : nearest (c * 10 ^ e.toNat * u) (10 ^ (-e).toNat) = nearest (c' * u) (10 ^ p) := by
      rw [hmul, hsplit, ← nearest_mul_left hpos (c' * u)]
      congr 1
      ring
    rw [magnitude_eq_nearest rfl hc' (by omega), magnitude_eq_nearest rfl hc he, hscale, hp, hz, pow_zero,
      Nat.mul_one]

theorem numeral_digits {whole fraction : List Char} (hw : whole.all isDigit) (hne : whole ≠ [])
    (hf : fraction.all isDigit) (negative : Bool) :
    Numeral ((if negative then ['-'] else []) ++ (whole ++ point fraction))
      ⟨negative, ofDigits (whole ++ fraction), -fraction.length⟩ := by
  have hs : Sign (if negative then ['-'] else []) negative := by
    cases negative with
    | true => exact .minus
    | false => exact .none
  cases fraction with
  | nil => simpa [point] using Numeral.whole hs hw hne .none
  | cons c cs => simpa [point] using Numeral.point hs hw hf (List.cons_ne_nil c cs) .none

end Decimal

namespace Binary64

/-- The written form of a finite literal: a sign, digits, and a point in front of more digits
if there are any. -/
theorem chars_of_isFinite {x : Binary64} (hx : x.isFinite) :
    ∃ whole fraction : List Char, whole.all Decimal.isDigit ∧ whole ≠ [] ∧
      fraction.all Decimal.isDigit ∧
      x.chars = (if x.isNegative then ['-'] else []) ++ (whole ++ Decimal.point fraction) ∧
      Decimal.magnitude (Decimal.ofDigits (whole ++ fraction)) (-fraction.length) = x.magnitude := by
  have hlt : x.magnitude < infinity := by simpa [isFinite] using hx
  have hnan : x.isNaN = false := by simp [isNaN]; omega
  have hm := Decimal.magnitude_shortest hlt
  have ht := Decimal.magnitude_trimmed (hm.trans_lt hlt)
  generalize hd : Decimal.shortest x.magnitude = d at hm ht
  generalize hs : Decimal.trimmed (d.1 * 10 ^ d.2.toNat) (-d.2).toNat = s at ht
  refine ⟨Decimal.digits (s.1 / 10 ^ s.2), Decimal.positional.fractionDigits s.2 s.1,
    Decimal.all_digitsBefore _ rfl, Decimal.digitsBefore_ne_nil _ _,
    Decimal.all_fractionDigits _ _, ?_, ?_⟩
  · have hp (a b : Nat) : Nat.pow a b = a ^ b := rfl
    simp only [chars, hnan, Bool.false_eq_true, if_false, hx, if_true, hd, Decimal.unsignedChars,
      hp, Decimal.positional_eq, hs]
  · rw [Decimal.ofDigits_positional, Decimal.length_fractionDigits, ht, hm]

/-- The written form of a finite literal is a number word that has the literal as its value,
bit for bit. -/
theorem numeral_chars {x : Binary64} (hx : x.isFinite) :
    ∃ d, Decimal.Numeral x.chars d ∧ d.toBinary64 = x := by
  obtain ⟨whole, fraction, hw, hne, hf, hc, hm⟩ := chars_of_isFinite hx
  refine ⟨_, hc ▸ Decimal.numeral_digits hw hne hf x.isNegative, ?_⟩
  rw [Decimal.toBinary64, hm, ofMagnitude_magnitude]

end Binary64

end BlockCalculus
