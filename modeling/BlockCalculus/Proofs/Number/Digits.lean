import BlockCalculus.Number.Decimal
import Mathlib.Tactic.IntervalCases
import Mathlib.Tactic.Ring

/-! Digits in positional notation read back as the number that they were made from, with
the places behind the point counted. -/

namespace BlockCalculus.Decimal

def step (n : Nat) (c : Char) : Nat :=
  10 * n + (c.toNat - 48)

theorem isDigit_digitChar {n : Nat} (h : n < 10) : isDigit (digitChar n) = true := by
  interval_cases n <;> rfl

theorem toNat_digitChar {n : Nat} (h : n < 10) : (digitChar n).toNat - 48 = n := by
  interval_cases n <;> rfl

theorem digitsBefore_of_lt {n : Nat} (h : n < 10) (rest : List Char) :
    digitsBefore n rest = digitChar n :: rest := by
  rw [digitsBefore, if_pos h]

theorem digitsBefore_of_le {n : Nat} (h : 10 ≤ n) (rest : List Char) :
    digitsBefore n rest = digitsBefore (n / 10) (digitChar (n % 10) :: rest) := by
  rw [digitsBefore, if_neg (by omega)]

theorem foldl_digitsBefore (n : Nat) (rest : List Char) :
    (digitsBefore n rest).foldl step 0 = rest.foldl step n := by
  induction n using Nat.strong_induction_on generalizing rest with
  | _ n ih =>
    by_cases h : n < 10
    · rw [digitsBefore_of_lt h, List.foldl_cons, step, toNat_digitChar h, Nat.mul_zero, Nat.zero_add]
    · have hd : step (n / 10) (digitChar (n % 10)) = n := by
        rw [step, toNat_digitChar (Nat.mod_lt n (by omega))]
        omega
      rw [digitsBefore_of_le (by omega), ih (n / 10) (by omega), List.foldl_cons, hd]

theorem all_digitsBefore (n : Nat) {rest : List Char} (hr : rest.all isDigit) :
    (digitsBefore n rest).all isDigit := by
  induction n using Nat.strong_induction_on generalizing rest with
  | _ n ih =>
    by_cases h : n < 10
    · rw [digitsBefore_of_lt h]
      simp [isDigit_digitChar h, hr]
    · rw [digitsBefore_of_le (by omega)]
      refine ih (n / 10) (by omega) ?_
      simp [isDigit_digitChar (Nat.mod_lt n (by omega)), hr]

theorem digitsBefore_ne_nil (n : Nat) (rest : List Char) : digitsBefore n rest ≠ [] := by
  induction n using Nat.strong_induction_on generalizing rest with
  | _ n ih =>
    by_cases h : n < 10
    · rw [digitsBefore_of_lt h]
      exact List.cons_ne_nil _ _
    · rw [digitsBefore_of_le (by omega)]
      exact ih (n / 10) (by omega) _

theorem fractionDigits_succ (places c : Nat) :
    positional.fractionDigits (places + 1) c =
      digitChar (c / 10 ^ places % 10) :: positional.fractionDigits places c := by
  simp only [positional.fractionDigits, List.range_succ_eq_map, List.map_cons, List.map_map]
  congr 1
  apply List.map_congr_left
  intro i _
  have hi : places + 1 - 1 - (i + 1) = places - 1 - i := by omega
  simp only [Function.comp_apply, Nat.succ_eq_add_one, hi]

theorem foldl_fractionDigits (places c n : Nat) :
    (positional.fractionDigits places c).foldl step n = n * 10 ^ places + c % 10 ^ places := by
  induction places generalizing n with
  | zero => simp [positional.fractionDigits, Nat.mod_one]
  | succ places ih =>
    rw [fractionDigits_succ, List.foldl_cons, ih, step, toNat_digitChar (Nat.mod_lt _ (by omega)),
      Nat.mod_pow_succ]
    ring

theorem length_fractionDigits (places c : Nat) :
    (positional.fractionDigits places c).length = places := by
  simp [positional.fractionDigits]

theorem all_fractionDigits (places c : Nat) :
    (positional.fractionDigits places c).all isDigit := by
  simp only [positional.fractionDigits, List.all_map, List.all_eq_true]
  intro i _
  exact isDigit_digitChar (Nat.mod_lt _ (by omega))

theorem trimmed_spec (c places : Nat) :
    (trimmed c places).2 ≤ places ∧
      c = (trimmed c places).1 * 10 ^ (places - (trimmed c places).2) := by
  induction places generalizing c with
  | zero => simp [trimmed]
  | succ places ih =>
    rw [trimmed]
    split
    · rename_i hc
      obtain ⟨hle, he⟩ := ih (c / 10)
      refine ⟨by omega, ?_⟩
      have hp : places + 1 - (trimmed (c / 10) places).2 = places - (trimmed (c / 10) places).2 + 1 := by
        omega
      rw [hp, pow_succ, ← mul_assoc, ← he]
      omega
    · simp

def point : List Char → List Char
  | [] => []
  | fraction => '.' :: fraction

theorem positional_eq (c places : Nat) :
    positional c places =
      digits ((trimmed c places).1 / 10 ^ (trimmed c places).2) ++
        point (positional.fractionDigits (trimmed c places).2 (trimmed c places).1) := by
  unfold positional
  obtain ⟨n, p⟩ := trimmed c places
  cases p with
  | zero => simp [positional.fractionDigits, point]
  | succ p => simp [fractionDigits_succ, point]

theorem ofDigits_positional (n places : Nat) :
    ofDigits (digits (n / 10 ^ places) ++ positional.fractionDigits places n) = n := by
  change List.foldl step 0 _ = n
  rw [List.foldl_append, digits, foldl_digitsBefore, List.foldl_nil, foldl_fractionDigits,
    Nat.div_add_mod']

end BlockCalculus.Decimal
