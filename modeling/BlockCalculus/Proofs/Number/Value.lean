import BlockCalculus.Proofs.Number.Shortest

/-! What number a literal stands for. Literals are equal as values when they
stand for the same number, which tells only the two zeros apart from their
bits. -/

namespace BlockCalculus.Binary64

/-- A number in units of the smallest positive one, or an infinity. -/
inductive Value where
  | finite (units : Int)
  | infinite (negative : Bool)
  deriving DecidableEq

/-- The number that a literal stands for; a NaN stands for none. -/
def value? (x : Binary64) : Option Value :=
  if x.isNaN then none
  else if x.isFinite then
    some (.finite (if x.isNegative then -(unitsOf x.magnitude : Int) else unitsOf x.magnitude))
  else some (.infinite x.isNegative)

theorem value?_eq_none_iff {x : Binary64} : x.value? = none ↔ x.isNaN := by
  unfold value?
  split
  · simp_all
  · split <;> simp_all

theorem unitsOf_inj {m n : Nat} (hm : m < infinity) (hn : n < infinity)
    (h : unitsOf m = unitsOf n) : m = n := by
  rw [← nearest_unitsOf hm, h, nearest_unitsOf hn]

theorem unitsOf_eq_zero_iff {m : Nat} (hm : m < infinity) : unitsOf m = 0 ↔ m = 0 := by
  constructor
  · exact fun h => unitsOf_inj hm (by decide) h
  · rintro rfl
    rfl

theorem eq_of_magnitude_eq {x y : Binary64} (hs : x.isNegative = y.isNegative)
    (hm : x.magnitude = y.magnitude) : x = y := by
  rw [← ofMagnitude_magnitude x, hs, hm, ofMagnitude_magnitude]

theorem magnitude_of_infinite {x : Binary64} (hn : ¬x.isNaN) (hf : ¬x.isFinite) :
    x.magnitude = infinity := by
  simp only [isNaN, isFinite, decide_eq_true_eq] at hn hf
  omega

theorem value?_of_zero {x : Binary64} (h : x.magnitude = 0) : x.value? = some (.finite 0) := by
  have hn : x.isNaN = false := by
    rw [isNaN, h]
    rfl
  have hf : x.isFinite = true := by
    rw [isFinite, h]
    rfl
  have hu : unitsOf 0 = 0 := rfl
  simp [value?, hn, hf, h, hu]

/-- Literals that stand for the same number differ at most in the sign of a zero. -/
theorem eq_or_zero_of_value? {x y : Binary64} {v : Value} (hx : x.value? = some v)
    (hy : y.value? = some v) : x = y ∨ x.magnitude = 0 ∧ y.magnitude = 0 := by
  have hnx : ¬x.isNaN := fun h => by simp [value?_eq_none_iff.mpr h] at hx
  have hny : ¬y.isNaN := fun h => by simp [value?_eq_none_iff.mpr h] at hy
  simp only [value?, if_neg hnx] at hx
  simp only [value?, if_neg hny] at hy
  by_cases hfx : x.isFinite
  · rw [if_pos hfx] at hx
    cases hx
    by_cases hfy : y.isFinite
    · rw [if_pos hfy, Option.some.injEq, Value.finite.injEq] at hy
      have hmx : x.magnitude < infinity := of_decide_eq_true hfx
      have hmy : y.magnitude < infinity := of_decide_eq_true hfy
      by_cases hs : x.isNegative = y.isNegative
      · left
        refine eq_of_magnitude_eq hs (unitsOf_inj hmx hmy ?_)
        rw [hs] at hy
        split at hy <;> omega
      · -- Numbers of opposite signs agree at zero only.
        right
        rw [← unitsOf_eq_zero_iff hmx, ← unitsOf_eq_zero_iff hmy]
        cases hxs : x.isNegative <;> cases hys : y.isNegative <;> simp_all
    · rw [if_neg hfy] at hy
      cases hy
  · rw [if_neg hfx] at hx
    cases hx
    by_cases hfy : y.isFinite
    · rw [if_pos hfy] at hy
      cases hy
    · rw [if_neg hfy, Option.some.injEq, Value.infinite.injEq] at hy
      left
      apply eq_of_magnitude_eq hy.symm
      rw [magnitude_of_infinite hnx hfx, magnitude_of_infinite hny hfy]

theorem sameValue_iff {x y : Binary64} :
    x.sameValue y ↔ ∃ v, x.value? = some v ∧ y.value? = some v := by
  have hsame : x.sameValue y ↔
      ¬x.isNaN ∧ ¬y.isNaN ∧ (x = y ∨ x.magnitude = 0 ∧ y.magnitude = 0) := by
    simp [sameValue, and_assoc]
  rw [hsame]
  constructor
  · rintro ⟨hx, -, rfl | ⟨hzx, hzy⟩⟩
    · rw [← value?_eq_none_iff] at hx
      obtain ⟨v, hv⟩ := Option.ne_none_iff_exists'.mp hx
      exact ⟨v, hv, hv⟩
    · exact ⟨.finite 0, value?_of_zero hzx, value?_of_zero hzy⟩
  · rintro ⟨v, hx, hy⟩
    refine ⟨?_, ?_, eq_or_zero_of_value? hx hy⟩
    · rw [← value?_eq_none_iff, hx]
      exact Option.some_ne_none v
    · rw [← value?_eq_none_iff, hy]
      exact Option.some_ne_none v

def positiveZero : Binary64 := ⟨0⟩

def negativeZero : Binary64 := ⟨0x8000000000000000⟩

/-- The literal with the negative zero turned into the positive one. -/
def plainZero (x : Binary64) : Binary64 :=
  if x = negativeZero then positiveZero else x

theorem value?_plainZero (x : Binary64) : x.plainZero.value? = x.value? := by
  by_cases h : x = negativeZero
  · rw [plainZero, if_pos h, h, value?_of_zero (by decide), value?_of_zero (by decide)]
  · rw [plainZero, if_neg h]

theorem plainZero_of_zero {x : Binary64} (h : x.magnitude = 0) : x.plainZero = positiveZero := by
  unfold plainZero
  split
  · rfl
  · rename_i hne
    refine eq_of_magnitude_eq ?_ h
    have hs : x.isNegative ≠ negativeZero.isNegative := fun hs => hne (eq_of_magnitude_eq hs h)
    revert hs
    cases x.isNegative <;> decide

theorem plainZero_congr {x y : Binary64} {v : Value} (hx : x.value? = some v)
    (hy : y.value? = some v) : x.plainZero = y.plainZero := by
  rcases eq_or_zero_of_value? hx hy with rfl | ⟨hzx, hzy⟩
  · rfl
  · rw [plainZero_of_zero hzx, plainZero_of_zero hzy]

end BlockCalculus.Binary64
