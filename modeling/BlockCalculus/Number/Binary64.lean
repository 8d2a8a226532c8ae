/-! Binary floating-point literals by their 64 bits: a sign, an exponent of
eleven bits and a fraction of fifty-two. Bits below the sign order the finite
values, so rounding to the nearest value is rounding of a quotient. -/

namespace BlockCalculus

structure Binary64 where
  bits : UInt64
  deriving DecidableEq, Repr, Inhabited

namespace Binary64

/-- The bits below the sign. -/
def magnitude (x : Binary64) : Nat :=
  x.bits.toNat % Nat.pow 2 63

def isNegative (x : Binary64) : Bool :=
  Nat.pow 2 63 ≤ x.bits.toNat

def ofMagnitude (negative : Bool) (magnitude : Nat) : Binary64 :=
  ⟨UInt64.ofNat ((if negative then Nat.pow 2 63 else 0) + magnitude)⟩

/-- The magnitude of the infinities; those of the NaNs lie above it. -/
def infinity : Nat := 2047 * Nat.pow 2 52

def isFinite (x : Binary64) : Bool :=
  x.magnitude < infinity

def isNaN (x : Binary64) : Bool :=
  infinity < x.magnitude

/-- Equality of values: a NaN equals nothing and the two zeros are equal. -/
def sameValue (x y : Binary64) : Bool :=
  !x.isNaN && !y.isNaN && (x == y || x.magnitude == 0 && y.magnitude == 0)

/-- The absolute value of a finite literal, counted in the smallest positive
value, which is `2 ^ -1074`. -/
def unitsOf (magnitude : Nat) : Nat :=
  let unit := Nat.pow 2 52
  if magnitude < unit then magnitude
  else (unit + magnitude % unit) * Nat.pow 2 (magnitude / unit - 1)

/-- The natural number nearest to a quotient; a half goes to the even one. -/
def roundDiv (num den : Nat) : Nat :=
  let low := num / den
  let rest := num % den
  if den < 2 * rest ∨ 2 * rest = den ∧ low % 2 = 1 then low + 1 else low

/-- The magnitude of the value nearest to `num / den` units. A carry out of
the fraction moves on to the next exponent, and above the largest finite value
the result is infinite. -/
def nearest (num den : Nat) : Nat :=
  let shift := (num / den).log2 - 52
  min infinity (shift * Nat.pow 2 52 + roundDiv num (den * Nat.pow 2 shift))

theorem ofMagnitude_magnitude (x : Binary64) :
    ofMagnitude x.isNegative x.magnitude = x := by
  obtain ⟨b⟩ := x
  have hb : b.toNat < 2 ^ 64 := UInt64.toNat_lt b
  have hp : Nat.pow 2 63 = 2 ^ 63 := rfl
  simp only [ofMagnitude, isNegative, magnitude, Binary64.mk.injEq, hp]
  apply UInt64.toNat_inj.mp
  by_cases h : 2 ^ 63 ≤ b.toNat
  · simp only [h, decide_true, if_true, UInt64.toNat_ofNat']
    omega
  · simp only [h, decide_false, Bool.false_eq_true, if_false, UInt64.toNat_ofNat']
    omega

end Binary64

end BlockCalculus
