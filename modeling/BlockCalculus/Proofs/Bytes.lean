import BlockCalculus.Bytes
import Mathlib.Tactic.Linarith
import Mathlib.Tactic.Ring

/-! Big-endian numbers and their bytes determine each other at a fixed width. -/

namespace BlockCalculus.Bytes

theorem foldl_toNat (bytes : Bytes) (n : Nat) :
    bytes.foldl (fun n b => 256 * n + b.toNat) n = n * 256 ^ bytes.length + bytes.toNat := by
  unfold toNat
  induction bytes generalizing n with
  | nil => simp
  | cons b bytes ih =>
    rw [List.foldl_cons, List.foldl_cons, ih, ih (256 * 0 + b.toNat), List.length_cons]
    ring

theorem toNat_cons (b : UInt8) (bytes : Bytes) :
    toNat (b :: bytes) = b.toNat * 256 ^ bytes.length + toNat bytes := by
  rw [toNat, List.foldl_cons, foldl_toNat]
  simp

theorem toNat_lt (bytes : Bytes) : bytes.toNat < 256 ^ bytes.length := by
  induction bytes with
  | nil => simp [toNat]
  | cons b bytes ih =>
    have hb : b.toNat + 1 ≤ 256 := b.toNat_lt
    have hm := Nat.mul_le_mul_right (256 ^ bytes.length) hb
    rw [toNat_cons, List.length_cons, pow_succ']
    linarith

theorem toNat_ofNat (width n : Nat) : toNat (ofNat width n) = n % 256 ^ width := by
  induction width with
  | zero => simp [ofNat, toNat, Nat.mod_one]
  | succ width ih =>
    have hp : Nat.pow 256 width = 256 ^ width := rfl
    rw [ofNat, toNat_cons, ih, length_ofNat, UInt8.toNat_ofNat', hp, Nat.mod_pow_succ (b := 256),
      Nat.mul_comm, Nat.add_comm]

theorem eq_of_toNat_eq {a b : Bytes} (hl : a.length = b.length) (h : a.toNat = b.toNat) : a = b := by
  induction a generalizing b with
  | nil => exact (List.length_eq_zero_iff.mp hl.symm).symm
  | cons x a ih =>
    cases b with
    | nil => cases hl
    | cons y b =>
      have hl : a.length = b.length := Nat.succ.inj hl
      have ha := toNat_lt a
      have hb := toNat_lt b
      rw [toNat_cons, toNat_cons, hl] at h
      rw [hl] at ha
      have hpos : 0 < 256 ^ b.length := Nat.pow_pos (by omega)
      have hx : x.toNat = y.toNat := by
        have hd := congrArg (· / 256 ^ b.length) h
        simpa only [Nat.mul_comm, Nat.mul_add_div hpos, Nat.div_eq_of_lt ha, Nat.div_eq_of_lt hb,
          Nat.add_zero] using hd
      rw [UInt8.toNat_inj.mp hx, ih hl (by rw [hx] at h; omega)]

theorem ofNat_toNat {width : Nat} {bytes : Bytes} (h : bytes.length = width) :
    ofNat width bytes.toNat = bytes := by
  apply eq_of_toNat_eq (by rw [length_ofNat, h])
  rw [toNat_ofNat, ← h, Nat.mod_eq_of_lt (toNat_lt bytes)]

/-- Eight bytes are those of a 64-bit word. -/
theorem ofNat_toUInt64 {bytes : Bytes} (h : bytes.length = 8) :
    ofNat 8 (UInt64.ofNat bytes.toNat).toNat = bytes := by
  have hlt : bytes.toNat < 2 ^ 64 := (toNat_lt bytes).trans_eq (by rw [h]; rfl)
  rw [UInt64.toNat_ofNat', Nat.mod_eq_of_lt hlt, ofNat_toNat h]

end BlockCalculus.Bytes
