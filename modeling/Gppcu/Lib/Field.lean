import Mathlib.Data.Nat.Basic
import Mathlib.Algebra.Order.Ring.Nat

/-!
# Bit fields of a word

A word is packed from fields by shifts and ors. `extractLsb' lo len` reads the
field of `len` bits at `lo`, and a number added at `lo` stays in that field as
long as the field has room for it.
-/

namespace Lib

variable {n : Nat}

/-! ## Packing -/

theorem getLsbD_of_small {x : BitVec n} {len i : Nat} (hx : x.toNat < 2 ^ len) (hi : len ≤ i) :
    x.getLsbD i = false := by
  rw [← BitVec.testBit_toNat]
  exact Nat.testBit_lt_two_pow (Nat.lt_of_lt_of_le hx (Nat.pow_le_pow_right (by omega) hi))

theorem extract_shiftLeft_self {x : BitVec n} {lo len : Nat} (hn : lo + len ≤ n) :
    (x <<< lo).extractLsb' lo len = x.setWidth len := by
  apply BitVec.eq_of_getLsbD_eq
  intro i hi
  have h1 : lo + i < n := by omega
  rw [BitVec.getLsbD_extractLsb', BitVec.getLsbD_shiftLeft, BitVec.getLsbD_setWidth]
  simp [hi, h1]

theorem extract_shiftLeft_other {x : BitVec n} {lo len lo' len' : Nat} (hx : x.toNat < 2 ^ len)
    (hd : lo' + len' ≤ lo ∨ lo + len ≤ lo') : (x <<< lo).extractLsb' lo' len' = 0 := by
  apply BitVec.eq_of_getLsbD_eq
  intro i hi
  rw [BitVec.getLsbD_extractLsb', BitVec.getLsbD_shiftLeft]
  rcases hd with hd | hd
  · have h1 : lo' + i < lo := by omega
    simp [h1]
  · rw [getLsbD_of_small hx (by omega : len ≤ lo' + i - lo)]
    simp

theorem extract_self {x : BitVec n} {len : Nat} : x.extractLsb' 0 len = x.setWidth len := by
  apply BitVec.eq_of_getLsbD_eq
  intro i hi
  simp [hi]

theorem extract_of_small {x : BitVec n} {len lo' len' : Nat} (hx : x.toNat < 2 ^ len)
    (hd : len ≤ lo') : x.extractLsb' lo' len' = 0 := by
  apply BitVec.eq_of_getLsbD_eq
  intro i hi
  rw [BitVec.getLsbD_extractLsb', getLsbD_of_small hx (by omega)]
  simp

theorem getLsbD_eq_extract (x : BitVec n) (i : Nat) : x.getLsbD i = (x.extractLsb' i 1).getLsbD 0 := by
  simp

/-! ## Adding to a field -/

theorem add_lt_of_field {x c lo len n : Nat} (hx : x < 2 ^ n) (hn : lo + len ≤ n)
    (h : x / 2 ^ lo % 2 ^ len + c < 2 ^ len) : x + c * 2 ^ lo < 2 ^ n := by
  have hsplit : 2 ^ n = 2 ^ lo * 2 ^ len * 2 ^ (n - lo - len) := by
    rw [← Nat.pow_add, ← Nat.pow_add]
    congr 1
    omega
  have hlo := Nat.div_add_mod x (2 ^ lo)
  have hhi := Nat.div_add_mod (x / 2 ^ lo) (2 ^ len)
  have hrem := Nat.mod_lt x (Nat.two_pow_pos lo)
  have hquot : x / 2 ^ lo / 2 ^ len < 2 ^ (n - lo - len) := by
    rw [Nat.div_div_eq_div_mul, Nat.div_lt_iff_lt_mul (Nat.mul_pos (Nat.two_pow_pos _) (Nat.two_pow_pos _))]
    calc x < 2 ^ n := hx
      _ = 2 ^ (n - lo - len) * (2 ^ lo * 2 ^ len) := by rw [hsplit, Nat.mul_comm]
  have hfield : x / 2 ^ lo + c < 2 ^ len * 2 ^ (n - lo - len) := by
    calc x / 2 ^ lo + c = 2 ^ len * (x / 2 ^ lo / 2 ^ len) + (x / 2 ^ lo % 2 ^ len + c) := by omega
      _ < 2 ^ len * (x / 2 ^ lo / 2 ^ len) + 2 ^ len := by omega
      _ = 2 ^ len * (x / 2 ^ lo / 2 ^ len + 1) := by rw [Nat.mul_succ]
      _ ≤ 2 ^ len * 2 ^ (n - lo - len) := Nat.mul_le_mul_left _ hquot
  calc x + c * 2 ^ lo = 2 ^ lo * (x / 2 ^ lo + c) + x % 2 ^ lo := by
        rw [Nat.mul_add, Nat.mul_comm c]
        omega
    _ < 2 ^ lo * (x / 2 ^ lo + c) + 2 ^ lo := by omega
    _ = 2 ^ lo * (x / 2 ^ lo + c + 1) := by rw [Nat.mul_succ]
    _ ≤ 2 ^ lo * (2 ^ len * 2 ^ (n - lo - len)) := Nat.mul_le_mul_left _ hfield
    _ = 2 ^ n := by rw [hsplit, Nat.mul_assoc]

variable {x c : BitVec n} {lo len : Nat}

def Fits (x c : BitVec n) (lo len : Nat) : Prop :=
  lo + len ≤ n ∧ (x.extractLsb' lo len).toNat + c.toNat < 2 ^ len

theorem Fits.toNat_add (h : Fits x c lo len) : (x + c <<< lo).toNat = x.toNat + c.toNat * 2 ^ lo := by
  obtain ⟨hn, hf⟩ := h
  rw [BitVec.extractLsb'_toNat, Nat.shiftRight_eq_div_pow] at hf
  have hlt := add_lt_of_field x.isLt hn hf
  rw [BitVec.toNat_add, BitVec.toNat_shiftLeft, Nat.shiftLeft_eq, Nat.add_mod_mod, Nat.mod_eq_of_lt hlt]

theorem Fits.extract_self (h : Fits x c lo len) :
    ((x + c <<< lo).extractLsb' lo len).toNat = (x.extractLsb' lo len).toNat + c.toNat := by
  have hf := h.2
  rw [BitVec.extractLsb'_toNat, Nat.shiftRight_eq_div_pow] at hf
  rw [BitVec.extractLsb'_toNat, BitVec.extractLsb'_toNat, h.toNat_add, Nat.shiftRight_eq_div_pow,
    Nat.shiftRight_eq_div_pow, Nat.add_mul_div_right _ _ (Nat.two_pow_pos lo), Nat.add_mod,
    Nat.mod_eq_of_lt (a := c.toNat) (by omega), Nat.mod_eq_of_lt hf]

theorem Fits.extract_other (h : Fits x c lo len) {lo' len' : Nat}
    (hd : lo' + len' ≤ lo ∨ lo + len ≤ lo') :
    (x + c <<< lo).extractLsb' lo' len' = x.extractLsb' lo' len' := by
  apply BitVec.eq_of_toNat_eq
  have hf := h.2
  rw [BitVec.extractLsb'_toNat, Nat.shiftRight_eq_div_pow] at hf
  rw [BitVec.extractLsb'_toNat, BitVec.extractLsb'_toNat, h.toNat_add, Nat.shiftRight_eq_div_pow,
    Nat.shiftRight_eq_div_pow]
  rcases hd with hd | hd
  · have hpow : 2 ^ lo = 2 ^ (lo - lo' - len') * 2 ^ len' * 2 ^ lo' := by
      rw [← Nat.pow_add, ← Nat.pow_add]
      congr 1
      omega
    rw [hpow, ← Nat.mul_assoc, Nat.add_mul_div_right _ _ (Nat.two_pow_pos lo'), ← Nat.mul_assoc,
      Nat.add_mul_mod_self_right]
  · have hpow : 2 ^ lo' = 2 ^ lo * (2 ^ len * 2 ^ (lo' - lo - len)) := by
      rw [← Nat.pow_add, ← Nat.pow_add]
      congr 1
      omega
    have hquot : (x.toNat / 2 ^ lo + c.toNat) / 2 ^ len = x.toNat / 2 ^ lo / 2 ^ len := by
      have hdm := Nat.div_add_mod (x.toNat / 2 ^ lo) (2 ^ len)
      rw [show x.toNat / 2 ^ lo + c.toNat = (x.toNat / 2 ^ lo % 2 ^ len + c.toNat) +
        2 ^ len * (x.toNat / 2 ^ lo / 2 ^ len) by omega, Nat.add_mul_div_left _ _ (Nat.two_pow_pos len),
        Nat.div_eq_of_lt hf, Nat.zero_add]
    rw [hpow, ← Nat.div_div_eq_div_mul, Nat.add_mul_div_right _ _ (Nat.two_pow_pos lo),
      ← Nat.div_div_eq_div_mul, hquot, Nat.div_div_eq_div_mul, Nat.div_div_eq_div_mul]

theorem Fits.getLsbD_other (h : Fits x c lo len) {i : Nat} (hd : i + 1 ≤ lo ∨ lo + len ≤ i) :
    (x + c <<< lo).getLsbD i = x.getLsbD i := by
  rw [getLsbD_eq_extract, h.extract_other hd, ← getLsbD_eq_extract]

end Lib
