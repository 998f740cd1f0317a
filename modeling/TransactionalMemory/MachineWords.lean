import Mathlib.Algebra.Order.Ring.Nat
import Mathlib.Data.Nat.Size

/-! # Powers of two in machine words

Words of a fixed width: leading zeros, masks of low bits and tags of high bits, in terms of the
natural numbers that the words stand for. -/
namespace MachineWords

variable {w : ℕ}

theorem width_sub_clz (x : BitVec w) : w - x.clz.toNat = x.toNat.size := by
  apply Nat.le_antisymm
  · by_cases hx : x = 0#w
    · have hz : x.clz = BitVec.ofNat w w := BitVec.clz_eq_iff_eq_zero.mpr hx
      rw [hz, BitVec.toNat_ofNat, Nat.mod_eq_of_lt Nat.lt_two_pow_self, Nat.sub_self]
      exact Nat.zero_le _
    · have hw : 0 < w := Nat.pos_of_ne_zero fun he => hx (by subst he; exact BitVec.of_length_zero)
      have hlow := BitVec.two_pow_sub_clz_le_toNat_of_ne_zero hw hx
      have hlt := Nat.lt_size.mpr hlow
      omega
  · exact Nat.size_le.mpr BitVec.toNat_lt_two_pow_sub_clz

/-- The least power of two not below a number. -/
theorem size_pred_le {n k : ℕ} (hn : 0 < n) : (n - 1).size ≤ k ↔ n ≤ 2 ^ k := by
  rw [Nat.size_le]
  omega

theorem toNat_and_low {x m : BitVec w} {k : ℕ} (hm : m.toNat = 2 ^ k - 1) :
    (x &&& m).toNat = x.toNat % 2 ^ k := by
  rw [BitVec.toNat_and, hm, Nat.and_two_pow_sub_one_eq_mod]

theorem toNat_and_add_and_not (x m : BitVec w) :
    (x &&& m).toNat + (x &&& ~~~m).toNat = x.toNat := by
  have hdisjoint : (x &&& m) &&& (x &&& ~~~m) = 0#w := by
    ext i hi
    cases hx : x[i] <;> cases hm : m[i] <;> simp [hx, hm]
  have hjoin : (x &&& m) ||| (x &&& ~~~m) = x := by
    ext i hi
    cases hx : x[i] <;> cases hm : m[i] <;> simp [hx, hm]
  rw [← BitVec.toNat_add_of_and_eq_zero hdisjoint, BitVec.add_eq_or_of_and_eq_zero _ _ hdisjoint,
    hjoin]

theorem toNat_and_high {x m : BitVec w} {k : ℕ} (hm : m.toNat = 2 ^ k - 1) :
    (x &&& ~~~m).toNat = x.toNat - x.toNat % 2 ^ k := by
  have hsum := toNat_and_add_and_not x m
  rw [toNat_and_low hm] at hsum
  omega

/-- A tag above the bits of a word is added to it. -/
theorem toNat_or_tag {x y : BitVec w} {k : ℕ} (hx : x.toNat < 2 ^ k)
    (hy : y.toNat * 2 ^ k < 2 ^ w) : (x ||| y <<< k).toNat = x.toNat + y.toNat * 2 ^ k := by
  rw [BitVec.toNat_or, BitVec.toNat_shiftLeft, Nat.shiftLeft_eq, Nat.mod_eq_of_lt hy, Nat.or_comm,
    Nat.mul_comm, ← Nat.two_pow_add_eq_or_of_lt hx, Nat.add_comm]

theorem toNat_or_tag_mod {k : ℕ} (x y : BitVec w) (hk : k ≤ w) :
    (x ||| y <<< k).toNat % 2 ^ k = x.toNat % 2 ^ k := by
  have hlow : (y <<< k).toNat % 2 ^ k = 0 := by
    rw [BitVec.toNat_shiftLeft, Nat.mod_mod_of_dvd _ (Nat.pow_dvd_pow 2 hk), Nat.shiftLeft_eq,
      Nat.mul_mod_left]
  rw [BitVec.toNat_or, Nat.or_mod_two_pow, hlow, Nat.or_zero]

theorem sub_mod_of_dvd {b x n : ℕ} (hb : n ∣ b) (hx : b ≤ x) (hn : x < b + n) :
    x - x % n = b := by
  obtain ⟨d, rfl⟩ := Nat.exists_eq_add_of_le hx
  rw [Nat.add_mod, Nat.mod_eq_zero_of_dvd hb, Nat.zero_add, Nat.mod_mod,
    Nat.mod_eq_of_lt (by omega)]
  omega

end MachineWords
