import TransactionalMemory.Calls

/-! # Transaction identity

The counter of `tm_begin` wraps at 32 bits and widens with its sign, so that from its
2147483648th value on it sets the read-only flag by itself. -/
namespace TransactionIds

open ControlWord
open Calls

def invalidTx : Tx := BitVec.allOnes 64

/-- `trans_counter` after `n` calls of `tm_begin`. -/
def transCounter : ℕ → BitVec 32
  | 0 => 1
  | n + 1 => transCounter n + 1

/-- The id returned by `tm_begin` when `n` calls came before it. -/
def beginId (n : ℕ) (isRo : Bool) : Tx := txId (transCounter n) isRo

/-- The id of the next `tm_begin`, after calls with the arguments `earlier` of which those
in `running` have not ended. -/
structure Identified (earlier : List Bool) (running : Set ℕ) (isRo : Bool) : Prop where
  mode : isTxReadonly (beginId earlier.length isRo) = isRo
  somebody : beginId earlier.length isRo ≠ 0#64
  valid : beginId earlier.length isRo ≠ invalidTx
  distinct : ∀ i ∈ running, ∀ ro, earlier[i]? = some ro →
    beginId earlier.length isRo ≠ beginId i ro

def counterValue (n : ℕ) : ℕ := (n + 1) % 2 ^ 32

/-- The counter is positive as an int, or the flag is wanted and the counter is not -1; and
no running transaction has the same counter, unless only one of the two has the flag. -/
structure Separated (earlier : List Bool) (running : Set ℕ) (isRo : Bool) : Prop where
  counter : if isRo then counterValue earlier.length ≠ 2 ^ 32 - 1
    else 0 < counterValue earlier.length ∧ counterValue earlier.length < 2 ^ 31
  unshared : ∀ i ∈ running, ∀ ro, earlier[i]? = some ro →
    counterValue i = counterValue earlier.length →
      ro ≠ isRo ∧ counterValue earlier.length < 2 ^ 31

theorem transCounter_toNat (n : ℕ) : (transCounter n).toNat = counterValue n := by
  induction n with
  | zero => rfl
  | succ n ih =>
    rw [transCounter, BitVec.toNat_add, ih]
    have : (1 : BitVec 32).toNat = 1 := rfl
    unfold counterValue
    omega

/-- A negative counter widens to an id with the top bit set, wanted or not. -/
theorem txId_toNat_negative {c : BitVec 32} (h : 2 ^ 31 ≤ c.toNat) (isRo : Bool) :
    (txId c isRo).toNat = 2 ^ 64 - 2 ^ 32 + c.toNat := by
  have hm : c.msb = true := by
    rw [BitVec.msb_eq_true_iff_two_mul_ge]
    omega
  have hlt := c.isLt
  have hs : (c.signExtend 64).toNat = 2 ^ 64 - 2 ^ 32 + c.toNat := by
    rw [BitVec.toNat_signExtend, hm, BitVec.toNat_setWidth, if_pos rfl]
    omega
  cases isRo with
  | false => simpa [txId] using hs
  | true =>
    have hr : readOnlyTx.toNat = 2 ^ 63 := by decide
    -- the flag is among the bits of the sign already
    have hor : (2 ^ 64 - 2 ^ 32 + c.toNat) ||| 2 ^ 63 = 2 ^ 64 - 2 ^ 32 + c.toNat := by
      have hlow : 2 ^ 64 - 2 ^ 32 + c.toNat - 2 ^ 63 < 2 ^ 63 := by omega
      have hadd := Nat.two_pow_add_eq_or_of_lt hlow 1
      have hsplit : 2 ^ 64 - 2 ^ 32 + c.toNat =
          2 ^ 63 * 1 + (2 ^ 64 - 2 ^ 32 + c.toNat - 2 ^ 63) := by omega
      rw [hsplit, hadd, Nat.or_right_comm, Nat.mul_one, Nat.or_self]
    simp only [txId, if_true, BitVec.toNat_or, hs, hr, hor]

theorem beginId_toNat (n : ℕ) (isRo : Bool) : (beginId n isRo).toNat =
    if counterValue n < 2 ^ 31 then counterValue n + (if isRo then 2 ^ 63 else 0)
    else 2 ^ 64 - 2 ^ 32 + counterValue n := by
  have hc := transCounter_toNat n
  rw [beginId, ← hc]
  by_cases h : (transCounter n).toNat < 2 ^ 31
  · rw [if_pos h, txId_toNat h]
  · rw [if_neg h, txId_toNat_negative (by omega)]

theorem counterValue_lt (n : ℕ) : counterValue n < 2 ^ 32 := Nat.mod_lt _ (by decide)

theorem beginId_readonly (n : ℕ) (isRo : Bool) :
    isTxReadonly (beginId n isRo) = true ↔ isRo = true ∨ 2 ^ 31 ≤ counterValue n := by
  have := counterValue_lt n
  rw [isTxReadonly_iff, beginId_toNat]
  cases isRo with
  | true =>
    simp only [if_true, true_or, iff_true]
    split_ifs <;> omega
  | false =>
    simp only [Bool.false_eq_true, if_false, false_or]
    split_ifs <;> omega

theorem beginId_eq_iff (n m : ℕ) (isRo ro : Bool) : beginId n isRo = beginId m ro ↔
    counterValue m = counterValue n ∧ (ro = isRo ∨ 2 ^ 31 ≤ counterValue n) := by
  have hn := counterValue_lt n
  have hm := counterValue_lt m
  rw [← BitVec.toNat_inj, beginId_toNat, beginId_toNat]
  cases isRo <;> cases ro <;>
    simp only [if_true, if_false, Bool.false_eq_true, reduceCtorEq, true_or, false_or, and_true] <;>
    split_ifs <;> omega

theorem beginId_eq_zero (n : ℕ) (isRo : Bool) :
    beginId n isRo = 0#64 ↔ isRo = false ∧ counterValue n = 0 := by
  have := counterValue_lt n
  have h0 : (0#64 : Tx).toNat = 0 := rfl
  rw [← BitVec.toNat_inj, beginId_toNat, h0]
  cases isRo with
  | true =>
    simp only [if_true, reduceCtorEq, false_and, iff_false]
    by_cases h : counterValue n < 2 ^ 31
    · rw [if_pos h]
      omega
    · rw [if_neg h]
      omega
  | false =>
    simp only [Bool.false_eq_true, if_false, true_and]
    split_ifs <;> omega

theorem beginId_eq_invalid (n : ℕ) (isRo : Bool) :
    beginId n isRo = invalidTx ↔ counterValue n = 2 ^ 32 - 1 := by
  have := counterValue_lt n
  have hi : invalidTx.toNat = 2 ^ 64 - 1 := by decide
  rw [← BitVec.toNat_inj, beginId_toNat, hi]
  split_ifs <;> omega

/-- The id tells the mode and is neither of the reserved values. -/
theorem beginId_sound_iff (n : ℕ) (isRo : Bool) :
    (isTxReadonly (beginId n isRo) = isRo ∧ beginId n isRo ≠ 0#64 ∧
      beginId n isRo ≠ invalidTx) ↔
    if isRo then counterValue n ≠ 2 ^ 32 - 1
    else 0 < counterValue n ∧ counterValue n < 2 ^ 31 := by
  have hlt := counterValue_lt n
  have hmode := beginId_readonly n isRo
  rw [Ne, beginId_eq_zero, Ne, beginId_eq_invalid]
  cases isRo with
  | true => simp [hmode]
  | false =>
    rw [Bool.eq_false_iff, Ne, hmode]
    simp only [Bool.false_eq_true, false_or, true_and, if_false]
    omega

theorem distinct_iff (earlier : List Bool) (running : Set ℕ) (isRo : Bool) :
    (∀ i ∈ running, ∀ ro, earlier[i]? = some ro →
      beginId earlier.length isRo ≠ beginId i ro) ↔
    ∀ i ∈ running, ∀ ro, earlier[i]? = some ro →
      counterValue i = counterValue earlier.length →
        ro ≠ isRo ∧ counterValue earlier.length < 2 ^ 31 := by
  refine forall₄_congr fun i _ ro _ => ?_
  rw [Ne, beginId_eq_iff, not_and, not_or, not_le]

/-- `tm_begin` identifies a transaction exactly when the counter has not run into its sign,
or the flag hides it, and it has not come round to a transaction still running. -/
theorem transaction_identity (earlier : List Bool) (running : Set ℕ) (isRo : Bool) :
    Identified earlier running isRo ↔ Separated earlier running isRo := by
  have own := beginId_sound_iff earlier.length isRo
  have others := distinct_iff earlier running isRo
  constructor
  · rintro ⟨mode, somebody, valid, distinct⟩
    exact ⟨own.mp ⟨mode, somebody, valid⟩, others.mp distinct⟩
  · rintro ⟨counter, unshared⟩
    obtain ⟨mode, somebody, valid⟩ := own.mpr counter
    exact ⟨mode, somebody, valid, others.mpr unshared⟩

/-- The 2147483648th transaction is read-write and carries the flag of a reader. -/
theorem writer_taken_for_reader :
    ¬ Identified (List.replicate (2 ^ 31 - 1) false) ∅ false := by
  intro h
  have hmode := h.mode
  rw [List.length_replicate, Bool.eq_false_iff, Ne, beginId_readonly] at hmode
  exact hmode (.inr (by decide))

end TransactionIds
