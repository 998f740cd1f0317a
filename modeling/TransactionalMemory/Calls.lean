import Mathlib.Data.Nat.Bitwise
import TransactionalMemory.RegionState

/-! # The calls of the library, each run to its end

`tm_read`, `tm_write`, `tm_alloc`, `tm_free` and their loops as functions of the region.
A failing call rolls its transaction back and leaves the batcher before it returns. -/
namespace Calls

open BatcherState
open ControlWord
open RegionState

variable {W : Type*}

/-- `tm_begin`: the counter is an int and widens with its sign. -/
def txId (transCounter : BitVec 32) (isRo : Bool) : Tx :=
  let tx := transCounter.signExtend 64
  if isRo then tx ||| readOnlyTx else tx

/-- The loop of `_tm_read` over `n` words from word `k` on. -/
def markWords (tx : Tx) (seg : Segment W) (k : ℕ) : ℕ → Bool × Segment W
  | 0 => (true, seg)
  | n + 1 =>
    let c := canReadWord tx (seg.control k)
    let seg := { seg with control := Function.update seg.control k c.2 }
    if c.1 then markWords tx seg (k + 1) n else (false, seg)

/-- `_tm_read` -/
def readSegment (tx : Tx) (seg : Segment W) (k n : ℕ) : Bool × Segment W :=
  if seg.newlyAlloc ∧ seg.owner ≠ tx then (false, seg)
  else if isTxReadonly tx then (true, seg)
  else markWords tx seg k n

/-- The loop of `_tm_write`. -/
def storeWords (tx : Tx) (seg : Segment W) (k : ℕ) : List W → Bool × Segment W
  | [] => (true, seg)
  | v :: src =>
    let c := canWriteWord tx (seg.control k)
    let seg := { seg with control := Function.update seg.control k c.2 }
    if c.1 then storeWords tx { seg with write := Function.update seg.write k v } (k + 1) src
    else (false, seg)

/-- `_tm_write` -/
def writeSegment (tx : Tx) (seg : Segment W) (k : ℕ) (src : List W) : Bool × Segment W :=
  if seg.newlyAlloc ∧ seg.owner ≠ tx then (false, seg)
  else if k > seg.size then (false, seg)
  else storeWords tx seg k src

/-- The locked section of `rollback_transaction` on word `i`. -/
def restoreWord (tx : Tx) (seg : Segment W) (i : ℕ) : Segment W :=
  let c := rollbackWord tx (seg.control i)
  if c.1 then { seg with
    write := Function.update seg.write i (seg.read i)
    control := Function.update seg.control i c.2 }
  else seg

def rollbackSegment (tx : Tx) (seg : Segment W) : Segment W :=
  (List.range seg.size).foldl (restoreWord tx)
    (if seg.owner = tx then { seg with rollback := true } else seg)

def rollbackTransaction (r : Region W) (tx : Tx) : Region W :=
  (walk r.dirtySegLinks).foldl (fun r g => r.setSeg g (rollbackSegment tx (r.seg g))) r

/-- `memcpy` of `n` words of a copy. -/
def copyOut (copy : ℕ → W) (k n : ℕ) : List W := (List.range n).map fun j => copy (k + j)

/-- `none` is the return value `false`. -/
def tmRead (r : Region W) (tx : Tx) (g : SegId) (k n : ℕ) : Option (List W) × Region W :=
  let (res, seg) := readSegment tx (r.seg g) k n
  let r := r.setSeg g seg
  if res then
    if isTxReadonly tx then (some (copyOut seg.read k n), r)
    else (some (copyOut seg.write k n), moveToDirty r g)
  else (none, (rollbackTransaction r tx).leaveBatcher)

def tmWrite (r : Region W) (tx : Tx) (g : SegId) (k : ℕ) (src : List W) : Bool × Region W :=
  let (res, seg) := writeSegment tx (r.seg g) k src
  let r := r.setSeg g seg
  if res then (true, moveToDirty r g)
  else (false, (rollbackTransaction r tx).leaveBatcher)

/-- `tm_alloc` when `posix_memalign` succeeds; the segment is `r.nextSeg`. -/
def tmAlloc [Zero W] (r : Region W) (tx : Tx) (size : ℕ) : Region W :=
  { r.setSeg r.nextSeg (allocSegment size tx) with
    live := insert r.nextSeg r.live
    dirtySegLinks := linkInsert r.dirtySegLinks r.nextSeg
    nextSeg := r.nextSeg + 1 }

def tmFree (r : Region W) (tx : Tx) (g : SegId) : Region W :=
  moveToDirty (r.setSeg g { r.seg g with shouldFree := true, owner := tx }) g

/-! ### Handles -/

/-- Among the first `2 ^ 31 - 1` handles the low bits are the count. -/
theorem txId_toNat {c : BitVec 32} (h : c.toNat < 2 ^ 31) (isRo : Bool) :
    (txId c isRo).toNat = c.toNat + if isRo then 2 ^ 63 else 0 := by
  have hm : c.msb = false := by
    rw [BitVec.msb_eq_false_iff_two_mul_lt]
    omega
  have hs : (c.signExtend 64).toNat = c.toNat := by
    rw [BitVec.signExtend_eq_setWidth_of_msb_false hm, BitVec.toNat_setWidth]
    omega
  cases isRo with
  | false => simpa [txId] using hs
  | true =>
    have hr : readOnlyTx.toNat = 2 ^ 63 := by decide
    have hor : c.toNat ||| 2 ^ 63 = 2 ^ 63 + c.toNat := by
      rw [Nat.or_comm]
      simpa using (Nat.two_pow_add_eq_or_of_lt (i := 63) (b := c.toNat) (by omega) 1).symm
    simp only [txId, if_true, BitVec.toNat_or, hs, hr, hor]
    omega

theorem isTxReadonly_iff (tx : Tx) : isTxReadonly tx = true ↔ 2 ^ 63 ≤ tx.toNat := by
  have hr : readOnlyTx.toNat = 2 ^ 63 := by decide
  have hbit : (tx &&& readOnlyTx > 0) ↔ tx.toNat.testBit 63 = true := by
    rw [gt_iff_lt, BitVec.lt_def, BitVec.toNat_and, hr, Nat.and_two_pow]
    cases tx.toNat.testBit 63 <;> simp
  rw [isTxReadonly, decide_eq_true_eq, hbit, Nat.testBit_eq_decide_div_mod_eq,
    decide_eq_true_eq]
  have := tx.isLt
  omega

theorem txId_readonly {c : BitVec 32} (h : c.toNat < 2 ^ 31) (isRo : Bool) :
    isTxReadonly (txId c isRo) = isRo := by
  rw [Bool.eq_iff_iff, isTxReadonly_iff, txId_toNat h]
  cases isRo <;> simp
  omega

/-! ### What the loops do, word by word -/

/-- Word `i` is among the `m` words from `k` on. -/
def inRange (k m i : ℕ) : Bool := decide (k ≤ i) && decide (i < k + m)

theorem inRange_iff {k m i : ℕ} : inRange k m i = true ↔ k ≤ i ∧ i < k + m := by
  simp [inRange]

theorem not_inRange_zero (k i : ℕ) : inRange k 0 i = false := by
  rw [Bool.eq_false_iff, Ne, inRange_iff]
  omega

theorem forall_inRange_succ {P : ℕ → Prop} {k m : ℕ} (hk : P k)
    (hr : ∀ i, inRange (k + 1) m i = true → P i) (i : ℕ) (hi : inRange k (m + 1) i = true) :
    P i := by
  by_cases he : i = k
  · exact he ▸ hk
  · apply hr
    rw [inRange_iff] at hi ⊢
    omega

theorem update_range {α : Type*} (f : ℕ → α) (h : ℕ → α → α) (k m : ℕ) :
    (fun i => if inRange (k + 1) m i then h i (Function.update f k (h k (f k)) i)
      else Function.update f k (h k (f k)) i) =
    fun i => if inRange k (m + 1) i then h i (f i) else f i := by
  funext i
  by_cases hi : i = k
  · subst i
    have h1 : inRange (k + 1) m k = false := by simp [inRange]
    have h2 : inRange k (m + 1) k = true := by simp [inRange]
    simp [h1, h2]
  · have he : inRange (k + 1) m i = inRange k (m + 1) i := by
      rw [Bool.eq_iff_iff, inRange_iff, inRange_iff]
      omega
    simp [hi, he]

/-- The first `m` words were passed; `m` is all of them or the next one was refused. -/
theorem markWords_spec (tx : Tx) (n : ℕ) : ∀ (seg : Segment W) (k : ℕ), ∃ m ≤ n,
    (∀ i, inRange k m i = true → (canReadWord tx (seg.control i)).1 = true) ∧
    (markWords tx seg k n).2 = { seg with
      control := fun i =>
        if inRange k m i then (canReadWord tx (seg.control i)).2 else seg.control i } ∧
    ((markWords tx seg k n).1 = true → m = n) ∧
    ((markWords tx seg k n).1 = false → m < n ∧
      (canReadWord tx (seg.control (k + m))).1 = false) := by
  induction n with
  | zero =>
    intro seg k
    refine ⟨0, le_rfl, fun i hi => ?_, ?_, fun _ => rfl, fun h => by cases h⟩
    · simp [not_inRange_zero] at hi
    · simp [markWords, not_inRange_zero]
  | succ n ih =>
    intro seg k
    cases hok : (canReadWord tx (seg.control k)).1 with
    | false =>
      refine ⟨0, Nat.zero_le _, fun i hi => ?_, ?_, ?_, fun _ => ⟨Nat.succ_pos n, hok⟩⟩
      · simp [not_inRange_zero] at hi
      · simp [markWords, hok, not_inRange_zero, (canReadWord_refused hok).1]
      · simp [markWords, hok]
    | true =>
      obtain ⟨m, hm, hall, hseg, hfull, hpart⟩ := ih { seg with
        control := Function.update seg.control k (canReadWord tx (seg.control k)).2 } (k + 1)
      have hstep : markWords tx seg k (n + 1) = markWords tx { seg with
          control := Function.update seg.control k (canReadWord tx (seg.control k)).2 }
          (k + 1) n := by
        simp [markWords, hok]
      have off : ∀ i, inRange (k + 1) m i = true →
          Function.update seg.control k (canReadWord tx (seg.control k)).2 i = seg.control i := by
        intro i hi
        rw [inRange_iff] at hi
        exact Function.update_of_ne (by omega) _ _
      refine ⟨m + 1, by omega, forall_inRange_succ hok fun i hi => ?_, ?_, fun h => ?_, fun h => ?_⟩
      · rw [← off i hi]
        exact hall i hi
      · rw [hstep, hseg]
        simp only [update_range seg.control (fun _ c => (canReadWord tx c).2) k m]
      · rw [hfull (hstep ▸ h)]
      · obtain ⟨hlt, hno⟩ := hpart (hstep ▸ h)
        refine ⟨by omega, ?_⟩
        have hne : k + 1 + m ≠ k := by omega
        simpa [hne, Nat.add_assoc, Nat.add_comm 1 m] using hno

/-- As `markWords_spec`, for words whose control a refused write leaves alone. -/
theorem storeWords_spec (tx : Tx) (src : List W) : ∀ (seg : Segment W) (k : ℕ),
    (∀ i, k ≤ i → (canWriteWord tx (seg.control i)).1 = false →
      (canWriteWord tx (seg.control i)).2 = seg.control i) → ∃ m ≤ src.length,
    (∀ i, inRange k m i = true → (canWriteWord tx (seg.control i)).1 = true) ∧
    (storeWords tx seg k src).2 = { seg with
      control := fun i =>
        if inRange k m i then (canWriteWord tx (seg.control i)).2 else seg.control i
      write := fun i =>
        if inRange k m i then (src[i - k]?).getD (seg.write i) else seg.write i } ∧
    ((storeWords tx seg k src).1 = true → m = src.length) ∧
    ((storeWords tx seg k src).1 = false → m < src.length ∧
      (canWriteWord tx (seg.control (k + m))).1 = false) := by
  induction src with
  | nil =>
    intro seg k _
    refine ⟨0, le_rfl, fun i hi => ?_, ?_, fun _ => rfl, fun h => by cases h⟩
    · simp [not_inRange_zero] at hi
    · simp [storeWords, not_inRange_zero]
  | cons v src ih =>
    intro seg k hz
    cases hok : (canWriteWord tx (seg.control k)).1 with
    | false =>
      refine ⟨0, Nat.zero_le _, fun i hi => ?_, ?_, ?_, fun _ => ⟨Nat.succ_pos _, hok⟩⟩
      · simp [not_inRange_zero] at hi
      · simp [storeWords, hok, not_inRange_zero, hz k le_rfl hok]
      · simp [storeWords, hok]
    | true =>
      let next : Segment W := { seg with
        control := Function.update seg.control k (canWriteWord tx (seg.control k)).2
        write := Function.update seg.write k v }
      have hstep : storeWords tx seg k (v :: src) = storeWords tx next (k + 1) src := by
        simp [storeWords, hok, next]
      have off : ∀ i, k + 1 ≤ i → next.control i = seg.control i := fun i hi =>
        Function.update_of_ne (by omega) _ _
      obtain ⟨m, hm, hall, hseg, hfull, hpart⟩ := ih next (k + 1) (fun i hi => by
        rw [off i hi]
        exact hz i (by omega))
      refine ⟨m + 1, by simpa using hm, forall_inRange_succ hok fun i hi => ?_, ?_, fun h => ?_,
        fun h => ?_⟩
      · rw [← off i (inRange_iff.mp hi).1]
        exact hall i hi
      · have hwrite : (fun i => if inRange (k + 1) m i then (src[i - (k + 1)]?).getD (next.write i)
            else next.write i) = fun i => if inRange k (m + 1) i then
              ((v :: src)[i - k]?).getD (seg.write i) else seg.write i := by
          rw [← update_range seg.write (fun i w => ((v :: src)[i - k]?).getD w) k m]
          funext i
          by_cases hi : k + 1 ≤ i
          · have he : i - k = i - (k + 1) + 1 := by omega
            simp [next, he]
          · have hno : inRange (k + 1) m i = false := by
              rw [Bool.eq_false_iff, Ne, inRange_iff]
              omega
            simp [next, hno]
        have hcontrol : (fun i => if inRange (k + 1) m i then (canWriteWord tx (next.control i)).2
            else next.control i) = fun i => if inRange k (m + 1) i then
              (canWriteWord tx (seg.control i)).2 else seg.control i :=
          update_range seg.control (fun _ c => (canWriteWord tx c).2) k m
        rw [hstep, hseg, hwrite, hcontrol]
      · rw [hfull (hstep ▸ h), List.length_cons]
      · obtain ⟨hlt, hno⟩ := hpart (hstep ▸ h)
        refine ⟨by simpa using hlt, ?_⟩
        rw [off _ (by omega)] at hno
        simpa [Nat.add_assoc, Nat.add_comm 1 m] using hno

/-! ### What a rollback does -/

/-- The segment after `rollback_transaction` has visited it. -/
def rolledBack (tx : Tx) (seg : Segment W) : Segment W :=
  { seg with
    rollback := seg.rollback || decide (seg.owner = tx)
    control := fun i => if i < seg.size then (rollbackWord tx (seg.control i)).2
      else seg.control i
    write := fun i => if i < seg.size ∧ (rollbackWord tx (seg.control i)).1 = true
      then seg.read i else seg.write i }

theorem foldl_restoreWord (tx : Tx) (seg : Segment W) (n : ℕ) :
    (List.range n).foldl (restoreWord tx) seg = { seg with
      control := fun i => if i < n then (rollbackWord tx (seg.control i)).2 else seg.control i
      write := fun i => if i < n ∧ (rollbackWord tx (seg.control i)).1 = true then seg.read i
        else seg.write i } := by
  induction n with
  | zero => simp
  | succ n ih =>
    rw [List.range_succ, List.foldl_append, ih]
    simp only [List.foldl_cons, List.foldl_nil, restoreWord, Nat.lt_irrefl, if_false]
    have step : ∀ i, i < n + 1 ↔ i < n ∨ i = n := fun i => by omega
    cases hr : (rollbackWord tx (seg.control n)).1 with
    | true =>
      simp only [if_true]
      congr 1 <;> funext i
      · by_cases hi : i = n
        · simp [hi]
        · simp [hi, step]
      · by_cases hi : i = n
        · simp [hi, hr]
        · simp [hi, step]
    | false =>
      simp only [Bool.false_eq_true, if_false]
      congr 1 <;> funext i
      · by_cases hi : i = n
        · simp [hi, rollbackWord_miss hr]
        · simp [hi, step]
      · by_cases hi : i = n
        · simp [hi, hr]
        · simp [hi, step]

theorem rollbackSegment_eq (tx : Tx) (seg : Segment W) :
    rollbackSegment tx seg = rolledBack tx seg := by
  rw [rollbackSegment, foldl_restoreWord]
  by_cases ho : seg.owner = tx <;> simp [ho, rolledBack]

theorem foldl_setSeg (f : Segment W → Segment W) (l : List SegId) (hl : l.Nodup) (r : Region W) :
    l.foldl (fun r g => r.setSeg g (f (r.seg g))) r =
      { r with seg := fun g => if g ∈ l then f (r.seg g) else r.seg g } := by
  induction l generalizing r with
  | nil => simp
  | cons x l ih =>
    rw [List.nodup_cons] at hl
    rw [List.foldl_cons, ih hl.2]
    simp only [Region.setSeg, Region.mk.injEq, true_and, and_true]
    funext g
    by_cases hg : g = x
    · subst g
      simp [hl.1]
    · simp [hg]

theorem rollbackTransaction_eq {r : Region W} (hn : r.dirtySegLinks.Nodup) (tx : Tx) :
    rollbackTransaction r tx = { r with
      seg := fun g => if g ∈ r.dirtySegLinks then rolledBack tx (r.seg g) else r.seg g } := by
  rw [rollbackTransaction, foldl_setSeg _ _ (walk_nodup hn)]
  simp [rollbackSegment_eq]

end Calls
