import Mathlib.Algebra.Order.Ring.Int
import Mathlib.Data.Finset.Card

/-! # The batcher: counters and condition variable

Each function body is one critical section of `critsec`. The three counters are C ints
and wrap; `waiters` is the set of threads parked on the condition variable. -/
namespace BatcherState

structure Batcher (ι : Type*) where
  counter : ℤ
  remaining : ℤ
  blocked : ℤ
  waiters : Finset ι

/-- The value an `atomic_int` holds after `atomic_fetch_add`. -/
def toInt (z : ℤ) : ℤ := z.bmod (2 ^ 32)

variable {ι : Type*}

def initBatcher : Batcher ι := ⟨0, 0, 0, ∅⟩

def enterBatcher [DecidableEq ι] (b : Batcher ι) (i : ι) : Batcher ι :=
  if b.remaining = 0 then { b with remaining := 1 }
  else { b with blocked := toInt (b.blocked + 1), waiters := insert i b.waiters }

/-- The compare-and-swap of `leave_batcher` succeeds: `epoch_cleanup` runs. -/
def lastToLeave (b : Batcher ι) : Bool := decide (toInt (b.remaining - 1) = 0)

/-- `leave_batcher` without `epoch_cleanup`; the broadcast empties `waiters`. -/
def leaveBatcher (b : Batcher ι) : Batcher ι :=
  if lastToLeave b then ⟨toInt (b.counter + 1), b.blocked, 0, ∅⟩
  else { b with remaining := toInt (b.remaining - 1) }

theorem toInt_of_lt {z : ℤ} (h0 : -2 ^ 31 ≤ z) (h : z < 2 ^ 31) : toInt z = z := by
  unfold toInt
  exact Int.bmod_eq_of_le (by omega) (by omega)

theorem toInt_add_one (z : ℤ) : toInt (toInt z + 1) = toInt (z + 1) := Int.bmod_add_bmod

/-- The counters against the number of threads admitted to the epoch that have not left. -/
structure Counts (b : Batcher ι) (admitted : ℕ) : Prop where
  remaining : b.remaining = admitted
  blocked : b.blocked = b.waiters.card
  stranded : 0 < b.waiters.card → 0 < admitted
  small : admitted + b.waiters.card < 2 ^ 31

namespace Counts

variable {b : Batcher ι} {k : ℕ}

theorem init : Counts (initBatcher : Batcher ι) 0 := by
  constructor <;> simp [initBatcher]

theorem waiters_empty (h : Counts b 0) : b.waiters = ∅ := by
  have := h.stranded
  rw [← Finset.card_eq_zero]
  omega

theorem last_iff (h : Counts b k) (hk : 0 < k) : lastToLeave b = true ↔ k = 1 := by
  have hs := h.small
  have hr := h.remaining
  have : toInt (b.remaining - 1) = (k : ℤ) - 1 := by
    rw [hr, toInt_of_lt] <;> omega
  simp only [lastToLeave, decide_eq_true_eq, this]
  omega

theorem enter_first [DecidableEq ι] (h : Counts b 0) (i : ι) :
    Counts (enterBatcher b i) 1 ∧ (enterBatcher b i).waiters = ∅ := by
  have hr : b.remaining = 0 := by simpa using h.remaining
  have he := h.waiters_empty
  have hb := h.blocked
  rw [enterBatcher, if_pos hr]
  exact ⟨⟨rfl, hb, by simp, by simp [he]⟩, he⟩

theorem enter_wait [DecidableEq ι] (h : Counts b k) (hk : 0 < k) {i : ι} (hi : i ∉ b.waiters)
    (hs : k + b.waiters.card + 1 < 2 ^ 31) :
    Counts (enterBatcher b i) k ∧ (enterBatcher b i).waiters = insert i b.waiters := by
  have hr := h.remaining
  have hb := h.blocked
  rw [enterBatcher, if_neg (by omega)]
  refine ⟨⟨hr, ?_, fun _ => hk, ?_⟩, rfl⟩
  · simp only [Finset.card_insert_of_notMem hi]
    rw [hb, toInt_of_lt] <;> omega
  · simp only [Finset.card_insert_of_notMem hi]
    omega

theorem leave_last (h : Counts b 1) :
    Counts (leaveBatcher b) b.waiters.card ∧ (leaveBatcher b).waiters = ∅ ∧
      (leaveBatcher b).counter = toInt (b.counter + 1) := by
  have hl : lastToLeave b = true := (h.last_iff (by omega)).mpr rfl
  have hb := h.blocked
  have hs := h.small
  rw [leaveBatcher, if_pos hl]
  exact ⟨⟨hb, by simp, by simp, by simp; omega⟩, rfl, rfl⟩

theorem leave_more (h : Counts b (k + 1)) (hk : 0 < k) :
    Counts (leaveBatcher b) k ∧ (leaveBatcher b).waiters = b.waiters ∧
      (leaveBatcher b).counter = b.counter := by
  have hl : ¬ lastToLeave b = true := fun hl => by
    have := (h.last_iff (by omega)).mp hl
    omega
  have hb := h.blocked
  have hr := h.remaining
  have hs := h.small
  rw [leaveBatcher, if_neg hl]
  refine ⟨⟨?_, hb, fun _ => hk, by simp only; omega⟩, rfl, rfl⟩
  simp only
  rw [hr, toInt_of_lt] <;> omega

end Counts

/-- The batcher against the set of those admitted to the epoch that have not left. -/
structure Roster (b : Batcher ι) (active : Finset ι) : Prop where
  counts : Counts b active.card
  apart : ∀ i ∈ active, i ∉ b.waiters

namespace Roster

variable [DecidableEq ι] {b : Batcher ι} {active : Finset ι} {i : ι}

omit [DecidableEq ι] in
theorem init : Roster (initBatcher : Batcher ι) ∅ := ⟨Counts.init, by simp⟩

theorem enter_first (h : Roster b active) (hz : b.remaining = 0) (i : ι) :
    Roster (enterBatcher b i) (insert i active) ∧ active = ∅ ∧ b.waiters = ∅ ∧
      (enterBatcher b i).waiters = ∅ := by
  have hk : active.card = 0 := by
    have := h.counts.remaining
    omega
  have he : active = ∅ := Finset.card_eq_zero.mp hk
  obtain ⟨hc, hw⟩ := (hk ▸ h.counts).enter_first i
  exact ⟨⟨by simpa [he] using hc, by simp [hw]⟩, he, (hk ▸ h.counts).waiters_empty, hw⟩

theorem enter_wait (h : Roster b active) (hz : b.remaining ≠ 0) (ha : i ∉ active)
    (hi : i ∉ b.waiters) (hs : active.card + b.waiters.card + 1 < 2 ^ 31) :
    Roster (enterBatcher b i) active ∧ (enterBatcher b i).waiters = insert i b.waiters := by
  have hk : 0 < active.card := by
    have := h.counts.remaining
    omega
  obtain ⟨hc, hw⟩ := h.counts.enter_wait hk hi hs
  refine ⟨⟨hc, fun j hj => ?_⟩, hw⟩
  rw [hw, Finset.mem_insert, not_or]
  exact ⟨fun he => ha (he ▸ hj), h.apart j hj⟩

omit [DecidableEq ι] in
/-- The last to leave is the only one running. -/
theorem sole (h : Roster b active) (hi : i ∈ active) (hl : lastToLeave b = true) :
    active = {i} := by
  have hk := (h.counts.last_iff (Finset.card_pos.mpr ⟨i, hi⟩)).mp hl
  obtain ⟨j, hj⟩ := Finset.card_eq_one.mp hk
  rw [hj, Finset.mem_singleton] at hi
  rw [hj, hi]

omit [DecidableEq ι] in
theorem close (h : Roster b active) (hi : i ∈ active) (hl : lastToLeave b = true) :
    Roster (leaveBatcher b) b.waiters ∧ (leaveBatcher b).waiters = ∅ := by
  have hc : Counts b 1 := by simpa [h.sole hi hl] using h.counts
  obtain ⟨hcount, hempty, -⟩ := hc.leave_last
  exact ⟨⟨hcount, by simp [hempty]⟩, hempty⟩

theorem stay (h : Roster b active) (hi : i ∈ active) (hl : lastToLeave b = false) :
    Roster (leaveBatcher b) (active.erase i) ∧ (leaveBatcher b).waiters = b.waiters := by
  have hpos : 0 < active.card := Finset.card_pos.mpr ⟨i, hi⟩
  have hne : active.card ≠ 1 := fun he => by
    rw [(h.counts.last_iff hpos).mpr he] at hl
    cases hl
  have hcard : (active.erase i).card + 1 = active.card := Finset.card_erase_add_one hi
  obtain ⟨hcount, hw, -⟩ := (hcard ▸ h.counts).leave_more (by omega)
  exact ⟨⟨hcount, fun j hj => hw ▸ h.apart j (Finset.mem_of_mem_erase hj)⟩, hw⟩

end Roster

end BatcherState
