import Mathlib.Data.Set.Insert

/-! # The control word of one memory word

`control_t` and the three sections that run under its spinlock. The spinlock makes each
section one step; what the sections guarantee is stated against the sets of transactions
that passed them, so that it can be used at any granularity of interleaving. -/
namespace ControlWord

/-- `tx_t`, an unsigned 64-bit handle. -/
abbrev Tx := BitVec 64

def readOnlyTx : Tx := (BitVec.allOnes 64 >>> 1) + 1
def isTxReadonly (tx : Tx) : Bool := decide (tx &&& readOnlyTx > 0)

structure Control where
  access : Tx
  written : Bool
  manyAccesses : Bool
  deriving DecidableEq, Repr

/-- What `memset(control, 0, _)` leaves; 0 is nobody's id. -/
def Control.zero : Control := ⟨0#64, false, false⟩

/-- `CAS(&access, 0, tx)` -/
def Control.claim (c : Control) (tx : Tx) : Control :=
  if c.access = 0#64 then { c with access := tx } else c

def canReadWord (tx : Tx) (c : Control) : Bool × Control :=
  if c.written then
    (decide (c.access = tx), c)
  else
    let c := c.claim tx
    (true, if c.access ≠ tx then { c with manyAccesses := true } else c)

def canWriteWord (tx : Tx) (c : Control) : Bool × Control :=
  if c.written then
    if c.access = tx then
      -- the branch marked "that shouldnt' be necessary" in the source
      if c.manyAccesses then (false, c) else (true, c)
    else (false, c)
  else
    let c := c.claim tx
    if c.access = tx ∧ c.manyAccesses = false then (true, { c with written := true })
    else (false, c)

/-- The locked section of `rollback_transaction`; `true` says that the data word is restored. -/
def rollbackWord (tx : Tx) (c : Control) : Bool × Control :=
  if c.written ∧ c.access = tx then (true, { c with written := false, access := 0#64 })
  else (false, c)

/-- One word, seen by the transactions that have not failed: `passed` are those that
passed either guard, `wrote` those that passed the write guard. -/
structure Exclusive (c : Control) (passed wrote : Set Tx) : Prop where
  writers_pass : wrote ⊆ passed
  named : 0#64 ∉ passed
  sole : c.manyAccesses = false → ∀ t ∈ passed, t = c.access
  unclaimed : c.access = 0#64 → c.manyAccesses = false
  owned : c.written = true → c.access ≠ 0#64 ∧ c.manyAccesses = false
  unwritten : c.written = false → wrote = ∅

/-- Marks come from transactions that passed a guard, failed since or not. -/
structure Traced (c : Control) (passed wrote : Set Tx) : Prop where
  access : c.access ≠ 0#64 → c.access ∈ passed
  many : c.manyAccesses = true → ∃ t ∈ passed, t ≠ c.access
  written : c.written = true → c.access ∈ wrote

variable {c : Control} {passed wrote passed' wrote' : Set Tx} {tx : Tx}

theorem Control.claim_of_zero (h : c.access = 0#64) : c.claim tx = { c with access := tx } := by
  simp [Control.claim, h]

theorem Control.claim_of_ne (h : c.access ≠ 0#64) : c.claim tx = c := by
  simp [Control.claim, h]

theorem canReadWord_pass : (canReadWord tx c).1 = true ↔ c.written = false ∨ c.access = tx := by
  cases hw : c.written <;> simp [canReadWord, hw]

theorem canReadWord_refused (h : (canReadWord tx c).1 = false) :
    (canReadWord tx c).2 = c ∧ c.written = true ∧ c.access ≠ tx := by
  cases hw : c.written <;> simp_all [canReadWord]

@[simp] theorem canReadWord_written : (canReadWord tx c).2.written = c.written := by
  cases hw : c.written
  · by_cases ha : c.access = 0
    · simp [canReadWord, hw, Control.claim_of_zero ha]
    · by_cases ht : c.access = tx <;> simp [canReadWord, hw, Control.claim_of_ne ha, ht]
  · simp [canReadWord, hw]

theorem canReadWord_kept (hw : c.written = true) : (canReadWord tx c).2 = c := by
  simp [canReadWord, hw]

theorem canWriteWord_pass (ok : (canWriteWord tx c).1 = true) (hw : c.written = true) :
    c.access = tx := by
  by_contra ha
  simp [canWriteWord, hw, ha] at ok

theorem rollbackWord_hit : (rollbackWord tx c).1 = true ↔ c.written = true ∧ c.access = tx := by
  by_cases h : c.written = true ∧ c.access = tx
  · simp [rollbackWord, h]
  · rw [rollbackWord, if_neg h]
    simpa using h

theorem rollbackWord_miss (h : (rollbackWord tx c).1 = false) : (rollbackWord tx c).2 = c := by
  by_cases hm : c.written = true ∧ c.access = tx
  · simp [rollbackWord, hm] at h
  · rw [rollbackWord, if_neg hm]

/-- After its own section a transaction holds no write on the word. -/
theorem rollbackWord_released :
    ¬ ((rollbackWord tx c).2.written = true ∧ (rollbackWord tx c).2.access = tx) := by
  by_cases h : c.written = true ∧ c.access = tx
  · simp [rollbackWord, h]
  · rw [rollbackWord, if_neg h]
    exact h

theorem exclusive_zero : Exclusive Control.zero ∅ ∅ := by
  constructor <;> simp [Control.zero]

theorem traced_zero : Traced Control.zero ∅ ∅ := by
  constructor <;> simp [Control.zero]

namespace Exclusive

theorem mono (h : Exclusive c passed wrote) (hp : passed' ⊆ passed) (hw : wrote' ⊆ wrote)
    (hs : wrote' ⊆ passed') : Exclusive c passed' wrote' where
  writers_pass := hs
  named := fun h0 => h.named (hp h0)
  sole := fun hm t ht => h.sole hm t (hp ht)
  unclaimed := h.unclaimed
  owned := h.owned
  unwritten := fun hf => Set.subset_empty_iff.mp ((h.unwritten hf) ▸ hw)

/-- Nobody still running has passed a word that nobody claims. -/
theorem passed_of_unclaimed (h : Exclusive c passed wrote) (h0 : c.access = 0#64) : passed = ∅ := by
  apply Set.eq_empty_of_forall_notMem
  intro t ht
  have : t = 0#64 := (h.sole (h.unclaimed h0) t ht).trans h0
  exact h.named (this ▸ ht)

theorem unwritten_of_unclaimed (h : Exclusive c passed wrote) (h0 : c.access = 0#64) :
    c.written = false := by
  by_contra hw
  exact (h.owned (by simpa using hw)).1 h0

theorem owner_of_written (h : Exclusive c passed wrote) (hw : c.written = true) {t : Tx}
    (ht : t ∈ passed) : t = c.access := h.sole (h.owned hw).2 t ht

/-- A writer that is still running keeps the word to itself. -/
theorem writer_alone (h : Exclusive c passed wrote) {t u : Tx} (ht : t ∈ wrote)
    (hu : u ∈ passed) : u = t := by
  have hw : c.written = true := by
    by_contra hf
    have := h.unwritten (by simpa using hf)
    exact (this ▸ ht : t ∈ (∅ : Set Tx))
  exact (h.owner_of_written hw hu).trans (h.owner_of_written hw (h.writers_pass ht)).symm

theorem read (h : Exclusive c passed wrote) (hx : tx ≠ 0#64) (ok : (canReadWord tx c).1 = true) :
    Exclusive (canReadWord tx c).2 (insert tx passed) wrote := by
  have hn : 0#64 ∉ insert tx passed := by
    simpa [Ne.symm hx] using h.named
  have hs : wrote ⊆ insert tx passed := h.writers_pass.trans (Set.subset_insert _ _)
  cases hw : c.written with
  | true =>
    have ht : c.access = tx := by simpa [hw] using canReadWord_pass.mp ok
    rw [show (canReadWord tx c).2 = c by simp [canReadWord, hw]]
    refine ⟨hs, hn, fun hm t hin => ?_, h.unclaimed, h.owned, h.unwritten⟩
    rcases Set.mem_insert_iff.mp hin with rfl | hin
    · exact ht.symm
    · exact h.sole hm t hin
  | false =>
    have hq := h.unwritten hw
    by_cases h0 : c.access = 0
    · rw [show (canReadWord tx c).2 = { c with access := tx } by
        simp [canReadWord, hw, Control.claim_of_zero h0], h.passed_of_unclaimed h0]
      constructor <;> simp_all [h.unclaimed h0]
    · by_cases ht : c.access = tx
      · rw [show (canReadWord tx c).2 = c by
          simp [canReadWord, hw, Control.claim_of_ne h0, ht]]
        refine ⟨hs, hn, fun hm t hin => ?_, h.unclaimed, h.owned, h.unwritten⟩
        rcases Set.mem_insert_iff.mp hin with rfl | hin
        · exact ht.symm
        · exact h.sole hm t hin
      · rw [show (canReadWord tx c).2 = { c with manyAccesses := true } by
          simp [canReadWord, hw, Control.claim_of_ne h0, ht]]
        constructor <;> simp_all

theorem write (h : Exclusive c passed wrote) (hx : tx ≠ 0#64) (ok : (canWriteWord tx c).1 = true) :
    Exclusive (canWriteWord tx c).2 (insert tx passed) (insert tx wrote) ∧
      (canWriteWord tx c).2 = ⟨tx, true, false⟩ := by
  have hn : 0#64 ∉ insert tx passed := by
    simpa [Ne.symm hx] using h.named
  have hs : insert tx wrote ⊆ insert tx passed := Set.insert_subset_insert h.writers_pass
  have alone : c.manyAccesses = false → (c.access = tx ∨ c.access = 0#64) →
      ∀ t ∈ insert tx passed, t = tx := by
    intro hm ha t hin
    rcases Set.mem_insert_iff.mp hin with rfl | hin
    · rfl
    · rcases ha with ha | ha
      · exact (h.sole hm t hin).trans ha
      · exact ((h.passed_of_unclaimed ha) ▸ hin : t ∈ (∅ : Set Tx)).elim
  have final : c.manyAccesses = false → (c.access = tx ∨ c.access = 0#64) →
      Exclusive ⟨tx, true, false⟩ (insert tx passed) (insert tx wrote) := fun hm ha =>
    ⟨hs, hn, fun _ => alone hm ha, fun _ => rfl, fun _ => ⟨hx, rfl⟩, fun hf => by simp at hf⟩
  cases hw : c.written with
  | true =>
    have hc : c.access = tx ∧ c.manyAccesses = false := by
      by_cases ha : c.access = tx
      · exact ⟨ha, (h.owned hw).2⟩
      · exact (ha (canWriteWord_pass ok hw)).elim
    have he : (canWriteWord tx c).2 = ⟨tx, true, false⟩ := by
      obtain ⟨a, w, m⟩ := c
      simp_all [canWriteWord]
    exact ⟨he ▸ final hc.2 (.inl hc.1), he⟩
  | false =>
    have hc : (c.claim tx).access = tx ∧ (c.claim tx).manyAccesses = false := by
      by_contra hno
      simp [canWriteWord, hw, hno] at ok
    have he : (canWriteWord tx c).2 = ⟨tx, true, false⟩ := by
      simp [canWriteWord, hw, hc]
    by_cases h0 : c.access = 0
    · exact ⟨he ▸ final (h.unclaimed h0) (.inr h0), he⟩
    · rw [Control.claim_of_ne h0] at hc
      exact ⟨he ▸ final hc.2 (.inl hc.1), he⟩

/-- A refused write leaves the word as it was, and the word is not free. -/
theorem write_refused (h : Exclusive c passed wrote) (no : (canWriteWord tx c).1 = false) :
    (canWriteWord tx c).2 = c ∧ c.access ≠ 0#64 ∧ (c.access ≠ tx ∨ c.manyAccesses = true) := by
  cases hw : c.written with
  | true =>
    have ho := h.owned hw
    by_cases ha : c.access = tx
    · simp [canWriteWord, hw, ha, ho.2] at no
    · simp [canWriteWord, hw, ha, ho.1]
  | false =>
    by_cases h0 : c.access = 0
    · simp [canWriteWord, hw, Control.claim_of_zero h0, h.unclaimed h0] at no
    · by_cases hc : c.access = tx ∧ c.manyAccesses = false
      · simp [canWriteWord, hw, Control.claim_of_ne h0, hc] at no
      · refine ⟨by simp [canWriteWord, hw, Control.claim_of_ne h0, hc], h0, ?_⟩
        by_cases ha : c.access = tx
        · exact .inr (by simpa [ha] using hc)
        · exact .inl ha

/-- The rollback of a failed transaction changes nothing for those still running. -/
theorem rollback (h : Exclusive c passed wrote) (hf : tx ∉ passed) :
    Exclusive (rollbackWord tx c).2 passed wrote := by
  by_cases hc : c.written = true ∧ c.access = tx
  · have hp : passed = ∅ := by
      apply Set.eq_empty_of_forall_notMem
      intro t ht
      have : t = tx := (h.owner_of_written hc.1 ht).trans hc.2
      exact hf (this ▸ ht)
    have hw : wrote = ∅ := Set.subset_empty_iff.mp (hp ▸ h.writers_pass)
    rw [rollbackWord, if_pos hc, hp, hw]
    constructor <;> simp [(h.owned hc.1).2]
  · rw [rollbackWord, if_neg hc]
    exact h

end Exclusive

namespace Traced

theorem mono (h : Traced c passed wrote) (hp : passed ⊆ passed') (hw : wrote ⊆ wrote') :
    Traced c passed' wrote' where
  access := fun ha => hp (h.access ha)
  many := fun hm => (h.many hm).imp fun _ ht => ⟨hp ht.1, ht.2⟩
  written := fun hf => hw (h.written hf)

theorem read (h : Traced c passed wrote) (hc : c.access = 0#64 → c.manyAccesses = false) :
    Traced (canReadWord tx c).2 (insert tx passed) wrote := by
  have h' := h.mono (Set.subset_insert tx passed) (Set.Subset.refl wrote)
  cases hw : c.written with
  | true =>
    rw [show (canReadWord tx c).2 = c by simp [canReadWord, hw]]
    exact h'
  | false =>
    by_cases h0 : c.access = 0
    · rw [show (canReadWord tx c).2 = { c with access := tx } by
        simp [canReadWord, hw, Control.claim_of_zero h0]]
      exact ⟨fun _ => Set.mem_insert _ _, fun hm => by simp_all, fun hf => by simp_all⟩
    · by_cases ht : c.access = tx
      · rw [show (canReadWord tx c).2 = c by
          simp [canReadWord, hw, Control.claim_of_ne h0, ht]]
        exact h'
      · rw [show (canReadWord tx c).2 = { c with manyAccesses := true } by
          simp [canReadWord, hw, Control.claim_of_ne h0, ht]]
        exact ⟨h'.access, fun _ => ⟨tx, Set.mem_insert _ _, Ne.symm ht⟩, h'.written⟩

theorem write (he : (canWriteWord tx c).2 = ⟨tx, true, false⟩) :
    Traced (canWriteWord tx c).2 (insert tx passed) (insert tx wrote) := by
  rw [he]
  exact ⟨fun _ => Set.mem_insert _ _, fun hm => by simp at hm, fun _ => Set.mem_insert _ _⟩

theorem rollback (h : Traced c passed wrote)
    (ho : c.written = true → c.manyAccesses = false) :
    Traced (rollbackWord tx c).2 passed wrote := by
  by_cases hc : c.written = true ∧ c.access = tx
  · rw [rollbackWord, if_pos hc]
    constructor <;> simp [ho hc.1]
  · rw [rollbackWord, if_neg hc]
    exact h

end Traced

end ControlWord
