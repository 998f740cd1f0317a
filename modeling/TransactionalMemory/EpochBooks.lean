import TransactionalMemory.CallLog

/-! # What a segment says of the log

Each field of a live segment is determined by the calls logged so far in the epoch. A
successful call and the rollback of a failing one both keep the books in order. -/
namespace EpochBooks

open BatcherState
open ControlWord
open RegionState
open Calls
open CallEffects
open CallLog

variable {W : Type*}

structure Word (c : Control) (read write : W) (passed wrote : Set Tx) : Prop where
  exclusive : Exclusive c passed wrote
  equal : c.written = false → write = read
  held : c.written = true → c.access ∈ wrote

namespace Word

variable {c : Control} {read write : W} {passed wrote : Set Tx} {tx : Tx}

theorem zero (w : W) : Word Control.zero w w ∅ ∅ :=
  ⟨exclusive_zero, fun _ => rfl, fun h => by cases h⟩

theorem mark (h : Word c read write passed wrote) (hx : tx ≠ 0#64)
    (ok : (canReadWord tx c).1 = true) :
    Word (canReadWord tx c).2 read write (insert tx passed) wrote := by
  refine ⟨h.exclusive.read hx ok, fun hf => h.equal (by simpa using hf), fun hw => ?_⟩
  rw [canReadWord_written] at hw
  rw [canReadWord_kept hw]
  exact h.held hw

theorem store (h : Word c read write passed wrote) (hx : tx ≠ 0#64)
    (ok : (canWriteWord tx c).1 = true) (v : W) :
    Word (canWriteWord tx c).2 read v (insert tx passed) (insert tx wrote) := by
  obtain ⟨he, hc⟩ := h.exclusive.write hx ok
  refine ⟨he, fun hf => ?_, fun _ => ?_⟩
  · rw [hc] at hf
    cases hf
  · rw [hc]
    exact Set.mem_insert _ _

theorem rollback (h : Word c read write passed wrote) (tx : Tx) :
    Word (rollbackWord tx c).2 read (if (rollbackWord tx c).1 = true then read else write)
      (passed \ {tx}) (wrote \ {tx}) := by
  have left : Exclusive c (passed \ {tx}) (wrote \ {tx}) :=
    h.exclusive.mono Set.sdiff_subset Set.sdiff_subset
      (Set.sdiff_subset_sdiff_left h.exclusive.writers_pass)
  refine ⟨left.rollback fun hin => hin.2 rfl, fun hf => ?_, fun hw => ?_⟩
  · split_ifs with hit
    · rfl
    · rw [rollbackWord_miss (by simpa using hit)] at hf
      exact h.equal hf
  · cases hit : (rollbackWord tx c).1 with
    | true => simp [rollbackWord, rollbackWord_hit.mp hit] at hw
    | false =>
      rw [rollbackWord_miss hit] at hw ⊢
      refine ⟨h.held hw, fun he => ?_⟩
      rw [rollbackWord_hit.mpr ⟨hw, he⟩] at hit
      cases hit

/-- Nobody holds the word when nobody standing wrote it. -/
theorem unwritten (h : Word c read write passed ∅) : c.written = false := by
  by_contra hw
  exact h.held (by simpa using hw)

end Word

/-- The flags and the owner of a live segment against the log. -/
structure Flags (log : Log W) (g : SegId) (seg : Segment W) : Prop where
  newlyAlloc : seg.newlyAlloc = (allocator log g).isSome
  shouldFree : seg.shouldFree = true ↔ ∃ u, (u, .free g) ∈ log
  owner : seg.owner = (holder log g).getD 0#64
  rollback : seg.rollback = true ↔ Overruled log g
  own : ∀ u v e, allocator log g = some u → (v, e) ∈ log → e.claims = some g → v = u
  unseated : ∀ u, holder log g = some u → (u, .abort) ∈ log → Overruled log g

structure Kept (log : Log W) (g : SegId) (seg : Segment W) : Prop extends Flags log g seg where
  words : ∀ i, Word (seg.control i) (seg.read i) (seg.write i) (passed log g i) (wrote log g i)

/-- What a failing call of `tx` may have left in a segment before it rolls back. -/
structure Attempted (log : Log W) (tx : Tx) (g : SegId) (seg : Segment W) : Prop where
  flags : Flags log g seg
  words : ∀ i, ∃ P Q, P \ {tx} = passed log g i \ {tx} ∧ Q \ {tx} = wrote log g i \ {tx} ∧
    Word (seg.control i) (seg.read i) (seg.write i) P Q
  outside : ∀ i, seg.size ≤ i → (seg.control i).written = false

namespace Flags

variable {log : Log W} {g : SegId} {seg : Segment W} {tx : Tx} {e : Entry W}

theorem reword (h : Flags log g seg) {control : ℕ → Control} {write : ℕ → W} {dirty : Bool} :
    Flags log g { seg with control, write, dirty } :=
  ⟨h.newlyAlloc, h.shouldFree, h.owner, h.rollback, h.own, h.unseated⟩

theorem snoc (h : Flags log g seg) (he : e ≠ .abort) (hc : e.claims ≠ some g) :
    Flags (log ++ [(tx, e)]) g seg where
  newlyAlloc := by
    rw [allocator_snoc fun size hx => hc (by rw [hx]; rfl)]
    exact h.newlyAlloc
  shouldFree := by
    rw [h.shouldFree]
    refine exists_congr fun u => ?_
    rw [mem_snoc, Prod.mk.injEq, or_iff_left]
    rintro ⟨-, hx⟩
    exact hc (by rw [← hx]; rfl)
  owner := by
    rw [holder_snoc hc]
    exact h.owner
  rollback := by
    rw [overruled_snoc, h.rollback, or_iff_left fun hx => he hx.1]
  own u v e' hu hin hclaims := by
    rw [allocator_snoc fun size hx => hc (by rw [hx]; rfl)] at hu
    rcases mem_snoc.mp hin with hin | hin
    · exact h.own u v e' hu hin hclaims
    · cases hin
      exact (hc hclaims).elim
  unseated u hu hin := by
    rw [holder_snoc hc] at hu
    rw [mem_snoc, Prod.mk.injEq, or_iff_left fun hx => he hx.2.symm] at hin
    exact overruled_snoc.mpr (.inl (h.unseated u hu hin))

theorem freed (h : Flags log g seg) (hn : (tx, .abort) ∉ log)
    (ho : allocator log g = none ∨ allocator log g = some tx) :
    Flags (log ++ [(tx, .free g)]) g { seg with shouldFree := true, owner := tx } where
  newlyAlloc := by
    rw [allocator_snoc (by simp)]
    exact h.newlyAlloc
  shouldFree := by
    simp only [true_iff]
    exact ⟨tx, by simp⟩
  owner := by
    rw [holder_claim rfl]
    rfl
  rollback := by
    rw [overruled_snoc, or_iff_left fun hx => nomatch hx.1]
    exact h.rollback
  own u v e hu hin hclaims := by
    rw [allocator_snoc (by simp)] at hu
    rcases mem_snoc.mp hin with hin | hin
    · exact h.own u v e hu hin hclaims
    · cases hin
      rcases ho with ho | ho
      · rw [ho] at hu
        cases hu
      · exact Option.some.inj (ho.symm.trans hu)
  unseated u hu hin := by
    rw [holder_claim rfl] at hu
    cases hu
    rw [mem_snoc, or_iff_left (by simp)] at hin
    exact (hn hin).elim

/-- `rollback_transaction` on a segment of the dirty list. -/
theorem aborted (h : Flags log g seg) (hx : tx ≠ 0#64) :
    Flags (log ++ [(tx, .abort)]) g
      { seg with rollback := seg.rollback || decide (seg.owner = tx) } where
  newlyAlloc := by
    rw [allocator_snoc (by simp)]
    exact h.newlyAlloc
  shouldFree := by simpa using h.shouldFree
  owner := by
    rw [holder_snoc (by simp [Entry.claims])]
    exact h.owner
  rollback := by
    have ho : seg.owner = tx ↔ holder log g = some tx := by
      rw [h.owner]
      cases hh : holder log g with
      | none => simpa using hx.symm
      | some u => simp
    simp only [Bool.or_eq_true, decide_eq_true_eq, overruled_snoc, h.rollback, ho, true_and]
  own u v e hu hin hclaims := by
    rw [allocator_snoc (by simp)] at hu
    rcases mem_snoc.mp hin with hin | hin
    · exact h.own u v e hu hin hclaims
    · cases hin
      cases hclaims
  unseated u hu hin := by
    rw [holder_snoc (by simp [Entry.claims])] at hu
    rw [overruled_snoc]
    rcases mem_snoc.mp hin with hin | hin
    · exact .inl (h.unseated u hu hin)
    · cases hin
      exact .inr ⟨rfl, hu⟩

theorem dropped_iff (h : Flags log g seg) : seg.dropped = true ↔
    (¬ Overruled log g ∧ ∃ u, (u, .free g) ∈ log) ∨
      (Overruled log g ∧ ∃ u, allocator log g = some u) := by
  rw [← h.rollback, ← h.shouldFree, ← Option.isSome_iff_exists, ← h.newlyAlloc]
  simp [Segment.dropped, Segment.successFree, Segment.failureAlloc]

theorem holder_new (h : Flags log g seg) {u : Tx} (ha : allocator log g = some u) :
    holder log g = some u := by
  obtain ⟨size, halloc⟩ := mem_of_allocator ha
  cases hh : holder log g with
  | none => exact (holder_isSome halloc rfl hh).elim
  | some v =>
    obtain ⟨e, he, hc⟩ := mem_of_holder hh
    rw [h.own u v e ha he hc]

/-- An allocator is overruled by its own abort and by nothing else. -/
theorem overruled_new (h : Flags log g seg) {u : Tx} (ha : allocator log g = some u) :
    Overruled log g ↔ (u, .abort) ∈ log := by
  constructor
  · rintro ⟨pre, v, post, rfl, hh⟩
    obtain ⟨e, hin, hc⟩ := mem_of_holder hh
    have := h.own u v e ha (by simp [hin]) hc
    subst v
    simp
  · exact h.unseated u (h.holder_new ha)

end Flags

namespace Kept

variable {log : Log W} {g : SegId} {seg : Segment W} {tx : Tx} {e : Entry W}

/-- A segment as `epoch_cleanup` leaves it. -/
theorem fresh (h : Quiescent seg) : Kept [] g seg where
  newlyAlloc := h.newlyAlloc
  shouldFree := by simp [h.shouldFree]
  owner := h.owner
  rollback := by simp [h.rollback, overruled_nil]
  own := nofun
  unseated := nofun
  words i := by
    rw [h.control, h.equal, passed, wrote, standing_nil, standing_nil]
    exact Word.zero _

/-- A call that marks no word of the segment. -/
theorem unmarked_words (h : Kept log g seg) (he : e ≠ .abort) (hn : (tx, .abort) ∉ log)
    (hm : ∀ i, e.marks tx g i = false) (i : ℕ) : Word (seg.control i) (seg.read i) (seg.write i)
      (passed (log ++ [(tx, e)]) g i) (wrote (log ++ [(tx, e)]) g i) := by
  have hs : e.stores g i = false := by
    have := hm i
    rw [Entry.marks, Bool.or_eq_false_iff] at this
    exact this.1
  rw [passed, wrote, standing_snoc he hn, standing_snoc he hn, hm, hs]
  exact h.words i

theorem unmarked (h : Kept log g seg) (he : e ≠ .abort) (hn : (tx, .abort) ∉ log)
    (hm : ∀ i, e.marks tx g i = false) (hc : e.claims ≠ some g) :
    Kept (log ++ [(tx, e)]) g seg :=
  ⟨h.toFlags.snoc he hc, h.unmarked_words he hn hm⟩

theorem freed (h : Kept log g seg) (hn : (tx, .abort) ∉ log)
    (ho : allocator log g = none ∨ allocator log g = some tx) :
    Kept (log ++ [(tx, .free g)]) g { seg with shouldFree := true, owner := tx } :=
  ⟨h.toFlags.freed hn ho, h.unmarked_words nofun hn fun _ => rfl⟩

theorem read (h : Kept log g seg) (hx : tx ≠ 0#64) (hn : (tx, .abort) ∉ log)
    (hro : isTxReadonly tx = false) {k : ℕ} {target : List W}
    (ok : ∀ i, inRange k target.length i = true → (canReadWord tx (seg.control i)).1 = true) :
    Kept (log ++ [(tx, .read g k target)]) g (marked tx seg k target.length) := by
  refine ⟨(h.toFlags.snoc (by simp) (by simp [Entry.claims])).reword, fun i => ?_⟩
  rw [passed, wrote, standing_snoc (by simp) hn, standing_snoc (by simp) hn]
  simp only [Entry.marks, Entry.stores, Entry.accesses, marked, decide_true, Bool.true_and,
    Bool.false_or, hro, Bool.not_false, Bool.and_true, Bool.false_eq_true, if_false]
  split_ifs with hi
  · exact (h.words i).mark hx (ok i hi)
  · exact h.words i

theorem write (h : Kept log g seg) (hx : tx ≠ 0#64) (hn : (tx, .abort) ∉ log) {k : ℕ}
    {src : List W}
    (ok : ∀ i, inRange k src.length i = true → (canWriteWord tx (seg.control i)).1 = true) :
    Kept (log ++ [(tx, .write g k src)]) g (stored tx seg k src src.length) := by
  refine ⟨(h.toFlags.snoc (by simp) (by simp [Entry.claims])).reword, fun i => ?_⟩
  rw [passed, wrote, standing_snoc (by simp) hn, standing_snoc (by simp) hn]
  simp only [Entry.marks, Entry.stores, Entry.accesses, stored, decide_true, Bool.true_and]
  cases hi : inRange k src.length i with
  | true => exact (h.words i).store hx (ok i hi) _
  | false => exact h.words i

theorem alloc [Zero W] (size : ℕ) (hn : (tx, .abort) ∉ log)
    (hb : ∀ u e, (u, e) ∈ log → (∀ i, e.accesses g i = false) ∧ e.claims ≠ some g) :
    Kept (log ++ [(tx, .alloc g size)]) g (allocSegment size tx) := by
  have hnone : allocator log g = none := by
    cases ha : allocator log g with
    | none => rfl
    | some u =>
      obtain ⟨size', hin⟩ := mem_of_allocator ha
      exact ((hb _ _ hin).2 rfl).elim
  refine ⟨⟨?_, ?_, ?_, ?_, ?_, ?_⟩, fun i => ?_⟩
  · rw [allocator_alloc size hnone]
    rfl
  · simp only [allocSegment, Bool.false_eq_true, false_iff, not_exists]
    intro u hu
    rw [mem_snoc] at hu
    rcases hu with hu | hu
    · exact (hb _ _ hu).2 rfl
    · simp at hu
  · rw [holder_claim rfl]
    rfl
  · simp only [allocSegment, Bool.false_eq_true, false_iff, overruled_snoc]
    rintro (⟨pre, u, post, rfl, hh⟩ | ⟨hx, -⟩)
    · obtain ⟨e, hin, hc⟩ := mem_of_holder hh
      exact (hb u e (by simp [hin])).2 hc
    · cases hx
  · intro u v e hu hin hc
    rw [allocator_alloc size hnone] at hu
    cases hu
    rcases mem_snoc.mp hin with hin | hin
    · exact ((hb v e hin).2 hc).elim
    · cases hin
      rfl
  · intro u hu hin
    rw [holder_claim rfl] at hu
    cases hu
    rw [mem_snoc, or_iff_left (by simp)] at hin
    exact (hn hin).elim
  · have none : ∀ p : Tx → Entry W → Bool, (∀ u e, (u, e) ∈ log → p u e = false) →
        standing log p = ∅ := by
      intro p hp
      apply Set.eq_empty_of_forall_notMem
      rintro u ⟨-, e, hin, hpe⟩
      rw [hp u e hin] at hpe
      cases hpe
    have away : ∀ u e, (u, e) ∈ log → e.stores g i = false ∧ e.marks u g i = false :=
      fun u e hin => Entry.marks_of_far ((hb u e hin).1 i) u
    rw [passed, wrote, standing_snoc (by simp) hn, standing_snoc (by simp) hn,
      none _ fun u e hin => (away u e hin).2, none _ fun u e hin => (away u e hin).1]
    exact Word.zero _

/-- An abort leaves a segment of the clean list alone. -/
theorem aborted_clean (h : Kept log g seg) (hq : Quiescent seg)
    (hx : tx ≠ 0#64) : Kept (log ++ [(tx, .abort)]) g seg := by
  have hflags := h.toFlags.aborted hx
  have ho : seg.owner ≠ tx := by
    rw [hq.owner]
    exact hx.symm
  rw [decide_eq_false ho, Bool.or_false] at hflags
  refine ⟨hflags, fun i => ?_⟩
  have hw := h.words i
  have hp : passed log g i = ∅ := hw.exclusive.passed_of_unclaimed (by rw [hq.control]; rfl)
  have hs : wrote log g i = ∅ := Set.subset_empty_iff.mp (hp ▸ hw.exclusive.writers_pass)
  rw [hp, hs] at hw
  rw [passed, wrote, standing_abort rfl, standing_abort rfl]
  rw [passed] at hp
  rw [wrote] at hs
  rwa [hp, hs, Set.empty_sdiff]

end Kept

namespace Attempted

variable {log : Log W} {g : SegId} {seg : Segment W} {tx : Tx}

theorem rolledBack (h : Attempted log tx g seg) (hx : tx ≠ 0#64) :
    Kept (log ++ [(tx, .abort)]) g (rolledBack tx seg) := by
  refine ⟨(h.flags.aborted hx).reword, fun i => ?_⟩
  obtain ⟨P, Q, hp, hq, hw⟩ := h.words i
  rw [passed, wrote, standing_abort rfl, standing_abort rfl]
  have hroll := hw.rollback tx
  rw [hp, hq] at hroll
  by_cases hi : i < seg.size
  · simpa [Calls.rolledBack, hi, passed, wrote] using hroll
  · have hmiss : (rollbackWord tx (seg.control i)).1 = false := by
      by_contra hit
      have := h.outside i (by omega)
      rw [(rollbackWord_hit.mp (by simpa using hit)).1] at this
      cases this
    rw [rollbackWord_miss hmiss, hmiss] at hroll
    simpa [Calls.rolledBack, hi, passed, wrote] using hroll

/-- A segment that the failing call left alone. -/
theorem idle (h : Kept log g seg) (ho : ∀ i, seg.size ≤ i → wrote log g i = ∅) :
    Attempted log tx g seg where
  flags := h.toFlags
  words i := ⟨_, _, rfl, rfl, h.words i⟩
  outside i hi := (ho i hi ▸ h.words i).unwritten

theorem marked (h : Kept log g seg) (hx : tx ≠ 0#64) {k m : ℕ}
    (ho : ∀ i, seg.size ≤ i → wrote log g i = ∅)
    (ok : ∀ i, inRange k m i = true → (canReadWord tx (seg.control i)).1 = true) :
    Attempted log tx g (marked tx seg k m) where
  flags := h.toFlags.reword
  words i := by
    by_cases hi : inRange k m i = true
    · refine ⟨_, _, Set.insert_sdiff_of_mem _ rfl, rfl, ?_⟩
      simpa [CallEffects.marked, hi] using (h.words i).mark hx (ok i hi)
    · refine ⟨_, _, rfl, rfl, ?_⟩
      simpa [CallEffects.marked, hi] using h.words i
  outside i hi := by
    have hw := (ho i hi ▸ h.words i).unwritten
    by_cases hr : inRange k m i = true <;> simp [CallEffects.marked, hr, hw]

theorem stored (h : Kept log g seg) (hx : tx ≠ 0#64) {k m : ℕ} {src : List W}
    (ho : ∀ i, seg.size ≤ i → wrote log g i = ∅) (hb : k + m ≤ seg.size)
    (ok : ∀ i, inRange k m i = true → (canWriteWord tx (seg.control i)).1 = true) :
    Attempted log tx g (stored tx seg k src m) where
  flags := h.toFlags.reword
  words i := by
    by_cases hi : inRange k m i = true
    · refine ⟨_, _, Set.insert_sdiff_of_mem _ rfl, Set.insert_sdiff_of_mem _ rfl, ?_⟩
      simpa [CallEffects.stored, hi] using
        (h.words i).store hx (ok i hi) ((src[i - k]?).getD (seg.write i))
    · refine ⟨_, _, rfl, rfl, ?_⟩
      simpa [CallEffects.stored, hi] using h.words i
  outside i hi := by
    have hw := (ho i hi ▸ h.words i).unwritten
    have hr : inRange k m i = false := by
      rw [Bool.eq_false_iff, Ne, inRange_iff]
      have : seg.size ≤ i := hi
      omega
    simp [CallEffects.stored, hr, hw]

end Attempted

end EpochBooks
