import TransactionalMemory.LockLevelInvariant

/-! # Epoch quiescence

When `epoch_cleanup` has completed, every live segment is as a fresh epoch needs it, the
segments it did not visit included. -/
namespace EpochQuiescence

open TransitionSystem
open RegionState
open LockLevel

variable {W : Type*} [Zero W]

/-- The last conjunct is the reason: a segment with a marked word was on the dirty list,
even if only operations that failed midway had marked it. -/
theorem epoch_quiescence {size : ℕ} {s t : State W} {e : Event W}
    (h : Reachable (system W size) Lawful s) (hs : step s e = some t)
    (hc : ClosesEpoch s e) :
    t.region.dirtySegLinks = [] ∧
    (∀ g ∈ t.region.live, g ∈ t.region.segLinks ∧ Quiescent (t.region.seg g)) ∧
    (∀ u g i, Passed s u g i → g ∈ s.region.dirtySegLinks) := by
  have hi := reachable_invariant h
  obtain ⟨tx, p, hclose, rfl⟩ := closing_step hs hc
  refine ⟨?_, fun g hg => ⟨?_, hclose.quiescent hi hg⟩, fun u g i hp => hclose.marked_dirty hi hp⟩
  · rw [hclose.region]
    exact hi.lists.cleanup_dirty
  · rw [hclose.region] at hg ⊢
    exact hi.lists.cleanup_segLinks.mpr hg

/-- Two transactions of one epoch: 1 writes word 1, 2 writes word 0 and is refused word 1. -/
def overlap : List (Event ℕ) :=
  [.begin 3, .begin 1, .begin 2, .call 3 .finish, .advance 3,
    .call 1 (.write 0 1 [7])] ++ List.replicate 7 (.advance 1) ++
    [.call 2 (.write 0 0 [5, 6])] ++ List.replicate 11 (.advance 2) ++ [.call 1 .finish]
def overlapped : State ℕ := (run (system ℕ 2) (initial 2) overlap).getD (initial 2)

theorem overlapped_reachable : Reachable (system ℕ 2) Lawful overlapped :=
  Reachable.run (.init rfl) overlap (by decide) rfl

theorem epoch_quiescence_overlapped : ∃ t, step overlapped (.advance 1) = some t ∧
    t.region.dirtySegLinks = [] ∧ Quiescent (t.region.seg 0) ∧
    0 ∈ overlapped.region.dirtySegLinks := by
  obtain ⟨t, ht⟩ : ∃ t, step overlapped (.advance 1) = some t := ⟨_, rfl⟩
  obtain ⟨hd, hq, hm⟩ := epoch_quiescence overlapped_reachable ht ⟨.inr rfl, by decide⟩
  have live : 0 ∈ t.region.live := by
    cases ht
    decide
  exact ⟨t, ht, hd, (hq 0 live).2, hm 1 0 1 (.inr (by decide))⟩

end EpochQuiescence
