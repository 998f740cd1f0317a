import TransactionalMemory.AtomicCalls

/-! # What an epoch deallocates

At the end of an epoch one owner and three flags decide about each segment. They decide
by the last transaction that freed it, whatever the others who freed it did. -/
namespace ExactDeallocation

open TransitionSystem
open ControlWord
open RegionState
open CallLog
open EpochBooks
open CallOutcomes
open AtomicCalls

variable {W : Type*} {s t : State W} {log : Log W} {r : Region W} {g : SegId}
variable {seg : Segment W}

def Discarded (log : Log W) (g : SegId) : Prop :=
  (∃ u, (u, .commit) ∈ log ∧ (u, .free g) ∈ log) ∨
    ∃ u size, (u, .abort) ∈ log ∧ (u, .alloc g size) ∈ log

def Exact (s t : State W) (log : Log W) : Prop :=
  ∀ g ∈ s.region.live, (g ∉ t.region.live ↔ Discarded log g) ∧
    (¬ Discarded log g → g ∈ t.region.segLinks)

/-- A committed transaction freed the segment, but the last one to free it aborted later. -/
def Withheld (log : Log W) (g : SegId) : Prop :=
  Overruled log g ∧ ∃ u, (u, .commit) ∈ log ∧ (u, .free g) ∈ log

theorem allocated_iff (h : Flags log g seg) {u : Tx} :
    (∃ size, (u, .alloc g size) ∈ log) ↔ allocator log g = some u := by
  refine ⟨fun ⟨size, hin⟩ => ?_, mem_of_allocator⟩
  cases ha : allocator log g with
  | none => exact (allocator_isSome hin ha).elim
  | some v => rw [h.own v u _ ha hin rfl]

/-- Once everyone has ended, the last to have freed a segment decides about it. -/
theorem freed_committed (h : Flags log g seg) (hends : Ends used ∅ log)
    (hov : ¬ Overruled log g) {u : Tx} (hfree : (u, .free g) ∈ log) :
    ∃ v, (v, .commit) ∈ log ∧ (v, .free g) ∈ log := by
  have committed : ∀ {v e}, (v, e) ∈ log → holder log g = some v → (v, .commit) ∈ log := by
    intro v e hin hh
    rcases hends.ended v e hin with ha | hc | hb
    · simp at ha
    · exact hc
    · exact (hov (h.unseated v hh hb)).elim
  cases hh : holder log g with
  | none => exact (holder_isSome hfree rfl hh).elim
  | some v =>
    obtain ⟨e, hin, hc⟩ := mem_of_holder hh
    refine ⟨v, committed hin hh, ?_⟩
    cases ha : allocator log g with
    | some w =>
      rw [h.own w v e ha hin hc, ← h.own w u _ ha hfree rfl]
      exact hfree
    | none =>
      cases e with
      | alloc x size =>
        cases hc
        exact (allocator_isSome hin ha).elim
      | free x =>
        cases hc
        exact hin
      | _ => cases hc

theorem dropped_exact (h : Flags log g seg) (hends : Ends used ∅ log) :
    (seg.dropped = true ↔ Discarded log g) ↔ ¬ Withheld log g := by
  have hnew : (∃ u size, (u, .abort) ∈ log ∧ (u, .alloc g size) ∈ log) ↔
      Overruled log g ∧ ∃ u, allocator log g = some u := by
    constructor
    · rintro ⟨u, size, hb, ha⟩
      have halloc := (allocated_iff h).mp ⟨size, ha⟩
      exact ⟨(h.overruled_new halloc).mpr hb, u, halloc⟩
    · rintro ⟨hov, u, halloc⟩
      obtain ⟨size, ha⟩ := mem_of_allocator halloc
      exact ⟨u, size, (h.overruled_new halloc).mp hov, ha⟩
  rw [h.dropped_iff, Discarded, hnew, Withheld]
  by_cases hov : Overruled log g
  · -- only an allocation of an aborted transaction goes
    simp only [hov, not_true, false_and, true_and, false_or]
    constructor
    · rintro hiff ⟨u, hc, hf⟩
      obtain ⟨v, halloc⟩ := hiff.mpr (.inl ⟨u, hc, hf⟩)
      have := h.own v u _ halloc hf rfl
      subst v
      exact hends.once u hc ((h.overruled_new halloc).mp hov)
    · intro hno
      exact (or_iff_right hno).symm
  · simp only [hov, not_false_eq_true, true_and, false_and, or_false, iff_true]
    exact ⟨fun ⟨u, hf⟩ => freed_committed h hends hov hf, fun ⟨u, _, hf⟩ => ⟨u, hf⟩⟩

theorem closing_live (h : Closing s t log r) (hg : g ∈ s.region.live) :
    g ∉ t.region.live ↔ (r.seg g).dropped = true := by
  rw [h.region]
  exact h.books.tidy.cleanup_gone (h.live ▸ hg)

theorem closing_clean (h : Closing s t log r) (hg : g ∈ t.region.live) :
    g ∈ t.region.segLinks := by
  rw [h.region] at hg ⊢
  exact h.books.tidy.cleanup_segLinks.mpr hg

variable [Zero W]

/-- An epoch deallocates exactly what it should if and only if, of every segment that a
committed transaction freed, no transaction aborted while it was the last to have freed
it. -/
theorem exact_deallocation {size : ℕ} (h : Reachable (system W size) Lawful s) {e : Event W}
    (hp : Lawful s e) (ht : step s e = some t) (hc : t.closed = s.closed ++ [log]) :
    Exact s t log ↔ ∀ g, ¬ Withheld log g := by
  obtain ⟨r, hclose⟩ := step_closing (reachable_invariant h) hp ht hc
  have flags : ∀ g ∈ s.region.live, Flags log g (r.seg g) := fun g hg =>
    (hclose.books.kept g (hclose.live ▸ hg)).toFlags
  have right : ∀ g ∈ s.region.live,
      (g ∉ t.region.live ↔ Discarded log g) ↔ ¬ Withheld log g := by
    intro g hg
    rw [closing_live hclose hg]
    exact dropped_exact (flags g hg) hclose.ends
  constructor
  · intro hex g hw
    obtain ⟨u, -, hf⟩ := hw.2
    have hg : g ∈ s.region.live := hclose.live ▸ (hclose.books.filed u _ hf).claimed g rfl
    exact (right g hg).mp (hex g hg).1 hw
  · intro hno g hg
    have hiff := (right g hg).mpr (hno g)
    refine ⟨hiff, fun hd => closing_clean hclose ?_⟩
    by_contra hgone
    exact hd (hiff.mp hgone)

omit [Zero W] in
theorem not_withheld (h : ∀ x ∈ log, x.2 ≠ .abort) (g : SegId) : ¬ Withheld log g := by
  rintro ⟨⟨pre, u, post, rfl, -⟩, -⟩
  exact h (u, .abort) (by simp) rfl

/-- Transaction 1 allocates segment 1 while 2 and 3 wait. In the next epoch 2 writes and 3
frees the segment. -/
def shareSegment : List (Event ℕ) :=
  [.begin false, .begin false, .begin false, .alloc 1 1 true, .finish 1,
    .write 2 0 0 [7], .free 3 1]

def committing : State ℕ :=
  (run (system ℕ 1) (initial 1) (shareSegment ++ [.finish 2])).getD (initial 1)

theorem exact_deallocation_committed :
    Exact committing (call committing (.finish 3)) (committing.log ++ [(3, .commit)]) ∧
      1 ∉ (call committing (.finish 3)).region.live := by
  have hr : Reachable (system ℕ 1) Lawful committing :=
    Reachable.run (.init rfl) (shareSegment ++ [.finish 2]) (by decide) rfl
  refine ⟨(exact_deallocation (e := .finish 3) hr trivial rfl rfl).mpr ?_, by decide⟩
  exact not_withheld (by decide)

def withhold : List (Event ℕ) :=
  [.begin false, .begin false, .begin false, .alloc 1 1 true, .finish 1,
    .write 3 0 0 [7], .free 3 1, .free 2 1, .write 2 0 0 [5]]
def withholding : State ℕ := (run (system ℕ 1) (initial 1) withhold).getD (initial 1)

theorem free_withheld : Reachable (system ℕ 1) Lawful withholding ∧
    step withholding (.finish 3) = some (call withholding (.finish 3)) ∧
    (call withholding (.finish 3)).closed =
      withholding.closed ++ [withholding.log ++ [(3, .commit)]] ∧
    (3, .free 1) ∈ withholding.log ∧ 1 ∈ (call withholding (.finish 3)).region.live ∧
    ¬ Exact withholding (call withholding (.finish 3)) (withholding.log ++ [(3, .commit)]) := by
  have hlive : 1 ∈ (call withholding (.finish 3)).region.live := by decide
  refine ⟨Reachable.run (.init rfl) withhold (by decide) rfl, rfl, rfl, by decide, hlive, ?_⟩
  intro hex
  refine (hex 1 (by decide)).1.mpr (.inl ⟨3, ?_, ?_⟩) hlive <;> decide

end ExactDeallocation
