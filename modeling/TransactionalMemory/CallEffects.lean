import TransactionalMemory.Calls

/-! # What a call does to a tidy region

Between calls every live segment is on one of the two lists, and those on the clean list
are untouched. A successful call touches one segment, a failing one rolls back. -/
namespace CallEffects

open BatcherState
open ControlWord
open RegionState
open Calls

variable {W : Type*}

structure Tidy (r : Region W) : Prop extends Chained r where
  quiet : ∀ g ∈ r.segLinks, Quiescent (r.seg g)

/-- The region after a successful operation that left `seg` in place of segment `g`. -/
def touch (r : Region W) (g : SegId) (seg : Segment W) : Region W :=
  { r with
    seg := Function.update r.seg g { seg with dirty := true }
    segLinks := r.segLinks.erase g
    dirtySegLinks := if g ∈ r.dirtySegLinks then r.dirtySegLinks else r.dirtySegLinks ++ [g] }

/-- The region after an operation of `tx` failed with `seg` in place of segment `g`, up to
`leave_batcher`. -/
def undo (r : Region W) (tx : Tx) (g : SegId) (seg : Segment W) : Region W :=
  { r with
    seg := fun x => if x ∈ r.dirtySegLinks then
      rolledBack tx (if x = g then seg else r.seg x) else r.seg x }

variable {r : Region W} {tx : Tx} {g : SegId} {seg : Segment W}

theorem touch_same : (touch r g seg).seg g = { seg with dirty := true } := by
  simp [touch]

theorem touch_other {x : SegId} (hx : x ≠ g) : (touch r g seg).seg x = r.seg x := by
  simp [touch, hx]

theorem tmCreate_tidy [Zero W] (size : ℕ) : Tidy (tmCreate size : Region W) := by
  refine ⟨tmCreate_chained size, fun g _ => ?_⟩
  constructor <;> simp [tmCreate, allocSegment]

namespace Tidy

theorem clean (h : Tidy r) (hg : g ∈ r.live) (hd : g ∉ r.dirtySegLinks) :
    Quiescent (r.seg g) := h.quiet g (((h.live g).mp hg).resolve_right hd)

theorem dirty_iff (h : Tidy r) (hg : g ∈ r.live) :
    (r.seg g).dirty = true ↔ g ∈ r.dirtySegLinks := by
  refine ⟨fun hd => ?_, h.flagged g⟩
  by_contra hn
  rw [(h.clean hg hn).dirty] at hd
  cases hd

theorem moveToDirty_eq (h : Tidy r) (hg : g ∈ r.live) (hs : seg.dirty = (r.seg g).dirty) :
    moveToDirty (r.setSeg g seg) g = touch r g seg := by
  by_cases hd : g ∈ r.dirtySegLinks
  · have hflag : seg.dirty = true := hs.trans (h.flagged g hd)
    have hoff : g ∉ r.segLinks := fun hc => h.disjoint hc hd
    rw [moveToDirty, if_pos (by simpa using hflag), touch, if_pos hd, List.erase_of_not_mem hoff,
      show ({ seg with dirty := true } : Segment W) = seg by rw [← hflag]]
    rfl
  · have hflag : seg.dirty = false := hs.trans (h.clean hg hd).dirty
    rw [moveToDirty, if_neg (by simpa using hflag), touch, if_neg hd]
    simp [relinkDirty, Region.setSeg, linkRemove, linkInsert]

theorem touched (h : Tidy r) (hg : g ∈ r.live) : Tidy (touch r g seg) := by
  have hclean : ∀ x ∈ r.segLinks.erase g, x ≠ g ∧ x ∈ r.segLinks := fun x hx =>
    (List.nodup_append.mp h.nodup).1.mem_erase_iff.mp hx
  have quiet : ∀ x ∈ r.segLinks.erase g, Quiescent ((touch r g seg).seg x) := by
    intro x hx
    obtain ⟨hne, hin⟩ := hclean x hx
    simpa [touch, hne] using h.quiet x hin
  have flag : ∀ x, (x = g ∨ x ∈ r.dirtySegLinks) → ((touch r g seg).seg x).dirty = true := by
    intro x hx
    by_cases he : x = g
    · subst x
      simp [touch]
    · simpa [touch, he] using h.flagged x (hx.resolve_left he)
  by_cases hd : g ∈ r.dirtySegLinks
  · have hoff : g ∉ r.segLinks := fun hc => h.disjoint hc hd
    refine ⟨h.of_perm ?_ fun x hx => flag x (.inr ?_), quiet⟩
    · rw [if_pos hd, List.erase_of_not_mem hoff]
    · rwa [if_pos hd] at hx
  · have hin : g ∈ r.segLinks := ((h.live g).mp hg).resolve_right hd
    refine ⟨h.of_perm ?_ fun x hx => flag x ?_, quiet⟩
    · rw [if_neg hd]
      exact perm_relink hin
    · rw [if_neg hd, List.mem_append, List.mem_singleton] at hx
      exact hx.symm

theorem alloc [Zero W] (h : Tidy r) (size : ℕ) : Tidy (tmAlloc r tx size) := by
  refine ⟨h.insert _ rfl, fun g hg => ?_⟩
  have hne : g ≠ r.nextSeg := by
    rintro rfl
    exact h.nextSeg_free ((h.live _).mpr (.inl hg))
  rw [show (tmAlloc r tx size).seg g = r.seg g from Region.setSeg_other _ _ _ hne]
  exact h.quiet g hg

theorem undo_eq (h : Tidy r) (hg : g ∈ r.dirtySegLinks) (tx : Tx) :
    rollbackTransaction (r.setSeg g seg) tx = undo r tx g seg := by
  have hn : (r.setSeg g seg).dirtySegLinks.Nodup := (List.nodup_append.mp h.nodup).2.1
  rw [rollbackTransaction_eq hn]
  simp only [undo, Region.setSeg, Region.mk.injEq, true_and, and_true]
  funext x
  by_cases hx : x = g
  · subst x
    simp [hg]
  · simp [hx]

theorem undone (h : Tidy r) (hs : seg.dirty = (r.seg g).dirty) : Tidy (undo r tx g seg) := by
  refine ⟨⟨h.nodup, h.live, fun x hx => ?_, h.fresh⟩, fun x hx => ?_⟩
  · have hd : x ∈ r.dirtySegLinks := hx
    by_cases he : x = g
    · subst x
      simpa [undo, rolledBack, hd, hs] using h.flagged g hd
    · simpa [undo, rolledBack, hd, he] using h.flagged x hd
  · have hd : x ∉ r.dirtySegLinks := h.disjoint hx
    simpa [undo, hd] using h.quiet x hx

theorem cleanup_quiescent (h : Tidy r) (hg : g ∈ (epochCleanup r).live) :
    Quiescent ((epochCleanup r).seg g) := by
  rw [h.cleanup_seg hg]
  split_ifs with hd
  · exact commit_quiescent _
  · exact h.clean (h.cleanup_live.mp hg).1 hd

/-- A segment that is to go is on the dirty list. -/
theorem cleanup_gone (h : Tidy r) (hg : g ∈ r.live) :
    g ∉ (epochCleanup r).live ↔ (r.seg g).dropped = true := by
  rw [h.cleanup_live, not_and, not_not]
  refine ⟨fun hd => (hd hg).2, fun hd _ => ⟨?_, hd⟩⟩
  by_contra hclean
  have hq := h.clean hg hclean
  simp [Segment.dropped, Segment.successFree, Segment.failureAlloc, hq.shouldFree,
    hq.newlyAlloc] at hd

theorem left (h : Tidy r) : Tidy r.leaveBatcher := by
  rw [Region.leaveBatcher]
  split_ifs
  · exact ⟨h.cleanup.withBatcher _, fun g hg =>
      h.cleanup_quiescent (h.cleanup_segLinks.mp hg)⟩
  · exact ⟨h.withBatcher _, h.quiet⟩

end Tidy

/-! ### The outcomes of a call -/

/-- The segment may be used: it is old, or the transaction owns it. -/
def Usable (tx : Tx) (seg : Segment W) : Prop := ¬ (seg.newlyAlloc = true ∧ seg.owner ≠ tx)

theorem readSegment_passes (hu : Usable tx seg)
    (ok : ∀ i, (canReadWord tx (seg.control i)).1 = true) (k n : ℕ) :
    (readSegment tx seg k n).1 = true := by
  rw [readSegment, if_neg hu]
  split_ifs
  · rfl
  · obtain ⟨m, -, -, -, -, hpart⟩ := markWords_spec tx n seg k
    by_contra hno
    have := (hpart (by simpa using hno)).2
    rw [ok] at this
    cases this

theorem writeSegment_passes (hu : Usable tx seg)
    (ok : ∀ i, (canWriteWord tx (seg.control i)).1 = true) {k : ℕ} {src : List W}
    (hk : k + src.length ≤ seg.size) : (writeSegment tx seg k src).1 = true := by
  rw [writeSegment, if_neg hu, if_neg (by omega)]
  obtain ⟨m, -, -, -, -, hpart⟩ := storeWords_spec tx src seg k fun i _ hno => by
    rw [ok] at hno
    cases hno
  by_contra hno
  have := (hpart (by simpa using hno)).2
  rw [ok] at this
  cases this

/-- A segment nobody touched in this epoch refuses nothing. -/
theorem quiescent_read (hq : Quiescent seg) (k n : ℕ) : (readSegment tx seg k n).1 = true := by
  refine readSegment_passes (by simp [Usable, hq.newlyAlloc]) (fun i => ?_) k n
  simp [hq.control, Control.zero, canReadWord]

theorem quiescent_write (hq : Quiescent seg) {k : ℕ} {src : List W}
    (hk : k + src.length ≤ seg.size) : (writeSegment tx seg k src).1 = true := by
  refine writeSegment_passes (by simp [Usable, hq.newlyAlloc]) (fun i => ?_) hk
  simp [hq.control, canWriteWord, Control.zero, Control.claim]

/-- The first `m` words from `k` on passed the guard of a read. -/
def marked (tx : Tx) (seg : Segment W) (k m : ℕ) : Segment W :=
  { seg with
    control := fun i =>
      if inRange k m i then (canReadWord tx (seg.control i)).2 else seg.control i }

/-- The first `m` words of `src` were stored from `k` on. -/
def stored (tx : Tx) (seg : Segment W) (k : ℕ) (src : List W) (m : ℕ) : Segment W :=
  { seg with
    control := fun i =>
      if inRange k m i then (canWriteWord tx (seg.control i)).2 else seg.control i
    write := fun i => if inRange k m i then (src[i - k]?).getD (seg.write i) else seg.write i }

theorem marked_zero (tx : Tx) (seg : Segment W) (k : ℕ) : marked tx seg k 0 = seg := by
  simp [marked, not_inRange_zero]

theorem stored_zero (tx : Tx) (seg : Segment W) (k : ℕ) (src : List W) :
    stored tx seg k src 0 = seg := by
  simp [stored, not_inRange_zero]

theorem tmRead_some (h : Tidy r) (hg : g ∈ r.live) {k n : ℕ} {target : List W} {t : Region W}
    (hr : tmRead r tx g k n = (some target, t)) : Usable tx (r.seg g) ∧
      ((isTxReadonly tx = true ∧ t = r ∧ target = copyOut (r.seg g).read k n) ∨
        (isTxReadonly tx = false ∧
          (∀ i, inRange k n i = true → (canReadWord tx ((r.seg g).control i)).1 = true) ∧
          t = touch r g (marked tx (r.seg g) k n) ∧
          target = copyOut (r.seg g).write k n)) := by
  by_cases hu : (r.seg g).newlyAlloc = true ∧ (r.seg g).owner ≠ tx
  · simp [tmRead, readSegment, hu] at hr
  · refine ⟨hu, ?_⟩
    cases hro : isTxReadonly tx with
    | true =>
      simp only [tmRead, readSegment, if_neg hu, hro, if_true, Prod.mk.injEq,
        Option.some.injEq] at hr
      refine .inl ⟨rfl, ?_, hr.1.symm⟩
      rw [← hr.2]
      simp [Region.setSeg]
    | false =>
      obtain ⟨m, -, hall, hseg, hfull, -⟩ := markWords_spec tx n (r.seg g) k
      cases hok : (markWords tx (r.seg g) k n).1 with
      | false => simp [tmRead, readSegment, hu, hro, hok] at hr
      | true =>
        cases hfull hok
        have hm : (markWords tx (r.seg g) k n).2 = marked tx (r.seg g) k n := hseg
        simp only [tmRead, readSegment, if_neg hu, hro, hok, hm, Bool.false_eq_true, if_false,
          if_true, Prod.mk.injEq, Option.some.injEq] at hr
        refine .inr ⟨rfl, hall, ?_, hr.1.symm⟩
        rw [← hr.2]
        exact h.moveToDirty_eq hg rfl

theorem tmRead_none (h : Tidy r) (hg : g ∈ r.live) {k n : ℕ} {t : Region W}
    (hr : tmRead r tx g k n = (none, t)) : g ∈ r.dirtySegLinks ∧ ∃ m ≤ n,
      (∀ i, inRange k m i = true → (canReadWord tx ((r.seg g).control i)).1 = true) ∧
      t = (undo r tx g (marked tx (r.seg g) k m)).leaveBatcher := by
  have hd : g ∈ r.dirtySegLinks := by
    by_contra hd
    have : (readSegment tx (r.seg g) k n).1 = true := quiescent_read (h.clean hg hd) k n
    simp only [tmRead, this, if_true] at hr
    split_ifs at hr <;> cases hr
  refine ⟨hd, ?_⟩
  by_cases hu : (r.seg g).newlyAlloc = true ∧ (r.seg g).owner ≠ tx
  · refine ⟨0, Nat.zero_le _, fun i hi => by simp [not_inRange_zero] at hi, ?_⟩
    rw [marked_zero, ← h.undo_eq hd]
    simpa [tmRead, readSegment, hu] using hr.symm
  · cases hro : isTxReadonly tx with
    | true => simp [tmRead, readSegment, hu, hro] at hr
    | false =>
      obtain ⟨m, hmn, hall, hseg, -, -⟩ := markWords_spec tx n (r.seg g) k
      have hm : (markWords tx (r.seg g) k n).2 = marked tx (r.seg g) k m := hseg
      cases hok : (markWords tx (r.seg g) k n).1 with
      | true => simp [tmRead, readSegment, hu, hro, hok] at hr
      | false =>
        refine ⟨m, hmn, hall, ?_⟩
        rw [← h.undo_eq hd, ← hm]
        simpa [tmRead, readSegment, hu, hro, hok] using hr.symm

/-- Refused writes leave the control words of the segment alone. -/
def Settled (tx : Tx) (seg : Segment W) : Prop :=
  ∀ i, (canWriteWord tx (seg.control i)).1 = false →
    (canWriteWord tx (seg.control i)).2 = seg.control i

theorem tmWrite_true (h : Tidy r) (hg : g ∈ r.live) (hz : Settled tx (r.seg g)) {k : ℕ}
    {src : List W} {t : Region W} (hr : tmWrite r tx g k src = (true, t)) :
    Usable tx (r.seg g) ∧
      (∀ i, inRange k src.length i = true → (canWriteWord tx ((r.seg g).control i)).1 = true) ∧
      t = touch r g (stored tx (r.seg g) k src src.length) := by
  by_cases hu : (r.seg g).newlyAlloc = true ∧ (r.seg g).owner ≠ tx
  · simp [tmWrite, writeSegment, hu] at hr
  · refine ⟨hu, ?_⟩
    by_cases hk : k > (r.seg g).size
    · simp [tmWrite, writeSegment, hu, hk] at hr
    · obtain ⟨m, -, hall, hseg, hfull, -⟩ := storeWords_spec tx src (r.seg g) k fun i _ => hz i
      cases hok : (storeWords tx (r.seg g) k src).1 with
      | false => simp [tmWrite, writeSegment, hu, hk, hok] at hr
      | true =>
        cases hfull hok
        have hm : (storeWords tx (r.seg g) k src).2 = stored tx (r.seg g) k src src.length :=
          hseg
        simp only [tmWrite, writeSegment, if_neg hu, if_neg hk, hok, hm, if_true, Prod.mk.injEq,
          true_and] at hr
        refine ⟨hall, ?_⟩
        rw [← hr]
        exact h.moveToDirty_eq hg rfl

theorem tmWrite_false (h : Tidy r) (hg : g ∈ r.live) (hz : Settled tx (r.seg g)) {k : ℕ}
    {src : List W} {t : Region W} (hk : k + src.length ≤ (r.seg g).size)
    (hr : tmWrite r tx g k src = (false, t)) : g ∈ r.dirtySegLinks ∧ ∃ m ≤ src.length,
      (∀ i, inRange k m i = true → (canWriteWord tx ((r.seg g).control i)).1 = true) ∧
      t = (undo r tx g (stored tx (r.seg g) k src m)).leaveBatcher := by
  have hd : g ∈ r.dirtySegLinks := by
    by_contra hd
    have : (writeSegment tx (r.seg g) k src).1 = true := quiescent_write (h.clean hg hd) hk
    simp [tmWrite, this] at hr
  refine ⟨hd, ?_⟩
  by_cases hu : (r.seg g).newlyAlloc = true ∧ (r.seg g).owner ≠ tx
  · refine ⟨0, Nat.zero_le _, fun i hi => by simp [not_inRange_zero] at hi, ?_⟩
    rw [stored_zero, ← h.undo_eq hd]
    simpa [tmWrite, writeSegment, hu] using hr.symm
  · obtain ⟨m, hm, hall, hseg, -, -⟩ := storeWords_spec tx src (r.seg g) k fun i _ => hz i
    have hstored : (storeWords tx (r.seg g) k src).2 = stored tx (r.seg g) k src m := hseg
    have hk' : ¬ k > (r.seg g).size := by omega
    cases hok : (storeWords tx (r.seg g) k src).1 with
    | true => simp [tmWrite, writeSegment, hu, hk', hok] at hr
    | false =>
      refine ⟨m, hm, hall, ?_⟩
      rw [← h.undo_eq hd, ← hstored]
      simpa [tmWrite, writeSegment, hu, hk', hok] using hr.symm

theorem tmFree_eq (h : Tidy r) (hg : g ∈ r.live) :
    tmFree r tx g = touch r g { r.seg g with shouldFree := true, owner := tx } :=
  h.moveToDirty_eq hg rfl

end CallEffects
