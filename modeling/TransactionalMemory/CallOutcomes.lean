import TransactionalMemory.EpochBooks

/-! # The outcomes of a call, and the books of the region

A call succeeds and is logged, or fails and rolls its transaction back. In both cases all
live segments still agree with the log. -/
namespace CallOutcomes

open BatcherState
open ControlWord
open RegionState
open Calls
open CallEffects
open CallLog
open EpochBooks

variable {W : Type*}

/-- An entry of the log speaks of live segments and of words they have. -/
structure Filed (r : Region W) (u : Tx) (e : Entry W) : Prop where
  named : u ≠ 0#64
  bounds : ∀ g i, e.accesses g i = true → g ∈ r.live ∧ i < (r.seg g).size
  claimed : ∀ g, e.claims = some g → g ∈ r.live

structure Books (log : Log W) (r : Region W) : Prop where
  tidy : Tidy r
  filed : ∀ u e, (u, e) ∈ log → Filed r u e
  kept : ∀ g ∈ r.live, Kept log g (r.seg g)

/-- A successful call of `tx`: the entry it logs and the region it leaves. -/
inductive Done [Zero W] (log : Log W) (r : Region W) (tx : Tx) : Entry W → Region W → Prop where
  | readCopy {g k n} : g ∈ r.live → k + n ≤ (r.seg g).size → Usable tx (r.seg g) →
      isTxReadonly tx = true → Done log r tx (.read g k (copyOut (r.seg g).read k n)) r
  | read {g k n} : g ∈ r.live → k + n ≤ (r.seg g).size → Usable tx (r.seg g) →
      isTxReadonly tx = false →
      (∀ i, inRange k n i = true → (canReadWord tx ((r.seg g).control i)).1 = true) →
      Done log r tx (.read g k (copyOut (r.seg g).write k n))
        (touch r g (marked tx (r.seg g) k n))
  | write {g k src} : g ∈ r.live → k + src.length ≤ (r.seg g).size → Usable tx (r.seg g) →
      (∀ i, inRange k src.length i = true → (canWriteWord tx ((r.seg g).control i)).1 = true) →
      Done log r tx (.write g k src) (touch r g (stored tx (r.seg g) k src src.length))
  | alloc {size} : Done log r tx (.alloc r.nextSeg size) (tmAlloc r tx size)
  | free {g} : g ∈ r.live → allocator log g = none ∨ allocator log g = some tx →
      Done log r tx (.free g) (touch r g { r.seg g with shouldFree := true, owner := tx })

/-- A failing call of `tx`: the region up to `leave_batcher`. -/
inductive Failed (r : Region W) (tx : Tx) : Region W → Prop where
  | read {g k m} : g ∈ r.dirtySegLinks → k + m ≤ (r.seg g).size →
      (∀ i, inRange k m i = true → (canReadWord tx ((r.seg g).control i)).1 = true) →
      Failed r tx (undo r tx g (marked tx (r.seg g) k m))
  | write {g k m src} : g ∈ r.dirtySegLinks → k + m ≤ (r.seg g).size →
      (∀ i, inRange k m i = true → (canWriteWord tx ((r.seg g).control i)).1 = true) →
      Failed r tx (undo r tx g (stored tx (r.seg g) k src m))

theorem done_nextSeg [Zero W] {log : Log W} {r t : Region W} {tx : Tx} {e : Entry W}
    (h : Done log r tx e t) : r.nextSeg ≤ t.nextSeg := by
  cases h <;> simp [touch, tmAlloc]

theorem copyOut_length (copy : ℕ → W) (k n : ℕ) : (copyOut copy k n).length = n := by
  simp [copyOut]

/-- A read that does not fail returns as many words as were asked for. -/
theorem tmRead_length {r t : Region W} {tx : Tx} {g : SegId} {k n : ℕ}
    {target : List W} (h : tmRead r tx g k n = (some target, t)) : target.length = n := by
  simp only [tmRead] at h
  split_ifs at h <;> cases h <;> exact copyOut_length ..

theorem Entry.accesses_read {g x : SegId} {k i : ℕ} {target : List W}
    (h : (Entry.read g k target).accesses x i = true) : x = g ∧ inRange k target.length i = true := by
  simp only [Entry.accesses, Bool.and_eq_true, decide_eq_true_eq] at h
  exact ⟨h.1.symm, h.2⟩

theorem Entry.accesses_write {g x : SegId} {k i : ℕ} {src : List W}
    (h : (Entry.write g k src).accesses x i = true) : x = g ∧ inRange k src.length i = true := by
  simp only [Entry.accesses, Bool.and_eq_true, decide_eq_true_eq] at h
  exact ⟨h.1.symm, h.2⟩

theorem filed_end (r : Region W) {tx : Tx} (hx : tx ≠ 0#64) {e : Entry W}
    (he : e = .commit ∨ e = .abort) : Filed r tx e := by
  rcases he with rfl | rfl
  · exact ⟨hx, nofun, nofun⟩
  · exact ⟨hx, nofun, nofun⟩

theorem filed_snoc {log : Log W} {r t : Region W} {tx : Tx} {e : Entry W}
    (h : ∀ u e, (u, e) ∈ log → Filed r u e) (hl : r.live ⊆ t.live)
    (hs : ∀ g ∈ r.live, (t.seg g).size = (r.seg g).size) (he : Filed t tx e) :
    ∀ u e', (u, e') ∈ log ++ [(tx, e)] → Filed t u e' := by
  intro u e' hin
  rcases mem_snoc.mp hin with hin | hin
  · have hf := h u e' hin
    refine ⟨hf.named, fun g i ha => ?_, fun g hc => hl (hf.claimed g hc)⟩
    obtain ⟨hg, hi⟩ := hf.bounds g i ha
    exact ⟨hl hg, (hs g hg).symm ▸ hi⟩
  · cases hin
    exact he

namespace Books

variable {log : Log W} {r t : Region W} {tx : Tx} {e : Entry W} {g : SegId} {seg : Segment W}

theorem settled (h : Books log r) (hg : g ∈ r.live) (tx : Tx) : Settled tx (r.seg g) :=
  fun i no => (((h.kept g hg).words i).exclusive.write_refused no).1

theorem outside (h : Books log r) {i : ℕ} (hi : (r.seg g).size ≤ i) : wrote log g i = ∅ := by
  apply Set.eq_empty_of_forall_notMem
  rintro u ⟨-, e, hin, hs⟩
  cases hb : e.accesses g i with
  | false =>
    have hw : e.stores g i = true := hs
    rw [(Entry.marks_of_far hb u).1] at hw
    cases hw
  | true =>
    have := ((h.filed u e hin).bounds g i hb).2
    omega

theorem unmarked (h : Books log r) (hf : Filed r tx e) (hn : (tx, .abort) ∉ log)
    (he : e ≠ .abort) (hm : ∀ g i, e.marks tx g i = false) (hc : e.claims = none) :
    Books (log ++ [(tx, e)]) r where
  tidy := h.tidy
  filed := filed_snoc h.filed (Finset.Subset.refl _) (fun _ _ => rfl) hf
  kept g hg := (h.kept g hg).unmarked he hn (hm g) (by simp [hc])

theorem commit (h : Books log r) (hx : tx ≠ 0#64) (hn : (tx, .abort) ∉ log) :
    Books (log ++ [(tx, .commit)]) r :=
  h.unmarked (filed_end r hx (.inl rfl)) hn (by simp)
    (fun _ _ => rfl) rfl

/-- The call replaces segment `g` and speaks of no other. -/
theorem touched (h : Books log r) (hg : g ∈ r.live) (hx : tx ≠ 0#64) (hn : (tx, .abort) ∉ log)
    (he : e ≠ .abort) (hs : seg.size = (r.seg g).size)
    (hb : ∀ x i, e.accesses x i = true → x = g ∧ i < (r.seg g).size)
    (hc : ∀ x, e.claims = some x → x = g) (hk : Kept (log ++ [(tx, e)]) g seg) :
    Books (log ++ [(tx, e)]) (touch r g seg) := by
  have size : ∀ x, ((touch r g seg).seg x).size = (r.seg x).size := by
    intro x
    by_cases hx : x = g
    · rw [hx, touch_same]
      exact hs
    · rw [touch_other hx]
  refine ⟨h.tidy.touched hg, filed_snoc h.filed (Finset.Subset.refl _) (fun x _ => size x) ?_,
    fun x hlive => ?_⟩
  · refine ⟨hx, fun x i ha => ?_, fun x ha => hc x ha ▸ hg⟩
    obtain ⟨rfl, hi⟩ := hb x i ha
    exact ⟨hg, (size x).symm ▸ hi⟩
  · by_cases hxg : x = g
    · rw [hxg, touch_same]
      exact ⟨hk.toFlags.reword, hk.words⟩
    · rw [touch_other hxg]
      refine (h.kept x hlive).unmarked he hn (fun i => ?_) fun hf => hxg (hc x hf)
      have far : e.accesses x i = false := by
        by_contra ha
        exact hxg (hb x i (by simpa using ha)).1
      exact (Entry.marks_of_far far tx).2

theorem alloc [Zero W] (h : Books log r) (hx : tx ≠ 0#64) (hn : (tx, .abort) ∉ log)
    (size : ℕ) : Books (log ++ [(tx, .alloc r.nextSeg size)]) (tmAlloc r tx size) := by
  have fresh : ∀ g ∈ r.live, g ≠ r.nextSeg := fun g hg he => h.tidy.nextSeg_free (he ▸ hg)
  have old : ∀ g ∈ r.live, (tmAlloc r tx size).seg g = r.seg g := fun g hg =>
    Region.setSeg_other _ _ _ (fresh g hg)
  have new : (tmAlloc r tx size).seg r.nextSeg = allocSegment size tx := Region.setSeg_same _ _ _
  refine ⟨h.tidy.alloc size, filed_snoc h.filed (Finset.subset_insert _ _)
    (fun g hg => by rw [old g hg]) ?_, fun x hlive => ?_⟩
  · refine ⟨hx, nofun, fun x hc => ?_⟩
    cases hc
    exact Finset.mem_insert_self _ _
  · rcases Finset.mem_insert.mp hlive with rfl | hlive
    · rw [new]
      refine Kept.alloc size hn fun u e' hin => ⟨fun i => ?_, fun hc => ?_⟩
      · by_contra ha
        exact h.tidy.nextSeg_free ((h.filed u e' hin).bounds _ i (by simpa using ha)).1
      · exact h.tidy.nextSeg_free ((h.filed u e' hin).claimed _ hc)
    · rw [old x hlive]
      refine (h.kept x hlive).unmarked (by simp) hn (fun i => rfl) fun hc => ?_
      exact fresh x hlive (Option.some.inj hc).symm

/-- A successful call keeps the books. -/
theorem done [Zero W] (h : Books log r) (hx : tx ≠ 0#64) (hn : (tx, .abort) ∉ log)
    (hd : Done log r tx e t) : Books (log ++ [(tx, e)]) t := by
  cases hd with
  | @readCopy g k n hg hb hu hro =>
    refine h.unmarked ⟨hx, fun x i ha => ?_, nofun⟩ hn (by simp)
      (fun x i => ?_) rfl
    · obtain ⟨rfl, hi⟩ := Entry.accesses_read ha
      rw [copyOut_length, inRange_iff] at hi
      exact ⟨hg, by omega⟩
    · simp [Entry.marks, Entry.stores, hro]
  | @read g k n hg hb hu hro ok =>
    refine h.touched hg hx hn (by simp) rfl (fun x i ha => ?_) (fun x hc => by cases hc) ?_
    · obtain ⟨rfl, hi⟩ := Entry.accesses_read ha
      rw [copyOut_length, inRange_iff] at hi
      exact ⟨rfl, by omega⟩
    · have hlen : (copyOut (r.seg g).write k n).length = n := copyOut_length _ _ _
      have ok' : ∀ i, inRange k (copyOut (r.seg g).write k n).length i = true →
          (canReadWord tx ((r.seg g).control i)).1 = true := by rwa [hlen]
      have := (h.kept g hg).read hx hn hro ok'
      rwa [hlen] at this
  | @write g k src hg hb hu ok =>
    refine h.touched hg hx hn (by simp) rfl (fun x i ha => ?_) (fun x hc => by cases hc) ?_
    · obtain ⟨rfl, hi⟩ := Entry.accesses_write ha
      rw [inRange_iff] at hi
      exact ⟨rfl, by omega⟩
    · exact (h.kept g hg).write hx hn ok
  | alloc => exact h.alloc hx hn _
  | @free g hg ho =>
    refine h.touched hg hx hn (by simp) rfl (fun x i ha => by cases ha) (fun x hc => ?_) ?_
    · exact (Option.some.inj hc).symm
    · exact (h.kept g hg).freed hn ho

theorem undone (h : Books log r) (hx : tx ≠ 0#64) (hs : seg.size = (r.seg g).size)
    (hd : seg.dirty = (r.seg g).dirty) (ha : Attempted log tx g seg) :
    Books (log ++ [(tx, .abort)]) (undo r tx g seg) := by
  have size : ∀ x, ((undo r tx g seg).seg x).size = (r.seg x).size := by
    intro x
    by_cases hx : x ∈ r.dirtySegLinks
    · by_cases hxg : x = g
      · subst x
        simpa [undo, hx, rolledBack] using hs
      · simp [undo, hx, hxg, rolledBack]
    · simp [undo, hx]
  refine ⟨h.tidy.undone hd, filed_snoc h.filed (Finset.Subset.refl _) (fun x _ => size x)
    (filed_end _ hx (.inr rfl)), fun x hxl => ?_⟩
  by_cases hdirty : x ∈ r.dirtySegLinks
  · have he : (undo r tx g seg).seg x = rolledBack tx (if x = g then seg else r.seg x) := by
      simp [undo, hdirty]
    rw [he]
    refine Attempted.rolledBack ?_ hx
    split_ifs with hxg
    · exact hxg ▸ ha
    · exact Attempted.idle (h.kept x hxl) fun i hi => h.outside hi
  · have he : (undo r tx g seg).seg x = r.seg x := by simp [undo, hdirty]
    rw [he]
    exact (h.kept x hxl).aborted_clean (h.tidy.clean hxl hdirty) hx

/-- A failing call keeps the books. -/
theorem failed (h : Books log r) (hx : tx ≠ 0#64) (hf : Failed r tx t) :
    Books (log ++ [(tx, .abort)]) t := by
  cases hf with
  | read hd hb ok =>
    have hg := (h.tidy.live _).mpr (.inr hd)
    exact h.undone hx rfl rfl (Attempted.marked (h.kept _ hg) hx (fun i hi => h.outside hi) ok)
  | write hd hb ok =>
    have hg := (h.tidy.live _).mpr (.inr hd)
    exact h.undone hx rfl rfl
      (Attempted.stored (h.kept _ hg) hx (fun i hi => h.outside hi) hb ok)

/-- An allocation obtains a block that was not in use. -/
theorem done_fresh [Zero W] (h : Books log r) (hd : Done log r tx e t) {size : ℕ}
    (he : e = .alloc g size) : g ∉ r.live := by
  cases hd <;> cases he
  exact h.tidy.nextSeg_free

theorem withBatcher (h : Books log r) (b : Batcher Tx) : Books log { r with batcher := b } :=
  ⟨⟨h.tidy.toChained.withBatcher b, h.tidy.quiet⟩, fun u e hin => ⟨(h.filed u e hin).named, (h.filed u e hin).bounds,
    (h.filed u e hin).claimed⟩, h.kept⟩

/-- `epoch_cleanup` opens an empty log. -/
theorem closed (h : Tidy r) (b : Batcher Tx) :
    Books ([] : Log W) { epochCleanup r with batcher := b } where
  tidy := ⟨h.cleanup.withBatcher b, fun _ hg => h.cleanup_quiescent (h.cleanup_segLinks.mp hg)⟩
  filed := nofun
  kept _ hg := Kept.fresh (h.cleanup_quiescent hg)

end Books

end CallOutcomes
