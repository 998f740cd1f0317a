import Mathlib.Data.List.Nodup
import Mathlib.Logic.Function.Basic
import TransactionalMemory.BatcherState
import TransactionalMemory.ControlWord

/-! # The shared region

Segments, the clean and the dirty list, and `epoch_cleanup`. Sizes and offsets count
words of `align` bytes; a data word is an element of `W`. An array of a segment is a
function of which the first `size` entries count. Blocks are named in allocation order,
and a list stands for the circular chain of its links, its head for the base pointer. -/
namespace RegionState

open BatcherState
open ControlWord

abbrev SegId := ℕ

structure Segment (W : Type*) where
  size : ℕ
  owner : Tx
  newlyAlloc : Bool
  shouldFree : Bool
  dirty : Bool
  rollback : Bool
  control : ℕ → Control
  read : ℕ → W
  write : ℕ → W

/-- `live` are the blocks obtained and not yet released. -/
structure Region (W : Type*) where
  batcher : Batcher Tx
  seg : SegId → Segment W
  live : Finset SegId
  segLinks : List SegId
  dirtySegLinks : List SegId
  start : SegId
  nextSeg : SegId

variable {W : Type*}

def allocSegment [Zero W] (size : ℕ) (tx : Tx) : Segment W :=
  ⟨size, tx, true, false, true, false, fun _ => .zero, fun _ => 0, fun _ => 0⟩

def linkInsert (base : List SegId) (g : SegId) : List SegId := base ++ [g]
def linkRemove (base : List SegId) (g : SegId) : List SegId := base.erase g

def tmCreate [Zero W] (size : ℕ) : Region W where
  batcher := initBatcher
  seg := fun _ => { allocSegment size 0#64 with dirty := false, newlyAlloc := false }
  live := {0}
  segLinks := linkInsert [] 0
  dirtySegLinks := []
  start := 0
  nextSeg := 1

def Region.setSeg (r : Region W) (g : SegId) (seg : Segment W) : Region W :=
  { r with seg := Function.update r.seg g seg }

/-- The part of `move_to_dirty` that holds `link_lock`. -/
def relinkDirty (r : Region W) (g : SegId) : Region W :=
  { r with
    segLinks := linkRemove r.segLinks g
    dirtySegLinks := linkInsert r.dirtySegLinks g }

def moveToDirty (r : Region W) (g : SegId) : Region W :=
  if (r.seg g).dirty then r
  else relinkDirty (r.setSeg g { r.seg g with dirty := true }) g

/-- The part of `move_to_clean` that holds `link_lock`. -/
def relinkClean (r : Region W) (g : SegId) : Region W :=
  { r with
    segLinks := linkInsert r.segLinks g
    dirtySegLinks := linkRemove r.dirtySegLinks g }

def moveToClean (r : Region W) (g : SegId) : Region W :=
  if (r.seg g).dirty then relinkClean (r.setSeg g { r.seg g with dirty := false }) g
  else r

def Segment.successFree (seg : Segment W) : Bool := !seg.rollback && seg.shouldFree
def Segment.failureAlloc (seg : Segment W) : Bool := seg.rollback && seg.newlyAlloc

/-- `memset(control, 0, _); memcpy(read, write, _)` -/
def Segment.commit (seg : Segment W) : Segment W :=
  { seg with control := fun _ => .zero, read := seg.write }

def Segment.resetFlags (seg : Segment W) : Segment W :=
  { seg with
    owner := 0#64, newlyAlloc := false, shouldFree := false, dirty := false, rollback := false }

/-- One turn of the loop of `epoch_cleanup`. -/
def cleanupLink (r : Region W) (g : SegId) : Region W :=
  if (r.seg g).successFree || (r.seg g).failureAlloc then
    { r with dirtySegLinks := linkRemove r.dirtySegLinks g, live := r.live.erase g }
  else
    let r := moveToClean (r.setSeg g (r.seg g).commit) g
    r.setSeg g (r.seg g).resetFlags

/-- The links from `base->next` to `base`, the order of every walk in the source. -/
def walk : List SegId → List SegId
  | [] => []
  | base :: rest => rest ++ [base]

def epochCleanup (r : Region W) : Region W := (walk r.dirtySegLinks).foldl cleanupLink r

/-- `leave_batcher`: the last to leave closes the epoch. -/
def Region.leaveBatcher (r : Region W) : Region W :=
  if lastToLeave r.batcher then
    { epochCleanup r with batcher := BatcherState.leaveBatcher r.batcher }
  else { r with batcher := BatcherState.leaveBatcher r.batcher }

/-- A segment between epochs: no marks, equal copies, flags and owner reset. -/
structure Quiescent (seg : Segment W) : Prop where
  control : ∀ i, seg.control i = .zero
  equal : seg.write = seg.read
  owner : seg.owner = 0#64
  newlyAlloc : seg.newlyAlloc = false
  shouldFree : seg.shouldFree = false
  dirty : seg.dirty = false
  rollback : seg.rollback = false

theorem commit_quiescent (seg : Segment W) : Quiescent seg.commit.resetFlags :=
  ⟨fun _ => rfl, rfl, rfl, rfl, rfl, rfl, rfl⟩

/-- `epoch_cleanup` deallocates the segment. -/
def Segment.dropped (seg : Segment W) : Bool := seg.successFree || seg.failureAlloc

@[simp] theorem mem_walk {l : List SegId} {g : SegId} : g ∈ walk l ↔ g ∈ l := by
  cases l <;> simp [walk, or_comm]

theorem walk_nodup {l : List SegId} (h : l.Nodup) : (walk l).Nodup := by
  cases l with
  | nil => exact h
  | cons base rest =>
    rw [List.nodup_cons] at h
    simpa [walk, List.nodup_append] using ⟨h.2, fun a ha hb => h.1 (hb ▸ ha)⟩

namespace Region

variable (r : Region W) (g : SegId) (seg : Segment W)

@[simp] theorem setSeg_same : (r.setSeg g seg).seg g = seg := by simp [setSeg]
theorem setSeg_other {x : SegId} (h : x ≠ g) : (r.setSeg g seg).seg x = r.seg x := by
  simp [setSeg, h]
@[simp] theorem setSeg_batcher : (r.setSeg g seg).batcher = r.batcher := rfl
@[simp] theorem setSeg_live : (r.setSeg g seg).live = r.live := rfl
@[simp] theorem setSeg_segLinks : (r.setSeg g seg).segLinks = r.segLinks := rfl
@[simp] theorem setSeg_dirtySegLinks : (r.setSeg g seg).dirtySegLinks = r.dirtySegLinks := rfl
@[simp] theorem setSeg_start : (r.setSeg g seg).start = r.start := rfl
@[simp] theorem setSeg_nextSeg : (r.setSeg g seg).nextSeg = r.nextSeg := rfl

end Region

/-- What the loop of `epoch_cleanup` does to a region when it has visited the links `l`. -/
structure Cleaned (r t : Region W) (l : List SegId) : Prop where
  batcher : t.batcher = r.batcher
  start : t.start = r.start
  nextSeg : t.nextSeg = r.nextSeg
  live : ∀ g, g ∈ t.live ↔ g ∈ r.live ∧ ¬ (g ∈ l ∧ (r.seg g).dropped = true)
  seg_kept : ∀ g ∈ l, (r.seg g).dropped = false → t.seg g = (r.seg g).commit.resetFlags
  seg_other : ∀ g, g ∉ l → t.seg g = r.seg g
  segLinks : t.segLinks = r.segLinks ++ l.filter fun g => !(r.seg g).dropped
  dirty : ∀ g, g ∈ t.dirtySegLinks ↔ g ∈ r.dirtySegLinks ∧ g ∉ l

theorem cleanupLink_dropped {r : Region W} {g : SegId} (h : (r.seg g).dropped = true) :
    cleanupLink r g = { r with
      dirtySegLinks := linkRemove r.dirtySegLinks g, live := r.live.erase g } := by
  rw [Segment.dropped] at h
  rw [cleanupLink, if_pos h]

theorem cleanupLink_kept {r : Region W} {g : SegId} (h : (r.seg g).dropped = false)
    (hd : (r.seg g).dirty = true) :
    cleanupLink r g = relinkClean (r.setSeg g (r.seg g).commit.resetFlags) g := by
  rw [Segment.dropped] at h
  rw [cleanupLink, h, if_neg (by simp), moveToClean,
    if_pos (by simpa [Segment.commit] using hd)]
  simp [relinkClean, Region.setSeg, Segment.resetFlags]

/-- The loop body touches the segment of its own link only. -/
theorem cleanupLink_other {r : Region W} {g x : SegId} (hd : (r.seg x).dirty = true)
    (hg : g ≠ x) : (cleanupLink r x).seg g = r.seg g := by
  cases hdrop : (r.seg x).dropped with
  | true => rw [cleanupLink_dropped hdrop]
  | false =>
    rw [cleanupLink_kept hdrop hd]
    exact Region.setSeg_other _ _ _ hg

theorem cleanupLink_dirtySegLinks {r : Region W} {x : SegId} (hd : (r.seg x).dirty = true) :
    (cleanupLink r x).dirtySegLinks = r.dirtySegLinks.erase x := by
  cases hdrop : (r.seg x).dropped with
  | true =>
    rw [cleanupLink_dropped hdrop]
    rfl
  | false =>
    rw [cleanupLink_kept hdrop hd]
    rfl

theorem foldl_cleanupLink (l : List SegId) (r : Region W) (hl : l.Nodup)
    (hr : r.dirtySegLinks.Nodup) (hd : ∀ g ∈ l, (r.seg g).dirty = true) :
    Cleaned r (l.foldl cleanupLink r) l := by
  induction l generalizing r with
  | nil => constructor <;> simp
  | cons x l ih =>
    have hx : x ∉ l := (List.nodup_cons.mp hl).1
    rw [List.foldl_cons]
    have hxd : (r.seg x).dirty = true := hd x (by simp)
    have other : ∀ g, g ≠ x → (cleanupLink r x).seg g = r.seg g := fun _ => cleanupLink_other hxd
    have tail : ∀ g ∈ l, (cleanupLink r x).seg g = r.seg g := fun g hg =>
      other g (fun he => hx (he ▸ hg))
    have links := cleanupLink_dirtySegLinks hxd
    have h := ih (cleanupLink r x) (List.nodup_cons.mp hl).2 (links ▸ hr.erase x)
      (fun g hg => by rw [tail g hg]; exact hd g (by simp [hg]))
    have filt : (l.filter fun g => !((cleanupLink r x).seg g).dropped) =
        l.filter fun g => !(r.seg g).dropped :=
      List.filter_congr fun g hg => by rw [tail g hg]
    have rest : ∀ g, g ∉ x :: l → ((l.foldl cleanupLink (cleanupLink r x)).seg g) = r.seg g := by
      intro g hg
      rw [List.mem_cons, not_or] at hg
      rw [h.seg_other g hg.2, other g hg.1]
    have dirty : ∀ g, g ∈ (l.foldl cleanupLink (cleanupLink r x)).dirtySegLinks ↔
        g ∈ r.dirtySegLinks ∧ g ∉ x :: l := by
      intro g
      rw [h.dirty, links, hr.mem_erase_iff, List.mem_cons, not_or]
      tauto
    have kept : ∀ g ∈ l, (r.seg g).dropped = false →
        (l.foldl cleanupLink (cleanupLink r x)).seg g = (r.seg g).commit.resetFlags := by
      intro g hg hdrop
      rw [h.seg_kept g hg (by rw [tail g hg]; exact hdrop), tail g hg]
    cases hdrop : (r.seg x).dropped with
    | true =>
      have he := cleanupLink_dropped hdrop
      refine ⟨by rw [h.batcher, he], by rw [h.start, he], by rw [h.nextSeg, he], ?_, ?_, rest,
        ?_, dirty⟩
      · intro g
        rw [h.live, he]
        by_cases hg : g = x
        · subst g
          simp [hdrop]
        · simp [hg]
      · intro g hg hk
        rcases List.mem_cons.mp hg with rfl | hg
        · rw [hdrop] at hk
          cases hk
        · exact kept g hg hk
      · rw [h.segLinks, filt, he]
        simp [hdrop]
    | false =>
      have he := cleanupLink_kept hdrop hxd
      refine ⟨by rw [h.batcher, he]; rfl, by rw [h.start, he]; rfl, by rw [h.nextSeg, he]; rfl,
        ?_, ?_, rest, ?_, dirty⟩
      · intro g
        rw [h.live]
        by_cases hg : g = x
        · subst g
          simp [he, hx, hdrop, relinkClean]
        · rw [other g hg, he]
          simp [hg, relinkClean]
      · intro g hg hk
        rcases List.mem_cons.mp hg with rfl | hg
        · rw [h.seg_other g hx, he]
          simp [relinkClean]
        · exact kept g hg hk
      · rw [h.segLinks, filt, he]
        simp [relinkClean, linkInsert, hdrop]

theorem epochCleanup_cleaned {r : Region W} (hr : r.dirtySegLinks.Nodup)
    (hd : ∀ g ∈ r.dirtySegLinks, (r.seg g).dirty = true) :
    Cleaned r (epochCleanup r) (walk r.dirtySegLinks) :=
  foldl_cleanupLink _ r (walk_nodup hr) hr fun g hg => hd g (mem_walk.mp hg)

theorem epochCleanup_dirty {r : Region W} (hr : r.dirtySegLinks.Nodup)
    (hd : ∀ g ∈ r.dirtySegLinks, (r.seg g).dirty = true) :
    (epochCleanup r).dirtySegLinks = [] := by
  rw [List.eq_nil_iff_forall_not_mem]
  intro g hg
  have h := ((epochCleanup_cleaned hr hd).dirty g).mp hg
  exact h.2 (mem_walk.mpr h.1)

/-- Every block is on exactly one list, and those on the dirty list are flagged. -/
structure Chained (r : Region W) : Prop where
  nodup : (r.segLinks ++ r.dirtySegLinks).Nodup
  live : ∀ g, g ∈ r.live ↔ g ∈ r.segLinks ∨ g ∈ r.dirtySegLinks
  flagged : ∀ g ∈ r.dirtySegLinks, (r.seg g).dirty = true
  fresh : ∀ g ∈ r.live, g < r.nextSeg

namespace Chained

variable {r : Region W} {g : SegId}

theorem disjoint (h : Chained r) (hg : g ∈ r.segLinks) : g ∉ r.dirtySegLinks :=
  fun hd => (List.nodup_append.mp h.nodup).2.2 g hg g hd rfl

theorem nextSeg_free (h : Chained r) : r.nextSeg ∉ r.live :=
  fun hin => Nat.lt_irrefl _ (h.fresh _ hin)

theorem cleaned (h : Chained r) : Cleaned r (epochCleanup r) (walk r.dirtySegLinks) :=
  epochCleanup_cleaned (List.nodup_append.mp h.nodup).2.1 h.flagged

theorem cleanup_dirty (h : Chained r) : (epochCleanup r).dirtySegLinks = [] :=
  epochCleanup_dirty (List.nodup_append.mp h.nodup).2.1 h.flagged

theorem cleanup_live (h : Chained r) :
    g ∈ (epochCleanup r).live ↔
      g ∈ r.live ∧ ¬ (g ∈ r.dirtySegLinks ∧ (r.seg g).dropped = true) := by
  simpa using h.cleaned.live g

theorem cleanup_segLinks (h : Chained r) :
    g ∈ (epochCleanup r).segLinks ↔ g ∈ (epochCleanup r).live := by
  rw [h.cleaned.segLinks, h.cleaned.live, h.live]
  simp only [List.mem_append, List.mem_filter, mem_walk]
  constructor
  · rintro (hg | ⟨hg, hdrop⟩)
    · exact ⟨.inl hg, fun hc => h.disjoint hg hc.1⟩
    · exact ⟨.inr hg, fun hc => by simp [hc.2] at hdrop⟩
  · rintro ⟨hg | hg, hdrop⟩
    · exact .inl hg
    · exact .inr ⟨hg, by simpa [hg] using hdrop⟩

/-- A segment that outlives the epoch: untouched, or committed and reset. -/
theorem cleanup_seg (h : Chained r) (hg : g ∈ (epochCleanup r).live) : (epochCleanup r).seg g =
    if g ∈ r.dirtySegLinks then (r.seg g).commit.resetFlags else r.seg g := by
  obtain ⟨-, hdrop⟩ := h.cleanup_live.mp hg
  split_ifs with hd
  · exact h.cleaned.seg_kept g (mem_walk.mpr hd) (by simpa [hd] using hdrop)
  · exact h.cleaned.seg_other g (by simpa using hd)

theorem cleanup (h : Chained r) : Chained (epochCleanup r) := by
  have hnd := List.nodup_append.mp h.nodup
  refine ⟨?_, fun g => ?_, ?_, fun g hg => ?_⟩
  · rw [h.cleanup_dirty, List.append_nil, h.cleaned.segLinks, List.nodup_append]
    refine ⟨hnd.1, (walk_nodup hnd.2.1).filter _, ?_⟩
    intro a ha b hb he
    exact hnd.2.2 a ha b (mem_walk.mp (List.mem_filter.mp hb).1) he
  · rw [h.cleanup_segLinks, h.cleanup_dirty]
    simp
  · rw [h.cleanup_dirty]
    exact nofun
  · rw [h.cleaned.nextSeg]
    exact h.fresh g (h.cleanup_live.mp hg).1

theorem withBatcher (h : Chained r) (b : Batcher Tx) : Chained { r with batcher := b } :=
  ⟨h.nodup, h.live, h.flagged, h.fresh⟩

/-- The clean list of another chain may differ in order only. -/
theorem of_perm (h : Chained r) {clean dirty : List SegId} {seg : SegId → Segment W}
    (hp : (clean ++ dirty).Perm (r.segLinks ++ r.dirtySegLinks))
    (hf : ∀ g ∈ dirty, (seg g).dirty = true) :
    Chained { r with seg, segLinks := clean, dirtySegLinks := dirty } where
  nodup := hp.nodup_iff.mpr h.nodup
  live g := by
    rw [← List.mem_append, hp.mem_iff, List.mem_append]
    exact h.live g
  flagged := hf
  fresh := h.fresh

/-- A new block at the end of the dirty list. -/
theorem insert (h : Chained r) (seg : Segment W) (hs : seg.dirty = true) :
    Chained { r.setSeg r.nextSeg seg with
      live := Insert.insert r.nextSeg r.live
      dirtySegLinks := linkInsert r.dirtySegLinks r.nextSeg
      nextSeg := r.nextSeg + 1 } := by
  have off := mt (h.live r.nextSeg).mpr h.nextSeg_free
  rw [not_or] at off
  refine ⟨?_, fun g => ?_, fun g hg => ?_, fun g hg => ?_⟩
  · simp only [linkInsert, Region.setSeg_segLinks]
    rw [← List.append_assoc, List.nodup_append]
    refine ⟨h.nodup, List.nodup_singleton _, ?_⟩
    rintro a ha b hb rfl
    rw [List.mem_singleton] at hb
    subst hb
    exact (List.mem_append.mp ha).elim off.1 off.2
  · simp only [linkInsert, Finset.mem_insert, h.live, Region.setSeg_segLinks, List.mem_append,
      List.mem_singleton]
    tauto
  · by_cases he : g = r.nextSeg
    · subst g
      simpa [Region.setSeg] using hs
    · have hold : g ∈ r.dirtySegLinks := by simpa [linkInsert, he] using hg
      simpa [Region.setSeg, he] using h.flagged g hold
  · rcases Finset.mem_insert.mp hg with rfl | hg
    · exact Nat.lt_succ_self _
    · exact Nat.lt_succ_of_lt (h.fresh g hg)

end Chained

theorem tmCreate_chained [Zero W] (size : ℕ) : Chained (tmCreate size : Region W) := by
  constructor <;> simp [tmCreate, linkInsert]

theorem perm_relink {clean dirty : List SegId} {g : SegId} (hg : g ∈ clean) :
    (clean.erase g ++ (dirty ++ [g])).Perm (clean ++ dirty) := by
  rw [← List.append_assoc]
  exact List.perm_append_comm.trans ((List.perm_cons_erase hg).symm.append_right dirty)

end RegionState
