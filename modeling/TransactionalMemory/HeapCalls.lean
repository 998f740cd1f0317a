import TransactionalMemory.CleanupLoop
import TransactionalMemory.FirstSegment

/-! # The calls on the heap

The calls of the library with their segments and links on the heap, in lockstep with the
same calls on regions whose lists are sequences. What was obtained is in use or was released. -/
namespace HeapCalls

open BatcherState
open ControlWord
open RegionState (SegId Segment Region walk allocSegment)
open Calls
open LinkHeap
open ListRefinement
open ListSequences (mem_append mem_erase)
open CleanupLoop

variable {W : Type}

/-- A region on the heap. Blocks are named in the order in which they are obtained. -/
structure Shared (W : Type) where
  heap : Heap W
  batcher : Batcher Tx
  start : SegId
  nextSeg : SegId
  nextLink : LinkId

def Shared.setSeg (s : Shared W) (g : SegId) (b : Block W) : Shared W :=
  { s with heap := s.heap.setSeg g b }

def emptyHeap : Heap W :=
  ⟨fun _ => none, fun _ => none, none, none, [], []⟩

def tmCreate [Zero W] (size : ℕ) : Except Fault (Shared W) := do
  let seg : Block W := { allocSegment size 0#64 with link := none }
  let m := emptyHeap.setSeg 0 { seg with dirty := false, newlyAlloc := false }
  let m ← linkInsert m .segLinks 0 0
  return ⟨m, initBatcher, 0, 1, 1⟩

/-- The loop of `rollback_transaction`. -/
def rollbackLoop (tx : Tx) (base : LinkId) : ℕ → Heap W → LinkId → Except Fault (Heap W)
  | 0, _, _ => .error .fuel
  | n + 1, m, link => do
    let isLast := link = base
    let node ← deref (m.link link)
    let seg ← deref (m.seg node.seg)
    let m := m.setSeg node.seg { seg with toSegment := rollbackSegment tx seg.toSegment }
    if isLast then return m
    else rollbackLoop tx base n m (← deref (← deref (m.link link)).next)

def rollbackTransaction (n : ℕ) (m : Heap W) (tx : Tx) : Except Fault (Heap W) := do
  match m.dirtySegLinks with
  | none => return m
  | some base => rollbackLoop tx base n m (← deref (← deref (m.link base)).next)

def leaveBatcher (s : Shared W) : Except Fault (Shared W) := do
  if lastToLeave s.batcher then
    let (_, m) ← epochCleanup s.nextLink s.heap
    return { s with heap := m, batcher := BatcherState.leaveBatcher s.batcher }
  else return { s with batcher := BatcherState.leaveBatcher s.batcher }

/-- The end of a call that failed. -/
def giveUp (s : Shared W) (tx : Tx) : Except Fault (Shared W) := do
  let m ← rollbackTransaction s.nextLink s.heap tx
  leaveBatcher { s with heap := m }

def tmRead (s : Shared W) (tx : Tx) (g : SegId) (k n : ℕ) :
    Except Fault (Option (List W) × Shared W) := do
  let b ← deref (s.heap.seg g)
  let (res, seg) := readSegment tx b.toSegment k n
  let s := s.setSeg g { b with toSegment := seg }
  if res then
    if isTxReadonly tx then return (some (copyOut seg.read k n), s)
    else
      let m ← moveToDirty s.heap g
      return (some (copyOut seg.write k n), { s with heap := m })
  else
    let s ← giveUp s tx
    return (none, s)

def tmWrite (s : Shared W) (tx : Tx) (g : SegId) (k : ℕ) (src : List W) :
    Except Fault (Bool × Shared W) := do
  let b ← deref (s.heap.seg g)
  let (res, seg) := writeSegment tx b.toSegment k src
  let s := s.setSeg g { b with toSegment := seg }
  if res then
    let m ← moveToDirty s.heap g
    return (true, { s with heap := m })
  else
    let s ← giveUp s tx
    return (false, s)

def tmAlloc [Zero W] (s : Shared W) (tx : Tx) (size : ℕ) : Except Fault (Shared W) := do
  let m := s.heap.setSeg s.nextSeg { allocSegment size tx with link := none }
  let m ← linkInsert m .dirtySegLinks s.nextSeg s.nextLink
  return { s with heap := m, nextSeg := s.nextSeg + 1, nextLink := s.nextLink + 1 }

def tmFree (s : Shared W) (tx : Tx) (g : SegId) : Except Fault (Shared W) := do
  let b ← deref (s.heap.seg g)
  let m ← moveToDirty (s.heap.setSeg g { b with shouldFree := true, owner := tx }) g
  return { s with heap := m }

/-! ### The heap and the region -/

def lists (r : Region W) : Lists
  | .segLinks => r.segLinks
  | .dirtySegLinks => r.dirtySegLinks

/-- The heap holds the live segments of the region with one link each and nothing else, and
every block and link obtained so far is in use or was released. -/
structure Mirrors (s : Shared W) (node : SegId → LinkId) (r : Region W) : Prop where
  represents : Represents s.heap node (lists r)
  block : ∀ g ∈ r.live, s.heap.seg g = some { r.seg g with link := some (node g) }
  gone : ∀ g, g ∉ r.live → s.heap.seg g = none
  unused : ∀ p, (∀ g ∈ r.live, node g ≠ p) → s.heap.link p = none
  segs : (s.heap.freedSegs ++ (r.segLinks ++ r.dirtySegLinks)).Perm (List.range s.nextSeg)
  links : (s.heap.freedLinks ++ (r.segLinks ++ r.dirtySegLinks).map node).Perm
    (List.range s.nextLink)
  batcher : s.batcher = r.batcher
  start : s.start = r.start
  nextSeg : s.nextSeg = r.nextSeg

namespace Mirrors

variable {s : Shared W} {node : SegId → LinkId} {r : Region W} {t : Heap W} {g : SegId}
variable {seg : Segment W} {tx : Tx}

theorem setSeg (h : Mirrors s node r) (hg : g ∈ r.live) (seg : Segment W) :
    Mirrors (s.setSeg g { seg with link := some (node g) }) node (r.setSeg g seg) where
  represents := h.represents.setSeg fun _ _ => rfl
  block x hx := by
    by_cases hxg : x = g
    · subst x
      simp [Shared.setSeg, Heap.setSeg]
    · simpa [Shared.setSeg, Heap.setSeg, Region.setSeg, hxg] using h.block x hx
  gone x hx := by
    have hxg : x ≠ g := fun he => hx (he ▸ hg)
    simpa [Shared.setSeg, Heap.setSeg, hxg] using h.gone x hx
  unused := h.unused
  segs := h.segs
  links := h.links
  batcher := h.batcher
  start := h.start
  nextSeg := h.nextSeg

/-- Stores into links that only rearrange the lists. -/
theorem relinked (h : Mirrors s node r) (ht : Relinked s.heap t) {clean dirty : List SegId}
    (hp : (clean ++ dirty).Perm (r.segLinks ++ r.dirtySegLinks))
    (hr : Represents t node (lists { r with segLinks := clean, dirtySegLinks := dirty })) :
    Mirrors { s with heap := t } node { r with segLinks := clean, dirtySegLinks := dirty } where
  represents := hr
  block x hx := by
    simp only [ht.seg]
    exact h.block x hx
  gone x hx := by
    simp only [ht.seg]
    exact h.gone x hx
  unused p hx := by
    have := ht.owner p
    rw [h.unused p hx] at this
    simpa using this
  segs := by
    simp only [ht.freedSegs]
    exact (hp.append_left _).trans h.segs
  links := by
    simp only [ht.freedLinks]
    exact ((hp.map node).append_left _).trans h.links
  batcher := h.batcher
  start := h.start
  nextSeg := h.nextSeg

theorem withBatcher (h : Mirrors s node r) (b : Batcher Tx) :
    Mirrors { s with batcher := b } node { r with batcher := b } :=
  ⟨h.represents, h.block, h.gone, h.unused, h.segs, h.links, rfl, h.start, h.nextSeg⟩

theorem moveToDirty (h : Mirrors s node r) (hc : RegionState.Chained r) (hg : g ∈ r.live) :
    ∃ m, LinkHeap.moveToDirty s.heap g = .ok m ∧
      Mirrors { s with heap := m } node (RegionState.moveToDirty r g) := by
  have hb := h.block g hg
  cases hd : (r.seg g).dirty with
  | true =>
    rw [RegionState.moveToDirty, if_pos hd]
    exact ⟨s.heap, by simp [LinkHeap.moveToDirty, hb, hd], h⟩
  | false =>
    rw [RegionState.moveToDirty, if_neg (by simp [hd])]
    have hclean : g ∈ r.segLinks := by
      refine ((hc.live g).mp hg).resolve_right fun hin => ?_
      rw [hc.flagged g hin] at hd
      cases hd
    obtain ⟨t, ht, hrel, hrep⟩ := h.represents.moveToDirty hclean hb hd
    have hlists : lists { r with
        segLinks := r.segLinks.erase g, dirtySegLinks := r.dirtySegLinks ++ [g] } =
        ((lists r).erase .segLinks g).append .dirtySegLinks g := by
      funext c
      cases c <;> simp [lists, Lists.erase, Lists.append]
    refine ⟨t, ht, ?_⟩
    exact (h.setSeg hg { r.seg g with dirty := true }).relinked hrel
      (RegionState.perm_relink hclean) (hlists ▸ hrep)

/-- The lists are no longer than the number of links ever obtained. -/
theorem length_le (h : Mirrors s node r) :
    r.segLinks.length + r.dirtySegLinks.length ≤ s.nextLink := by
  have := h.links.length_eq
  simp only [List.length_append, List.length_map, List.length_range] at this
  omega

theorem next_unused (h : Mirrors s node r) (hc : RegionState.Chained r) :
    s.heap.link s.nextLink = none := by
  refine h.unused _ fun g hg he => ?_
  have hin : node g ∈ s.heap.freedLinks ++ (r.segLinks ++ r.dirtySegLinks).map node := by
    refine List.mem_append_right _ (List.mem_map_of_mem ?_)
    exact List.mem_append.mpr ((hc.live g).mp hg)
  exact Nat.ne_of_lt (List.mem_range.mp (h.links.mem_iff.mp hin)) he

/-- What a walk reads at the link of a dirty segment. -/
theorem dirty_link (h : Mirrors s node r) (hg : g ∈ r.dirtySegLinks) (hl : g ∈ r.live) :
    ∃ k, s.heap.link (node g) = some k ∧ k.seg = g ∧
      s.heap.seg g = some { r.seg g with link := some (node g) } := by
  obtain ⟨k, hk, hseg⟩ := Option.map_eq_some_iff.mp (h.represents.back .dirtySegLinks g hg)
  exact ⟨k, hk, hseg, h.block g hl⟩

end Mirrors

/-- `rollback_transaction` from one link of the ring to its base. -/
theorem rollbackLoop_mirrors {s : Shared W} {node : SegId → LinkId} {r : Region W} {b x : SegId}
    {todo : List SegId} {n : ℕ} (tx : Tx) (h : Mirrors s node r) (pre : List SegId)
    (hlive : ∀ g ∈ r.dirtySegLinks, g ∈ r.live) (hL : r.dirtySegLinks = b :: pre ++ todo)
    (hn : todo.length < n) (hx : (todo ++ [b]).head? = some x) :
    ∃ m, rollbackLoop tx (node b) n s.heap (node x) = .ok m ∧ Mirrors { s with heap := m } node
      ((todo ++ [b]).foldl (fun r g => r.setSeg g (rollbackSegment tx (r.seg g))) r) := by
  induction todo generalizing s r pre n x with
  | nil =>
    obtain ⟨n, rfl⟩ := Nat.exists_eq_succ_of_ne_zero (Nat.ne_of_gt hn)
    have hxb : b = x := by simpa using hx
    subst x
    have hb : b ∈ r.dirtySegLinks := by simp [hL]
    obtain ⟨k, hk, hseg, hblock⟩ := h.dirty_link hb (hlive b hb)
    refine ⟨_, ?_, h.setSeg (hlive b hb) (rollbackSegment tx (r.seg b))⟩
    simp [rollbackLoop, hk, hseg, hblock]
  | cons y todo ih =>
    obtain ⟨n, rfl⟩ := Nat.exists_eq_succ_of_ne_zero (Nat.ne_of_gt (Nat.zero_lt_of_lt hn))
    have hyx : y = x := by simpa using hx
    subst x
    have hy : y ∈ r.dirtySegLinks := by simp [hL]
    have hb : b ∈ r.dirtySegLinks := by simp [hL]
    obtain ⟨k, hk, hseg, hblock⟩ := h.dirty_link hy (hlive y hy)
    obtain ⟨a, -, c, -, -, hhead, -, hnext⟩ :=
      h.represents.neighbours (b := .dirtySegLinks) (b :: pre) (g := y) hL
    have hknext : k.next = some (node c) := by simpa [Heap.fields, hk] using hnext
    have hz : (todo ++ [b]).head? = some c := by
      cases todo with
      | nil => simpa using hhead
      | cons z todo => simpa using hhead
    have hne : node y ≠ node b := by
      have hnd := h.represents.nodup .dirtySegLinks
      rw [show lists r .dirtySegLinks = b :: pre ++ y :: todo from hL, List.cons_append,
        List.nodup_cons] at hnd
      intro he
      have := h.represents.node_inj (b := .dirtySegLinks) (c := .dirtySegLinks) hy hb he
      exact hnd.1 (by simp [this])
    have hset := h.setSeg (hlive y hy) (rollbackSegment tx (r.seg y))
    obtain ⟨m, hm, hmirror⟩ := ih hset (pre ++ [y]) hlive (by simp [hL])
      (Nat.lt_of_succ_lt_succ hn) hz
    refine ⟨m, ?_, hmirror⟩
    rw [rollbackLoop]
    simp only [hk, hseg, hblock, deref_some, ok_bind, if_neg hne, Heap.setSeg, hknext]
    exact hm

/-- `epoch_cleanup` visits every dirty segment once. -/
theorem walk_perm (l : List SegId) : (walk l).Perm l := by
  cases l with
  | nil => exact List.Perm.refl _
  | cons b rest => exact List.perm_append_singleton b rest

namespace Mirrors

variable {s : Shared W} {node : SegId → LinkId} {r : Region W} {t : Heap W} {g : SegId}

theorem rollback (h : Mirrors s node r) (hc : RegionState.Chained r) (tx : Tx) :
    ∃ m, rollbackTransaction s.nextLink s.heap tx = .ok m ∧
      Mirrors { s with heap := m } node (Calls.rollbackTransaction r tx) := by
  have hbase := h.represents.base .dirtySegLinks
  cases hL : r.dirtySegLinks with
  | nil =>
    have hnone : s.heap.dirtySegLinks = none := hbase.trans (by simp [lists, hL])
    have hid : Calls.rollbackTransaction r tx = r := by
      simp [Calls.rollbackTransaction, hL, walk]
    rw [hid]
    exact ⟨s.heap, by simp [rollbackTransaction, hnone], h⟩
  | cons b rest =>
    have hsome : s.heap.dirtySegLinks = some (node b) := hbase.trans (by simp [lists, hL])
    have hlive : ∀ g ∈ r.dirtySegLinks, g ∈ r.live := fun g hg => (hc.live g).mpr (.inr hg)
    obtain ⟨a, -, c, -, -, hhead, -, hnext⟩ :=
      h.represents.neighbours (b := .dirtySegLinks) [] (g := b) hL
    rw [List.append_nil] at hhead
    obtain ⟨k, hk, hknext⟩ := Option.bind_eq_some_iff.mp hnext
    have hlen := h.length_le
    rw [hL, List.length_cons] at hlen
    obtain ⟨m, hm, hmirror⟩ := rollbackLoop_mirrors (n := s.nextLink) tx h [] hlive hL
      (by omega) hhead
    refine ⟨m, by simp [rollbackTransaction, hsome, hk, hknext, hm], ?_⟩
    rw [Calls.rollbackTransaction, hL]
    exact hmirror

/-- `epoch_cleanup`, in the region and on the heap. -/
theorem cleanup (h : Mirrors s node r) (hc : RegionState.Chained r) :
    ∃ l m, epochCleanup s.nextLink s.heap = .ok (l, m) ∧
      Mirrors { s with heap := m } node (RegionState.epochCleanup r) := by
  have hlive : ∀ g ∈ r.dirtySegLinks, g ∈ r.live := fun g hg => (hc.live g).mpr (.inr hg)
  have hdrops : ∀ g ∈ r.live, drops s.heap g = (r.seg g).dropped := fun g hg =>
    drops_eq (h.block g hg)
  have hwalk : ∀ g ∈ walk r.dirtySegLinks, drops s.heap g = (r.seg g).dropped := fun g hg =>
    hdrops g (hlive g (RegionState.mem_walk.mp hg))
  have hlen := h.length_le
  obtain ⟨t, ht, hrep, hswept⟩ := epochCleanup_swept (n := s.nextLink) h.represents (fun g hg => by
    rw [ListSequences.Named, h.block g (hlive g hg)]
    simpa using hc.flagged g hg) (by simp only [lists]; omega)
  have hkept : (walk r.dirtySegLinks).filter (fun g => !drops s.heap g) =
      (walk r.dirtySegLinks).filter fun g => !(r.seg g).dropped :=
    List.filter_congr fun g hg => by rw [hwalk g hg]
  have hlists : Lists.swept (lists r) ((walk r.dirtySegLinks).filter fun g => !drops s.heap g) =
      lists (RegionState.epochCleanup r) := by
    funext c
    cases c with
    | segLinks => simp only [Lists.swept, lists, hkept, hc.cleaned.segLinks]
    | dirtySegLinks => simp only [Lists.swept, lists, hc.cleanup_dirty]
  have hsplit : ((walk r.dirtySegLinks).filter (drops s.heap) ++
      (walk r.dirtySegLinks).filter fun g => !drops s.heap g).Perm r.dirtySegLinks :=
    (List.filter_append_perm _ _).trans (walk_perm _)
  -- what is released and what stays on the lists
  have hshare : ((walk r.dirtySegLinks).filter (drops s.heap) ++
      ((RegionState.epochCleanup r).segLinks ++ (RegionState.epochCleanup r).dirtySegLinks)).Perm
      (r.segLinks ++ r.dirtySegLinks) := by
    rw [hc.cleanup_dirty, List.append_nil, hc.cleaned.segLinks, ← hkept, ← List.append_assoc]
    refine (List.perm_append_comm.append_right _).trans ?_
    rw [List.append_assoc]
    exact hsplit.append_left _
  refine ⟨_, t, ht, hlists ▸ hrep, fun g hg => ?_, fun g hg => ?_, fun p hp => ?_, ?_, ?_, ?_, ?_,
    ?_⟩
  · obtain ⟨hl, hdrop⟩ := hc.cleanup_live.mp hg
    rw [hc.cleanup_seg hg]
    split_ifs with hd
    · have hkeep : (r.seg g).dropped = false := by simpa [hd] using hdrop
      exact hswept.survivor g (RegionState.mem_walk.mpr hd) _ (h.block g hl) hkeep
    · rw [hswept.other g (mt RegionState.mem_walk.mp hd)]
      exact h.block g hl
  · -- gone before, or visited and released
    by_cases hl : g ∈ r.live
    · have hdrop : g ∈ r.dirtySegLinks ∧ (r.seg g).dropped = true := by
        by_contra hno
        exact hg (hc.cleanup_live.mpr ⟨hl, hno⟩)
      have hmark := (hdrops g hl).trans hdrop.2
      exact (hswept.released g (RegionState.mem_walk.mpr hdrop.1) hmark).1
    · have hd : g ∉ walk r.dirtySegLinks := fun hd => hl (hlive g (RegionState.mem_walk.mp hd))
      exact (hswept.other g hd).trans (h.gone g hl)
  · by_cases hdrop : ∃ g ∈ walk r.dirtySegLinks, drops s.heap g = true ∧ node g = p
    · obtain ⟨g, hg, hd, rfl⟩ := hdrop
      exact (hswept.released g hg hd).2
    · have hunused : s.heap.link p = none := by
        refine h.unused p fun g hg he => ?_
        by_cases hd : g ∈ r.dirtySegLinks ∧ (r.seg g).dropped = true
        · exact hdrop ⟨g, RegionState.mem_walk.mpr hd.1, (hdrops g hg).trans hd.2, he⟩
        · exact hp g (hc.cleanup_live.mpr ⟨hg, hd⟩) he
      have howner := hswept.owner p fun g hg hd he => hdrop ⟨g, hg, hd, he⟩
      rw [hunused] at howner
      simpa using howner
  · simp only [hswept.freedSegs, List.append_assoc]
    exact (hshare.append_left _).trans h.segs
  · simp only [hswept.freedLinks, List.append_assoc, ← List.map_append]
    exact ((hshare.map node).append_left _).trans h.links
  · exact h.batcher.trans hc.cleaned.batcher.symm
  · exact h.start.trans hc.cleaned.start.symm
  · exact h.nextSeg.trans hc.cleaned.nextSeg.symm

theorem left (h : Mirrors s node r) (hc : RegionState.Chained r) :
    ∃ t, leaveBatcher s = .ok t ∧ Mirrors t node r.leaveBatcher := by
  cases hl : lastToLeave s.batcher with
  | true =>
    obtain ⟨l, m, hm, hmirror⟩ := h.cleanup hc
    have hr : r.leaveBatcher = { RegionState.epochCleanup r with
        batcher := BatcherState.leaveBatcher s.batcher } := by
      rw [Region.leaveBatcher, ← h.batcher, if_pos hl]
    rw [hr]
    exact ⟨_, by simp [leaveBatcher, hl, hm], hmirror.withBatcher _⟩
  | false =>
    have hr : r.leaveBatcher = { r with batcher := BatcherState.leaveBatcher s.batcher } := by
      rw [Region.leaveBatcher, ← h.batcher, if_neg (by simp [hl])]
    rw [hr]
    exact ⟨_, by simp [leaveBatcher, hl], h.withBatcher _⟩

end Mirrors

/-! ### The calls keep the heap and the region together -/

open FirstSegment (Alike)

/-- The lists are in order, and the first segment is no candidate for its release. -/
structure Grounded (r : Region W) : Prop extends RegionState.Chained r where
  start : r.start = 0
  first : 0 ∈ r.live
  newlyAlloc : (r.seg 0).newlyAlloc = false
  shouldFree : (r.seg 0).shouldFree = false

namespace Grounded

variable {r : Region W} {g : SegId} {seg : Segment W} {tx : Tx}

/-- Stores into segments and a rearrangement of the lists. -/
theorem rearranged (h : Grounded r) {clean dirty : List SegId} {seg : SegId → Segment W}
    (hp : (clean ++ dirty).Perm (r.segLinks ++ r.dirtySegLinks))
    (hf : ∀ g ∈ dirty, (seg g).dirty = true) (hn : (seg 0).newlyAlloc = false)
    (hs : (seg 0).shouldFree = false) :
    Grounded { r with seg, segLinks := clean, dirtySegLinks := dirty } :=
  ⟨h.toChained.of_perm hp hf, h.start, h.first, hn, hs⟩

theorem withBatcher (h : Grounded r) (b : Batcher Tx) : Grounded { r with batcher := b } :=
  ⟨h.toChained.withBatcher b, h.start, h.first, h.newlyAlloc, h.shouldFree⟩

theorem setSeg (h : Grounded r) (ha : Alike g (r.seg g) seg) : Grounded (r.setSeg g seg) := by
  have alike : ∀ x, Alike x (r.seg x) ((r.setSeg g seg).seg x) := by
    intro x
    by_cases hx : x = g
    · subst x
      rw [Region.setSeg_same]
      exact ha
    · rw [Region.setSeg_other _ _ _ hx]
      exact ⟨rfl, rfl, rfl, fun _ => rfl⟩
  exact h.rearranged (List.Perm.refl _)
    (fun x hx => (alike x).dirty.trans (h.flagged x hx)) ((alike 0).newlyAlloc.trans h.newlyAlloc)
    (((alike 0).shouldFree rfl).trans h.shouldFree)

theorem moveToDirty (h : Grounded r) (hg : g ∈ r.live) :
    Grounded (RegionState.moveToDirty r g) := by
  rw [RegionState.moveToDirty]
  split_ifs with hd
  · exact h
  · have hclean : g ∈ r.segLinks :=
      ((h.live g).mp hg).resolve_right fun hin => hd (h.flagged g hin)
    have seg_of : ∀ x, (r.setSeg g { r.seg g with dirty := true }).seg x =
        { r.seg x with dirty := (r.seg x).dirty || decide (x = g) } := by
      intro x
      by_cases hx : x = g
      · subst x
        simp [Region.setSeg]
      · simp [Region.setSeg, hx]
    refine h.rearranged (RegionState.perm_relink hclean) (fun x hx => ?_) ?_ ?_
    · rw [seg_of]
      rcases List.mem_append.mp hx with hx | hx
      · simp [h.flagged x hx]
      · simp [List.mem_singleton.mp hx]
    · rw [seg_of]
      exact h.newlyAlloc
    · rw [seg_of]
      exact h.shouldFree

theorem rollback (h : Grounded r) (tx : Tx) : Grounded (Calls.rollbackTransaction r tx) := by
  rw [rollbackTransaction_eq (List.nodup_append.mp h.nodup).2.1]
  refine h.rearranged (List.Perm.refl _) (fun x hx => ?_) ?_ ?_
  · rw [if_pos hx]
    exact h.flagged x hx
  · split_ifs
    · exact h.newlyAlloc
    · exact h.newlyAlloc
  · split_ifs
    · exact h.shouldFree
    · exact h.shouldFree

theorem cleanup (h : Grounded r) : Grounded (RegionState.epochCleanup r) := by
  have first : 0 ∈ (RegionState.epochCleanup r).live := by
    refine h.cleanup_live.mpr ⟨h.first, fun hd => ?_⟩
    simp [Segment.dropped, Segment.successFree, Segment.failureAlloc, h.newlyAlloc,
      h.shouldFree] at hd
  have seg := h.cleanup_seg first
  refine ⟨h.toChained.cleanup, h.cleaned.start.trans h.start, first, ?_, ?_⟩
  · rw [seg]
    split_ifs
    · rfl
    · exact h.newlyAlloc
  · rw [seg]
    split_ifs
    · rfl
    · exact h.shouldFree

theorem left (h : Grounded r) : Grounded r.leaveBatcher := by
  rw [Region.leaveBatcher]
  split_ifs
  · exact h.cleanup.withBatcher _
  · exact h.withBatcher _

theorem alloc [Zero W] (h : Grounded r) (size : ℕ) : Grounded (Calls.tmAlloc r tx size) := by
  have h0 : 0 ≠ r.nextSeg := fun he => h.nextSeg_free (he ▸ h.first)
  have old : (Calls.tmAlloc r tx size).seg 0 = r.seg 0 := Region.setSeg_other _ _ _ h0
  refine ⟨h.toChained.insert _ rfl, h.start, Finset.mem_insert_of_mem h.first, ?_, ?_⟩
  · rw [old]
    exact h.newlyAlloc
  · rw [old]
    exact h.shouldFree

end Grounded

theorem readSegment_alike (tx : Tx) (g : SegId) (seg : Segment W) (k n : ℕ) :
    Alike g seg (readSegment tx seg k n).2 := by
  rw [readSegment]
  split_ifs
  · exact ⟨rfl, rfl, rfl, fun _ => rfl⟩
  · exact ⟨rfl, rfl, rfl, fun _ => rfl⟩
  · obtain ⟨m, -, -, hseg, -⟩ := markWords_spec tx n seg k
    rw [hseg]
    exact ⟨rfl, rfl, rfl, fun _ => rfl⟩

/-- What a call of a running transaction makes of the region: the transaction goes on, or
it leaves the batcher. -/
inductive Turn (r : Region W) : Bool → Region W → Prop where
  | stays {t} : Grounded t → t.batcher = r.batcher → Turn r true t
  | leaves {t} : Grounded t → t.batcher = r.batcher → Turn r false t.leaveBatcher

theorem moveToDirty_batcher (r : Region W) (g : SegId) :
    (RegionState.moveToDirty r g).batcher = r.batcher := by
  rw [RegionState.moveToDirty]
  split_ifs <;> rfl

theorem rollback_batcher {r : Region W} (h : Grounded r) (tx : Tx) :
    (Calls.rollbackTransaction r tx).batcher = r.batcher := by
  rw [rollbackTransaction_eq (List.nodup_append.mp h.nodup).2.1]

namespace Mirrors

variable {s : Shared W} {node : SegId → LinkId} {r : Region W} {g : SegId} {tx : Tx}
variable {seg : Segment W}

theorem giveUp (h : Mirrors s node r) (hr : Grounded r) (tx : Tx) :
    ∃ t, HeapCalls.giveUp s tx = .ok t ∧
      Mirrors t node (Calls.rollbackTransaction r tx).leaveBatcher := by
  obtain ⟨m, hm, hback⟩ := h.rollback hr.toChained tx
  obtain ⟨t, ht, hleft⟩ := hback.left (hr.rollback tx).toChained
  exact ⟨t, by simp [HeapCalls.giveUp, hm, ht], hleft⟩

theorem tmRead (h : Mirrors s node r) (hr : Grounded r) (hg : g ∈ r.live) (tx : Tx) (k n : ℕ) :
    ∃ t, HeapCalls.tmRead s tx g k n = .ok ((Calls.tmRead r tx g k n).1, t) ∧
      Mirrors t node (Calls.tmRead r tx g k n).2 ∧
      Turn r (Calls.tmRead r tx g k n).1.isSome (Calls.tmRead r tx g k n).2 := by
  have hb := h.block g hg
  have hset := h.setSeg hg (readSegment tx (r.seg g) k n).2
  have hground := hr.setSeg (readSegment_alike tx g (r.seg g) k n)
  cases hok : (readSegment tx (r.seg g) k n).1 with
  | false =>
    obtain ⟨t, ht, hmirror⟩ := hset.giveUp hground tx
    refine ⟨t, by simp [HeapCalls.tmRead, Calls.tmRead, hb, hok, ht], ?_, ?_⟩
    · simpa [Calls.tmRead, hok] using hmirror
    · simpa [Calls.tmRead, hok] using
        Turn.leaves (r := r) (hground.rollback tx) (rollback_batcher hground tx)
  | true =>
    cases hro : isTxReadonly tx with
    | true =>
      refine ⟨s.setSeg g { (readSegment tx (r.seg g) k n).2 with link := some (node g) },
        by simp [HeapCalls.tmRead, Calls.tmRead, hb, hok, hro], ?_, ?_⟩
      · simpa [Calls.tmRead, hok, hro] using hset
      · simpa [Calls.tmRead, hok, hro] using Turn.stays (r := r) hground rfl
    | false =>
      obtain ⟨m, hm, hmirror⟩ := hset.moveToDirty hground.toChained hg
      refine ⟨{ s with heap := m }, ?_, ?_, ?_⟩
      · simp only [HeapCalls.tmRead, Calls.tmRead, hb, hok, hro, deref_some, ok_bind, hm, pure_ok]
        rfl
      · simp only [Calls.tmRead, hok, hro]
        exact hmirror
      · simpa [Calls.tmRead, hok, hro] using
          Turn.stays (r := r) (hground.moveToDirty hg) (moveToDirty_batcher _ g)

theorem tmWrite (h : Mirrors s node r) (hr : Grounded r) (hg : g ∈ r.live) (tx : Tx) (k : ℕ)
    (src : List W) : ∃ t, HeapCalls.tmWrite s tx g k src =
        .ok ((Calls.tmWrite r tx g k src).1, t) ∧
      Mirrors t node (Calls.tmWrite r tx g k src).2 ∧
      Turn r (Calls.tmWrite r tx g k src).1 (Calls.tmWrite r tx g k src).2 := by
  have hb := h.block g hg
  have hset := h.setSeg hg (writeSegment tx (r.seg g) k src).2
  have hground := hr.setSeg (FirstSegment.writeSegment_alike tx g src (r.seg g) k)
  cases hok : (writeSegment tx (r.seg g) k src).1 with
  | false =>
    obtain ⟨t, ht, hmirror⟩ := hset.giveUp hground tx
    refine ⟨t, by simp [HeapCalls.tmWrite, Calls.tmWrite, hb, hok, ht], ?_, ?_⟩
    · simpa [Calls.tmWrite, hok] using hmirror
    · simpa [Calls.tmWrite, hok] using
        Turn.leaves (r := r) (hground.rollback tx) (rollback_batcher hground tx)
  | true =>
    obtain ⟨m, hm, hmirror⟩ := hset.moveToDirty hground.toChained hg
    refine ⟨{ s with heap := m }, ?_, ?_, ?_⟩
    · simp only [HeapCalls.tmWrite, Calls.tmWrite, hb, hok, deref_some, ok_bind, hm, pure_ok]
      rfl
    · simp only [Calls.tmWrite, hok]
      exact hmirror
    · simpa [Calls.tmWrite, hok] using
        Turn.stays (r := r) (hground.moveToDirty hg) (moveToDirty_batcher _ g)

theorem tmFree (h : Mirrors s node r) (hr : Grounded r) (hg : g ∈ r.live) (h0 : g ≠ 0)
    (tx : Tx) : ∃ t, HeapCalls.tmFree s tx g = .ok t ∧ Mirrors t node (Calls.tmFree r tx g) ∧
      Turn r true (Calls.tmFree r tx g) := by
  have hb := h.block g hg
  have hset := h.setSeg hg { r.seg g with shouldFree := true, owner := tx }
  have hground : Grounded (r.setSeg g { r.seg g with shouldFree := true, owner := tx }) :=
    hr.setSeg ⟨rfl, rfl, rfl, fun he => (h0 he).elim⟩
  obtain ⟨m, hm, hmirror⟩ := hset.moveToDirty hground.toChained hg
  refine ⟨_, ?_, hmirror, .stays (hground.moveToDirty hg) (moveToDirty_batcher _ g)⟩
  simp only [Shared.setSeg] at hm
  simp only [HeapCalls.tmFree, hb, deref_some, ok_bind, hm]
  rfl

/-- A new block with a new link. -/
theorem tmAlloc [Zero W] (h : Mirrors s node r) (hr : Grounded r) (tx : Tx) (size : ℕ) :
    ∃ t node', HeapCalls.tmAlloc s tx size = .ok t ∧ Mirrors t node' (Calls.tmAlloc r tx size) ∧
      Turn r true (Calls.tmAlloc r tx size) := by
  have hfree : s.nextSeg ∉ r.live := h.nextSeg ▸ hr.nextSeg_free
  have hoff : ∀ b, s.nextSeg ∉ lists r b := by
    intro b hin
    cases b with
    | segLinks => exact hfree ((hr.live _).mpr (.inl hin))
    | dirtySegLinks => exact hfree ((hr.live _).mpr (.inr hin))
  have hrep := h.represents.setSeg (g := s.nextSeg)
    (s := { allocSegment size tx with link := none }) fun b hin => (hoff b hin).elim
  obtain ⟨m, hm, hrel, hrep⟩ := hrep.linkInsert (s := { allocSegment size tx with link := none })
    hoff (by simp [Heap.setSeg]) (h.next_unused hr.toChained) .dirtySegLinks
  have hlists : Lists.append (lists r) .dirtySegLinks s.nextSeg =
      lists (Calls.tmAlloc r tx size) := by
    funext c
    cases c <;> simp [lists, Lists.append, Calls.tmAlloc, RegionState.linkInsert, h.nextSeg]
  have hold : ∀ g ∈ r.live, g ≠ s.nextSeg := fun g hg he => hfree (he ▸ hg)
  have hnodes : (r.segLinks ++ r.dirtySegLinks).map (Function.update node s.nextSeg s.nextLink) =
      (r.segLinks ++ r.dirtySegLinks).map node :=
    map_node fun hin => hfree ((hr.live _).mpr (List.mem_append.mp hin))
  refine ⟨{ s with heap := m, nextSeg := s.nextSeg + 1, nextLink := s.nextLink + 1 },
    Function.update node s.nextSeg s.nextLink, by simp [HeapCalls.tmAlloc, hm],
    ⟨hlists ▸ hrep, fun g hg => ?_, fun g hg => ?_, fun p hp => ?_, ?_, ?_, h.batcher, h.start,
      congrArg Nat.succ h.nextSeg⟩, .stays (hr.alloc size) rfl⟩
  · rw [hrel.seg]
    by_cases hg' : g = s.nextSeg
    · subst g
      simp [Heap.setSeg, Calls.tmAlloc, Region.setSeg, h.nextSeg]
    · have hgr : g ≠ r.nextSeg := h.nextSeg ▸ hg'
      have hlive := (Finset.mem_insert.mp hg).resolve_left hgr
      simpa [Heap.setSeg, Heap.mallocLink, Calls.tmAlloc, Region.setSeg, hg', hgr] using
        h.block g hlive
  · rw [Calls.tmAlloc, Finset.mem_insert, not_or] at hg
    rw [hrel.seg]
    have hg' : g ≠ s.nextSeg := h.nextSeg ▸ hg.1
    simpa [Heap.setSeg, Heap.mallocLink, hg'] using h.gone g hg.2
  · have hpne : p ≠ s.nextLink := by
      have := hp s.nextSeg (h.nextSeg ▸ Finset.mem_insert_self _ _)
      rw [Function.update_self] at this
      exact this.symm
    have hunused := h.unused p fun g hg => by
      have := hp g (Finset.mem_insert_of_mem hg)
      rwa [Function.update_of_ne (hold g hg)] at this
    have howner := hrel.owner p
    simpa [Heap.setSeg, Heap.mallocLink, hpne, hunused] using howner
  · simp only [hrel.freedSegs, Calls.tmAlloc, RegionState.linkInsert, ← h.nextSeg, List.range_succ,
      Region.setSeg_segLinks]
    have hp := h.segs.append_right [s.nextSeg]
    rw [List.append_assoc, List.append_assoc] at hp
    exact hp
  · simp only [hrel.freedLinks, Calls.tmAlloc, RegionState.linkInsert, ← h.nextSeg,
      List.range_succ, Region.setSeg_segLinks]
    rw [← List.append_assoc r.segLinks, List.map_append, hnodes, List.map_singleton,
      Function.update_self, ← List.append_assoc]
    exact h.links.append_right [s.nextLink]

end Mirrors

end HeapCalls
