import TransactionalMemory.AtomicCalls

/-! # The first segment

`tm_start` reads a saved pointer, `tm_size` the head of the clean list. An epoch moves the
segments it touches behind the others, so that the head need not be the first segment. -/
namespace FirstSegment

open TransitionSystem
open BatcherState
open ControlWord
open RegionState
open Calls
open CallEffects
open AtomicCalls

variable {W : Type*}

/-- `tm_start`, which reads the segment it points to; `none` stands for a released one. -/
def tmStart (r : Region W) : Option SegId := if r.start ∈ r.live then some r.start else none

/-- `tm_size`; `none` stands for an empty list, whose null base is dereferenced. -/
def tmSize (r : Region W) : Option ℕ := r.segLinks.head?.map fun g => (r.seg g).size

/-- The queries tell of the segment and the size of `tm_create`. -/
structure Answers (size : ℕ) (r : Region W) : Prop where
  start : tmStart r = some 0
  size : tmSize r = some size

instance (size : ℕ) (r : Region W) : Decidable (Answers size r) :=
  decidable_of_iff (tmStart r = some 0 ∧ tmSize r = some size)
    ⟨fun h => ⟨h.1, h.2⟩, fun h => ⟨h.start, h.size⟩⟩

/-- Calls name live segments and stay in bounds, and nobody frees the first segment. -/
def Addressed (s : State W) : Event W → Prop
  | .read _ g k n => g ∈ s.region.live ∧ k + n ≤ (s.region.seg g).size
  | .write _ g k src => g ∈ s.region.live ∧ k + src.length ≤ (s.region.seg g).size
  | .free _ g => g ∈ s.region.live ∧ g ≠ 0
  | .begin _ | .alloc .. | .finish _ => True

instance (s : State W) (e : Event W) : Decidable (Addressed s e) :=
  match e with
  | .read .. | .write .. | .free .. => inferInstanceAs (Decidable (_ ∧ _))
  | .begin _ | .alloc .. | .finish _ => inferInstanceAs (Decidable True)

/-- The segment that a successful call takes to the dirty list. -/
def moved : Event W → Option SegId
  | .read tx g .. => if isTxReadonly tx then none else some g
  | .write _ g .. | .free _ g => some g
  | .begin _ | .alloc .. | .finish _ => none

/-- If the call takes the head off the clean list, a segment of the first one's size
succeeds it. -/
def Succeeded (size : ℕ) (s : State W) (e : Event W) : Prop :=
  moved e ≠ none → s.region.segLinks.head? = moved e →
    s.region.segLinks[1]?.map (fun g => (s.region.seg g).size) = some size

instance (size : ℕ) (s : State W) (e : Event W) : Decidable (Succeeded size s e) :=
  inferInstanceAs (Decidable (_ → _ → _))

/-- The first segment is there to stay. -/
structure Anchored (r : Region W) : Prop extends Tidy r where
  start : r.start = 0
  first : 0 ∈ r.live
  newlyAlloc : (r.seg 0).newlyAlloc = false
  shouldFree : (r.seg 0).shouldFree = false

/-- What calls leave alone in segment `g`. -/
structure Alike (g : SegId) (a b : Segment W) : Prop where
  size : b.size = a.size
  newlyAlloc : b.newlyAlloc = a.newlyAlloc
  dirty : b.dirty = a.dirty
  shouldFree : g = 0 → b.shouldFree = a.shouldFree

/-- What a call does to the region. -/
inductive Outcome [Zero W] (r : Region W) : Event W → Region W → Prop where
  | idle {e b} : moved e = none → Outcome r e { r with batcher := b }
  | alloc {tx size} : Outcome r (.alloc tx size true) (tmAlloc r tx size)
  | touch {e g seg} : moved e = some g → g ∈ r.live → Alike g (r.seg g) seg →
      Outcome r e (touch r g seg)
  | undo {e tx g seg} : moved e = none ∨ moved e = some g → g ∈ r.dirtySegLinks →
      Alike g (r.seg g) seg → Outcome r e (undo r tx g seg).leaveBatcher
  | finish {tx} : Outcome r (.finish tx) r.leaveBatcher

theorem storeWords_alike (tx : Tx) (g : SegId) (src : List W) (seg : Segment W) (k : ℕ) :
    Alike g seg (storeWords tx seg k src).2 := by
  induction src generalizing seg k with
  | nil => exact ⟨rfl, rfl, rfl, fun _ => rfl⟩
  | cons v src ih =>
    simp only [storeWords]
    split_ifs
    · have h := ih { seg with
        control := Function.update seg.control k (canWriteWord tx (seg.control k)).2
        write := Function.update seg.write k v } (k + 1)
      exact ⟨h.size, h.newlyAlloc, h.dirty, h.shouldFree⟩
    · exact ⟨rfl, rfl, rfl, fun _ => rfl⟩

theorem writeSegment_alike (tx : Tx) (g : SegId) (src : List W) (seg : Segment W) (k : ℕ) :
    Alike g seg (writeSegment tx seg k src).2 := by
  rw [writeSegment]
  split_ifs
  · exact ⟨rfl, rfl, rfl, fun _ => rfl⟩
  · exact ⟨rfl, rfl, rfl, fun _ => rfl⟩
  · exact storeWords_alike tx g src seg k

theorem undo_alike {r : Region W} {tx : Tx} {g : SegId} {seg : Segment W}
    (h : Alike g (r.seg g) seg) (x : SegId) : Alike x (r.seg x) ((undo r tx g seg).seg x) := by
  simp only [undo]
  split_ifs with hd hx
  · subst x
    exact ⟨h.size, h.newlyAlloc, h.dirty, h.shouldFree⟩
  · exact ⟨rfl, rfl, rfl, fun _ => rfl⟩
  · exact ⟨rfl, rfl, rfl, fun _ => rfl⟩

/-! ### The head of the clean list -/

theorem tmSize_congr {r t : Region W} (hl : t.segLinks = r.segLinks)
    (hs : ∀ g ∈ r.segLinks, (t.seg g).size = (r.seg g).size) : tmSize t = tmSize r := by
  rw [tmSize, tmSize, hl]
  cases hc : r.segLinks with
  | nil => rfl
  | cons x l => simp [hs x (by simp [hc])]

/-- A walk puts the survivors behind the clean segments. -/
theorem tmSize_left {r : Region W} (h : Tidy r) (hc : r.segLinks ≠ []) :
    tmSize r.leaveBatcher = tmSize r := by
  rw [Region.leaveBatcher]
  split_ifs
  · have hclean := h.cleaned
    obtain ⟨x, l, hx⟩ := List.exists_cons_of_ne_nil hc
    have hxd : x ∉ r.dirtySegLinks := h.disjoint (by simp [hx])
    have hseg := hclean.seg_other x (by simpa using hxd)
    simp [tmSize, hclean.segLinks, hx, hseg]
  · rfl

/-- The successor of a head that goes to the dirty list becomes the head. -/
theorem tmSize_touch {r : Region W} {g : SegId} {seg : Segment W} (ha : Alike g (r.seg g) seg) :
    tmSize (touch r g seg) = if r.segLinks.head? = some g
      then r.segLinks[1]?.map fun x => (r.seg x).size else tmSize r := by
  have size : ∀ x, ((touch r g seg).seg x).size = (r.seg x).size := by
    intro x
    by_cases hx : x = g
    · subst x
      rw [touch_same]
      exact ha.size
    · rw [touch_other hx]
  simp only [tmSize, size]
  simp only [touch]
  cases r.segLinks with
  | nil => simp
  | cons x l =>
    by_cases hx : x = g
    · subst x
      cases l <;> simp
    · simp [hx]

variable [Zero W]

theorem call_outcome {s : State W} (h : Tidy s.region) {e : Event W} (hp : Addressed s e) :
    Outcome s.region e (call s e).region := by
  cases e with
  | begin isRo => exact .idle rfl
  | alloc tx size ok =>
    cases ok with
    | true => exact .alloc
    | false => exact .idle rfl
  | finish tx =>
    simp only [call, State.leave]
    split_ifs
    · exact .finish
    · exact .finish
  | free tx g =>
    simp only [call, State.record, tmFree_eq h hp.1]
    exact .touch rfl hp.1 ⟨rfl, rfl, rfl, fun h0 => (hp.2 h0).elim⟩
  | read tx g k n =>
    obtain ⟨hg, -⟩ := hp
    simp only [call]
    rcases hr : tmRead s.region tx g k n with ⟨_ | target, r⟩
    · obtain ⟨hd, m, -, -, rfl⟩ := tmRead_none h hg hr
      have hm : moved (.read tx g k n : Event W) = none ∨
          moved (.read tx g k n : Event W) = some g := by
        simp only [moved]
        split_ifs
        · exact .inl rfl
        · exact .inr rfl
      have alike : Alike g (s.region.seg g) (marked tx (s.region.seg g) k m) :=
        ⟨rfl, rfl, rfl, fun _ => rfl⟩
      have undone : Outcome s.region (.read tx g k n)
          (undo s.region tx g (marked tx (s.region.seg g) k m)).leaveBatcher := .undo hm hd alike
      simp only [State.leave]
      split_ifs
      · exact undone
      · exact undone
    · obtain ⟨-, ⟨hro, rfl, -⟩ | ⟨hro, -, rfl, -⟩⟩ := tmRead_some h hg hr
      · exact .idle (by simp [moved, hro])
      · exact .touch (by simp [moved, hro]) hg ⟨rfl, rfl, rfl, fun _ => rfl⟩
  | write tx g k src =>
    obtain ⟨hg, hb⟩ := hp
    have alike := writeSegment_alike tx g src (s.region.seg g) k
    cases hok : (writeSegment tx (s.region.seg g) k src).1 with
    | true =>
      simp only [call, tmWrite, hok, if_true, State.record]
      rw [h.moveToDirty_eq hg alike.dirty]
      exact .touch rfl hg alike
    | false =>
      have hd : g ∈ s.region.dirtySegLinks := by
        by_contra hd
        rw [quiescent_write (h.clean hg hd) hb] at hok
        cases hok
      simp only [call, tmWrite, hok, Bool.false_eq_true, if_false, State.leave, h.undo_eq hd]
      split_ifs
      · exact .undo (.inr rfl) hd alike
      · exact .undo (.inr rfl) hd alike

namespace Anchored

variable {r t : Region W} {g : SegId} {seg : Segment W} {tx : Tx}

section

omit [Zero W]

theorem withBatcher (h : Anchored r) (b : Batcher Tx) : Anchored { r with batcher := b } :=
  ⟨⟨h.toChained.withBatcher b, h.quiet⟩, h.start, h.first, h.newlyAlloc, h.shouldFree⟩

theorem touched (h : Anchored r) (hg : g ∈ r.live) (ha : Alike g (r.seg g) seg) :
    Anchored (touch r g seg) := by
  refine ⟨h.toTidy.touched hg, h.start, h.first, ?_, ?_⟩
  · by_cases h0 : g = 0
    · subst g
      rw [touch_same]
      exact ha.newlyAlloc.trans h.newlyAlloc
    · rw [touch_other (Ne.symm h0)]
      exact h.newlyAlloc
  · by_cases h0 : g = 0
    · subst g
      rw [touch_same]
      exact (ha.shouldFree rfl).trans h.shouldFree
    · rw [touch_other (Ne.symm h0)]
      exact h.shouldFree

theorem undone (h : Anchored r) (ha : Alike g (r.seg g) seg) : Anchored (undo r tx g seg) := by
  have h0 : Alike 0 (r.seg 0) ((undo r tx g seg).seg 0) := undo_alike ha 0
  exact ⟨h.toTidy.undone ha.dirty, h.start, h.first, h0.newlyAlloc.trans h.newlyAlloc,
    (h0.shouldFree rfl).trans h.shouldFree⟩

theorem cleanup (h : Anchored r) : Anchored (epochCleanup r) := by
  have first : 0 ∈ (epochCleanup r).live := by
    by_contra hno
    have hdrop := (h.toTidy.cleanup_gone h.first).mp hno
    simp [Segment.dropped, Segment.successFree, Segment.failureAlloc, h.newlyAlloc,
      h.shouldFree] at hdrop
  have hq := h.toTidy.cleanup_quiescent first
  exact ⟨⟨h.toTidy.cleanup, fun g hg => h.toTidy.cleanup_quiescent (h.cleanup_segLinks.mp hg)⟩,
    h.cleaned.start.trans h.start, first, hq.newlyAlloc, hq.shouldFree⟩

theorem left (h : Anchored r) : Anchored r.leaveBatcher := by
  rw [Region.leaveBatcher]
  split_ifs
  · exact h.cleanup.withBatcher _
  · exact h.withBatcher _

theorem tmStart_eq (h : Anchored r) : tmStart r = some 0 := by
  rw [tmStart, h.start, if_pos h.first]

end

theorem alloc (h : Anchored r) (size : ℕ) : Anchored (tmAlloc r tx size) := by
  have h0 : 0 ≠ r.nextSeg := fun he => h.nextSeg_free (he ▸ h.first)
  have old : (tmAlloc r tx size).seg 0 = r.seg 0 := Region.setSeg_other _ _ _ h0
  refine ⟨h.toTidy.alloc size, h.start, Finset.mem_insert_of_mem h.first, ?_, ?_⟩
  · rw [old]
    exact h.newlyAlloc
  · rw [old]
    exact h.shouldFree

theorem outcome (h : Anchored r) {e : Event W} (ho : Outcome r e t) : Anchored t := by
  cases ho with
  | idle => exact h.withBatcher _
  | alloc => exact h.alloc _
  | touch _ hg ha => exact h.touched hg ha
  | undo _ _ ha => exact (h.undone ha).left
  | finish => exact h.left

theorem init (size : ℕ) : Anchored (tmCreate size : Region W) :=
  ⟨tmCreate_tidy size, rfl, by simp [tmCreate], rfl, rfl⟩

end Anchored

theorem answers_outcome {size : ℕ} {s : State W} {t : Region W} {e : Event W}
    (h : Anchored s.region) (hs : Answers size s.region) (ho : Outcome s.region e t) :
    Answers size t ↔ Succeeded size s e := by
  have hstart := (h.outcome ho).tmStart_eq
  have hc : s.region.segLinks ≠ [] := by
    intro hn
    have := hs.size
    simp [tmSize, hn] at this
  have kept : moved e = none ∨ (∃ g, moved e = some g ∧ g ∈ s.region.dirtySegLinks) →
      Succeeded size s e := by
    rintro (hm | ⟨g, hm, hd⟩) hne hh
    · exact (hne hm).elim
    · exact (h.disjoint (List.mem_of_head? (hh.trans hm)) hd).elim
  have answers : tmSize t = tmSize s.region → Answers size t := fun he =>
    ⟨hstart, he.trans hs.size⟩
  cases ho with
  | idle hm => exact iff_of_true (answers rfl) (kept (.inl hm))
  | alloc =>
    refine iff_of_true (answers (tmSize_congr rfl fun g hg => ?_)) (kept (.inl rfl))
    have hne : g ≠ s.region.nextSeg := fun he =>
      h.nextSeg_free (he ▸ (h.live g).mpr (.inl hg))
    rw [show (tmAlloc s.region _ _).seg g = s.region.seg g from Region.setSeg_other _ _ _ hne]
  | touch hm hg ha =>
    have hsize := tmSize_touch ha
    constructor
    · intro ht _ hh
      rw [hm] at hh
      rw [if_pos hh] at hsize
      exact hsize.symm.trans ht.size
    · intro hsucc
      refine ⟨hstart, ?_⟩
      rw [hsize]
      split_ifs with hh
      · exact hsucc (by simp [hm]) (hh.trans hm.symm)
      · exact hs.size
  | undo hm hd ha =>
    refine iff_of_true (answers ?_) (kept (hm.imp id fun hm => ⟨_, hm, hd⟩))
    rw [tmSize_left (h.undone ha).toTidy hc]
    exact tmSize_congr rfl fun x _ => (undo_alike ha x).size
  | finish => exact iff_of_true (answers (tmSize_left h.toTidy hc)) (kept (.inl rfl))

theorem step_region {s t : State W} {e : Event W} (ht : step s e = some t) : t = call s e := by
  rw [step] at ht
  split at ht
  · exact (Option.some.inj ht).symm
  · simp only [Option.ite_none_right_eq_some, Option.some.injEq] at ht
    exact ht.2.symm

theorem reachable_anchored {size : ℕ} {s : State W}
    (h : Reachable (system W size) Addressed s) : Anchored s.region := by
  refine h.invariant (I := fun s => Anchored s.region) ?_ ?_
  · rintro _ rfl
    exact Anchored.init size
  · intro s e t hs hp ht
    rw [step_region ht]
    exact hs.outcome (call_outcome hs.toTidy hp)

/-- The queries are right in every state, as long as no call takes the head off the clean
list unless a segment of the same size succeeds it. Such a call makes `tm_size` wrong. -/
theorem first_segment_queries {size : ℕ} {s : State W}
    (h : Reachable (system W size) (fun s e => Addressed s e ∧ Succeeded size s e) s) :
    Answers size s.region ∧ ∀ e t, Addressed s e → step s e = some t →
      (Answers size t.region ↔ Succeeded size s e) := by
  have anchored : ∀ s : State W, Reachable (system W size)
      (fun s e => Addressed s e ∧ Succeeded size s e) s → Anchored s.region :=
    fun s hs => reachable_anchored (hs.mono fun _ _ => And.left)
  have preserved : ∀ (s t : State W) (e : Event W), Anchored s.region → Answers size s.region →
      Addressed s e → step s e = some t → (Answers size t.region ↔ Succeeded size s e) := by
    intro s t e ha hs hp ht
    rw [step_region ht]
    exact answers_outcome ha hs (call_outcome ha.toTidy hp)
  have answers : Answers size s.region := by
    refine h.invariant_under (J := fun s => Answers size s.region) anchored ?_ ?_
    · rintro _ rfl
      exact ⟨(Anchored.init size).tmStart_eq, rfl⟩
    · exact fun s e t ha hs hp ht => (preserved s t e ha hs hp.1 ht).mpr hp.2
  exact ⟨answers, fun e t => preserved s t e (anchored s h) answers⟩

/-- A second segment is allocated, and in the next epoch the first one is written. -/
def writeFirst (size : ℕ) : List (Event ℕ) :=
  [.begin false, .alloc 1 size true, .finish 1, .begin false, .write 2 0 0 [7], .finish 2]

def afterWrite (size : ℕ) : State ℕ :=
  (run (system ℕ 1) (initial 1) (writeFirst size)).getD (initial 1)

theorem first_segment_queries_same_size : Answers 1 (afterWrite 1).region :=
  (first_segment_queries (.run (.init rfl) (writeFirst 1) (by decide) rfl)).1

/-- The other segment has become the head, and it has two words. -/
theorem size_of_another_segment : Reachable (system ℕ 1) Addressed (afterWrite 2) ∧
    tmSize (afterWrite 2).region = some 2 ∧ ¬ Answers 1 (afterWrite 2).region := by
  refine ⟨.run (.init rfl) (writeFirst 2) (by decide) rfl, by decide, by decide⟩

end FirstSegment
