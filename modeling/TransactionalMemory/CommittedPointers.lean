import TransactionalMemory.ExactDeallocation

/-! # Pointers in shared memory

Words hold data or pointers, and a client knows the addresses it was given. A pointer to a
segment of the running epoch stays in the write copies, under a mark of its allocator, so
that the guard of `_tm_read` and `_tm_write` never finds a stranger at a new segment. -/
namespace CommittedPointers

open TransitionSystem
open BatcherState
open ControlWord
open RegionState
open Calls
open CallEffects
open CallLog
open EpochBooks
open CallOutcomes
open AtomicCalls

/-- A word is data, or points to word `k` of a segment. -/
inductive Word (D : Type*) where
  | data (d : D)
  | pointer (g : SegId) (k : ℕ)
  deriving DecidableEq, Repr

variable {D : Type*}

instance [Zero D] : Zero (Word D) := ⟨.data 0⟩

def Word.target : Word D → Option SegId
  | .data _ => none
  | .pointer g _ => some g

def reveals : Entry (Word D) → List SegId
  | .alloc g _ => [g]
  | .read _ _ target => target.filterMap Word.target
  | _ => []

/-- The address comes from `tm_start`, from an allocation or a read of the transaction. -/
def Knows (start : SegId) (log : Log (Word D)) (tx : Tx) (g : SegId) : Prop :=
  g = start ∨ ∃ x ∈ log, x.1 = tx ∧ g ∈ reveals x.2

instance (start : SegId) (log : Log (Word D)) (tx : Tx) (g : SegId) :
    Decidable (Knows start log tx g) :=
  have : Decidable (∃ x ∈ log, x.1 = tx ∧ g ∈ reveals x.2) := List.decidableBEx _ _
  inferInstanceAs (Decidable (_ ∨ _))

def Freed (logs : List (Log (Word D))) (g : SegId) : Prop :=
  ∃ log ∈ logs, ∃ x ∈ log, x.2 = .free g ∧ (x.1, .commit) ∈ log

instance [DecidableEq D] (logs : List (Log (Word D))) (g : SegId) : Decidable (Freed logs g) :=
  have (log : Log (Word D)) : Decidable (∃ x ∈ log, x.2 = .free g ∧ (x.1, .commit) ∈ log) :=
    List.decidableBEx _ _
  List.decidableBEx _ _

/-- The transaction has the address of a segment that no earlier epoch freed. -/
def Holds (s : State (Word D)) (tx : Tx) (g : SegId) : Prop :=
  Knows s.region.start s.log tx g ∧ ¬ Freed s.closed g

instance [DecidableEq D] (s : State (Word D)) (tx : Tx) (g : SegId) : Decidable (Holds s tx g) :=
  inferInstanceAs (Decidable (_ ∧ _))

/-- Handles are as in `Lawful`; every address was obtained, in bounds and not freed, and
read-only transactions only read. -/
def Honest (s : State (Word D)) : Event (Word D) → Prop
  | .begin isRo => Lawful s (.begin isRo)
  | .read tx g k n => Holds s tx g ∧ k + n ≤ (s.region.seg g).size
  | .write tx g k src => isTxReadonly tx = false ∧ Holds s tx g ∧
      k + src.length ≤ (s.region.seg g).size ∧
      ∀ x ∈ src.filterMap Word.target, Knows s.region.start s.log tx x
  | .alloc tx _ _ => isTxReadonly tx = false
  | .free tx g => isTxReadonly tx = false ∧ Holds s tx g
  | .finish _ => True

instance [DecidableEq D] (s : State (Word D)) (e : Event (Word D)) : Decidable (Honest s e) :=
  match e with
  | .begin isRo => inferInstanceAs (Decidable (Lawful s (.begin isRo)))
  | .read .. | .free .. => inferInstanceAs (Decidable (_ ∧ _))
  | .write tx _ _ src =>
    have : Decidable (∀ x ∈ src.filterMap Word.target, Knows s.region.start s.log tx x) :=
      List.decidableBAll _ _
    inferInstanceAs (Decidable (_ ∧ _ ∧ _ ∧ _))
  | .alloc .. => inferInstanceAs (Decidable (_ = _))
  | .finish _ => inferInstanceAs (Decidable True)

def AllocatorAborted (logs : List (Log (Word D))) (g : SegId) : Prop :=
  ∃ log ∈ logs, ∃ u size, (u, .alloc g size) ∈ log ∧ (u, .abort) ∈ log

/-- The segment of `tm_create`, or one whose allocator committed in one of the epochs. -/
def Settled (start : SegId) (logs : List (Log (Word D))) (g : SegId) : Prop :=
  g = start ∨ ∃ log ∈ logs, ∃ u size, (u, .alloc g size) ∈ log ∧ (u, .commit) ∈ log

/-- No guard is met, no reader fails, no pointer dangles from an abort. -/
structure Sealed [Zero D] (s : State (Word D)) : Prop where
  read : ∀ tx ∈ s.active, ∀ g k n, Honest s (.read tx g k n) →
    g ∈ s.region.live ∧ ¬ ((s.region.seg g).newlyAlloc = true ∧ (s.region.seg g).owner ≠ tx)
  write : ∀ tx ∈ s.active, ∀ g k src, Honest s (.write tx g k src) →
    g ∈ s.region.live ∧ ¬ ((s.region.seg g).newlyAlloc = true ∧ (s.region.seg g).owner ≠ tx)
  readers : ∀ tx ∈ s.active, ∀ g k n, Honest s (.read tx g k n) → isTxReadonly tx = true →
    (tmRead s.region tx g k n).1 ≠ none
  committed : ∀ g ∈ s.region.live, ∀ i x, ((s.region.seg g).read i).target = some x →
    ¬ AllocatorAborted (s.closed ++ [s.log]) x

/-- Where pointers may be, given the logs of the closed epochs and of the running one. -/
structure Provenance (closed : List (Log (Word D))) (log : Log (Word D)) (r : Region (Word D)) :
    Prop where
  known : ∀ tx x, Knows r.start log tx x → Settled r.start closed x ∨ allocator log x = some tx
  read : ∀ g ∈ r.live, ∀ i x, ((r.seg g).read i).target = some x → Settled r.start closed x
  held : ∀ g ∈ r.live, ∀ i x, ((r.seg g).control i).written = true →
    ((r.seg g).write i).target = some x →
      Settled r.start closed x ∨ allocator log x = some ((r.seg g).control i).access
  settled : ∀ x, Settled r.start closed x → (x ∈ r.live ∨ Freed closed x) ∧
    allocator log x = none ∧ ¬ AllocatorAborted closed x
  older : ∀ l ∈ closed, ∀ u x size, (u, .alloc x size) ∈ l →
    x < r.nextSeg ∧ allocator log x = none
  start : r.start < r.nextSeg

section Allocations

variable {log : Log (Word D)} {tx u : Tx} {e : Entry (Word D)} {g x : SegId}

theorem allocator_keeps (h : allocator log x = some u) :
    allocator (log ++ [(tx, e)]) x = some u := by
  rw [allocator] at h ⊢
  rw [List.findSome?_append, h, Option.some_or]

theorem settled_snoc {start : SegId} {logs : List (Log (Word D))} {l : Log (Word D)} :
    Settled start (logs ++ [l]) x ↔
      Settled start logs x ∨ ∃ u size, (u, .alloc x size) ∈ l ∧ (u, .commit) ∈ l := by
  constructor
  · rintro (h | ⟨l', hl, h⟩)
    · exact .inl (.inl h)
    · rcases List.mem_append.mp hl with hl | hl
      · exact .inl (.inr ⟨l', hl, h⟩)
      · rw [List.mem_singleton] at hl
        subst l'
        exact .inr h
  · rintro ((h | ⟨l', hl, h⟩) | h)
    · exact .inl h
    · exact .inr ⟨l', List.mem_append_left _ hl, h⟩
    · exact .inr ⟨l, by simp, h⟩

theorem allocatorAborted_snoc {logs : List (Log (Word D))} {l : Log (Word D)} :
    AllocatorAborted (logs ++ [l]) x ↔
      AllocatorAborted logs x ∨ ∃ u size, (u, .alloc x size) ∈ l ∧ (u, .abort) ∈ l := by
  constructor
  · rintro ⟨l', hl, h⟩
    rcases List.mem_append.mp hl with hl | hl
    · exact .inl ⟨l', hl, h⟩
    · rw [List.mem_singleton] at hl
      subst l'
      exact .inr h
  · rintro (⟨l', hl, h⟩ | h)
    · exact ⟨l', List.mem_append_left _ hl, h⟩
    · exact ⟨l, by simp, h⟩

theorem freed_snoc {logs : List (Log (Word D))} {l : Log (Word D)} :
    Freed (logs ++ [l]) x ↔ Freed logs x ∨ ∃ u, (u, .free x) ∈ l ∧ (u, .commit) ∈ l := by
  constructor
  · rintro ⟨l', hl, ⟨u, e⟩, hin, rfl, hc⟩
    rcases List.mem_append.mp hl with hl | hl
    · exact .inl ⟨l', hl, (u, .free x), hin, rfl, hc⟩
    · rw [List.mem_singleton] at hl
      subst l'
      exact .inr ⟨u, hin, hc⟩
  · rintro (⟨l', hl, h⟩ | ⟨u, hf, hc⟩)
    · exact ⟨l', List.mem_append_left _ hl, h⟩
    · exact ⟨l, by simp, (u, .free x), hf, rfl, hc⟩

theorem knows_snoc {start : SegId} : Knows start (log ++ [(tx, e)]) u x ↔
    Knows start log u x ∨ (u = tx ∧ x ∈ reveals e) := by
  simp only [Knows, mem_snoc, or_and_right, exists_or, or_assoc, exists_eq_left]
  simp only [eq_comm]

end Allocations

namespace Provenance

variable {closed : List (Log (Word D))} {log : Log (Word D)} {r t : Region (Word D)}
variable {tx : Tx} {e : Entry (Word D)} {g : SegId} {seg : Segment (Word D)}

theorem withBatcher (h : Provenance closed log r) (b : Batcher Tx) :
    Provenance closed log { r with batcher := b } :=
  ⟨h.known, h.read, h.held, h.settled, h.older, h.start⟩

/-- The pointers in a write copy: under a mark only those of its owner are new. -/
theorem write (h : Provenance closed log r) (hk : Kept log g (r.seg g)) (hg : g ∈ r.live) {i : ℕ}
    {x : SegId} (hx : ((r.seg g).write i).target = some x) : Settled r.start closed x ∨
      (((r.seg g).control i).written = true ∧
        allocator log x = some ((r.seg g).control i).access) := by
  cases hw : ((r.seg g).control i).written with
  | true => exact (h.held g hg i x hw hx).imp_right fun ha => ⟨rfl, ha⟩
  | false =>
    rw [(hk.words i).equal hw] at hx
    exact .inl (h.read g hg i x hx)

theorem logged (h : Provenance closed log r) (he : ∀ x size, e ≠ .alloc x size)
    (hr : ∀ x ∈ reveals e, Settled r.start closed x ∨ allocator log x = some tx) :
    Provenance closed (log ++ [(tx, e)]) r := by
  have same : ∀ x, allocator (log ++ [(tx, e)]) x = allocator log x :=
    fun x => allocator_snoc (he x)
  refine ⟨fun u x hk => ?_, h.read, fun g hg i x => ?_, fun x hs => ?_, fun l hl u x size => ?_,
    h.start⟩
  · rw [same]
    rcases knows_snoc.mp hk with hk | ⟨rfl, hx⟩
    · exact h.known u x hk
    · exact hr x hx
  · rw [same]
    exact h.held g hg i x
  · rw [same]
    exact h.settled x hs
  · rw [same]
    exact h.older l hl u x size

theorem touched (h : Provenance closed log r) (hr : seg.read = (r.seg g).read)
    (hw : ∀ i x, (seg.control i).written = true → (seg.write i).target = some x →
      Settled r.start closed x ∨ allocator log x = some (seg.control i).access) :
    Provenance closed log (touch r g seg) := by
  refine ⟨h.known, fun y hy i x => ?_, fun y hy i x => ?_, h.settled, h.older, h.start⟩
  · by_cases hyg : y = g
    · rw [hyg, touch_same]
      simp only [hr]
      exact h.read g (hyg ▸ hy) i x
    · rw [touch_other hyg]
      exact h.read y hy i x
  · by_cases hyg : y = g
    · rw [hyg, touch_same]
      exact hw i x
    · rw [touch_other hyg]
      exact h.held y hy i x

/-- A word that a rollback leaves marked was not one of the transaction. -/
theorem rolledBack_written {a : Segment (Word D)} {i : ℕ}
    (hw : ((rolledBack tx a).control i).written = true) :
    (i < a.size → (rollbackWord tx (a.control i)).1 = false) ∧
      (rolledBack tx a).control i = a.control i ∧ (rolledBack tx a).write i = a.write i := by
  have miss : i < a.size → (rollbackWord tx (a.control i)).1 = false := by
    intro hi
    by_contra hhit
    obtain ⟨hwi, hacc⟩ := rollbackWord_hit.mp (by simpa using hhit)
    simp [rolledBack, hi, rollbackWord, hwi, hacc] at hw
  refine ⟨miss, ?_, ?_⟩
  · simp only [rolledBack]
    split_ifs with hi
    · exact rollbackWord_miss (miss hi)
    · rfl
  · simp only [rolledBack]
    split_ifs with hi
    · rw [miss hi.1] at hi
      cases hi.2
    · rfl

theorem undone (h : Provenance closed log r) (hr : seg.read = (r.seg g).read)
    (hw : ∀ i, (seg.control i).written = true →
      (seg.control i = (r.seg g).control i ∧ seg.write i = (r.seg g).write i) ∨
        ((seg.control i).access = tx ∧ i < seg.size)) :
    Provenance closed log (undo r tx g seg) := by
  have kept : ∀ y ∈ r.live, ∀ i x (a : Segment (Word D)), a.read = (r.seg y).read →
      ((rolledBack tx a).read i).target = some x → Settled r.start closed x := by
    intro y hy i x a ha hx
    rw [rolledBack] at hx
    simp only [ha] at hx
    exact h.read y hy i x hx
  have held : ∀ y ∈ r.live, ∀ i x (a : Segment (Word D)),
      ((a.control i).written = true → (a.control i = (r.seg y).control i ∧
        a.write i = (r.seg y).write i) ∨ ((a.control i).access = tx ∧ i < a.size)) →
      ((rolledBack tx a).control i).written = true →
      ((rolledBack tx a).write i).target = some x →
        Settled r.start closed x ∨
          allocator log x = some ((rolledBack tx a).control i).access := by
    intro y hy i x a ha hwr hx
    obtain ⟨miss, hc, hv⟩ := rolledBack_written hwr
    rw [hc] at hwr ⊢
    rw [hv] at hx
    rcases ha hwr with ⟨hsame, hval⟩ | ⟨hacc, hi⟩
    · rw [hsame] at hwr ⊢
      rw [hval] at hx
      exact h.held y hy i x hwr hx
    · have := miss hi
      rw [Bool.eq_false_iff, Ne, rollbackWord_hit] at this
      exact (this ⟨hwr, hacc⟩).elim
  refine ⟨h.known, fun y hy i x => ?_, fun y hy i x => ?_, h.settled, h.older, h.start⟩
  · simp only [undo]
    split_ifs with hd hyg
    · exact kept y hy i x seg (hyg ▸ hr)
    · exact kept y hy i x _ rfl
    · exact h.read y hy i x
  · simp only [undo]
    split_ifs with hd hyg
    · subst y
      exact held g hy i x seg (hw i)
    · exact held y hy i x _ fun _ => .inl ⟨rfl, rfl⟩
    · exact h.held y hy i x

/-- A read gives away committed addresses, or what the transaction wrote itself. -/
theorem readTarget (h : Provenance closed log r) (hb : Books log r) (hg : g ∈ r.live) {k n : ℕ}
    (ok : ∀ i, inRange k n i = true → (canReadWord tx ((r.seg g).control i)).1 = true) :
    ∀ x ∈ (copyOut (r.seg g).write k n).filterMap Word.target,
      Settled r.start closed x ∨ allocator log x = some tx := by
  intro x hx
  simp only [copyOut, List.mem_filterMap, List.mem_map, List.mem_range] at hx
  obtain ⟨w, ⟨j, hj, rfl⟩, hx⟩ := hx
  rcases h.write (hb.kept g hg) hg hx with hs | ⟨hw, ha⟩
  · exact .inl hs
  · have hpass := canReadWord_pass.mp (ok (k + j) (inRange_iff.mpr ⟨by omega, by omega⟩))
    rw [hw] at hpass
    rw [hpass.resolve_left (by simp)] at ha
    exact .inr ha

theorem stored_word (hk : Kept log g (r.seg g)) (hx : tx ≠ 0#64) {k m i : ℕ}
    {src : List (Word D)} (hi : inRange k m i = true)
    (ok : ∀ i, inRange k m i = true → (canWriteWord tx ((r.seg g).control i)).1 = true) :
    ((stored tx (r.seg g) k src m).control i).access = tx := by
  have hc := ((hk.words i).exclusive.write hx (ok i hi)).2
  simp [stored, hi, hc]

theorem failed (h : Provenance closed log r) (hb : Books log r) (hx : tx ≠ 0#64)
    (hf : Failed r tx t) : Provenance closed (log ++ [(tx, .abort)]) t := by
  cases hf with
  | @read g k m hd _ ok =>
    refine Provenance.logged (h.undone rfl fun i hw => .inl ⟨?_, rfl⟩) (by simp)
      (by simp [reveals])
    simp only [marked] at hw ⊢
    split_ifs at hw ⊢ with hi
    · rw [canReadWord_written] at hw
      exact canReadWord_kept hw
    · rfl
  | @write g k m src hd hbound ok =>
    have hg := (hb.tidy.live g).mpr (.inr hd)
    refine Provenance.logged (h.undone rfl fun i hw => ?_) (by simp) (by simp [reveals])
    cases hi : inRange k m i with
    | true =>
      refine .inr ⟨stored_word (hb.kept g hg) hx hi ok, ?_⟩
      rw [inRange_iff] at hi
      exact lt_of_lt_of_le hi.2 hbound
    | false => exact .inl (by simp [stored, hi])

/-- A segment survives the epoch, unless a committed transaction freed it or an aborted one
allocated it. -/
theorem survives (hb : Books log r) (he : Ends used ∅ log) {x : SegId} (hl : x ∈ r.live)
    (hx : ∀ u size, (u, .alloc x size) ∈ log → (u, .abort) ∉ log) :
    x ∈ (epochCleanup r).live ∨ ∃ u, (u, .free x) ∈ log ∧ (u, .commit) ∈ log := by
  have hflags := (hb.kept x hl).toFlags
  by_contra hno
  rw [not_or] at hno
  rcases hflags.dropped_iff.mp ((hb.tidy.cleanup_gone hl).mp hno.1) with
    ⟨hov, u, hf⟩ | ⟨hov, u, ha⟩
  · obtain ⟨v, hc, hf⟩ := ExactDeallocation.freed_committed hflags he hov hf
    exact hno.2 ⟨v, hf, hc⟩
  · obtain ⟨size, hin⟩ := mem_of_allocator ha
    exact hx u size hin ((hflags.overruled_new ha).mp hov)

theorem mark_committed (hb : Books log r) (he : Ends used ∅ log) (hg : g ∈ r.live) {i : ℕ}
    (hw : ((r.seg g).control i).written = true) :
    (((r.seg g).control i).access, .commit) ∈ log := by
  obtain ⟨hna, e, hin, -⟩ := ((hb.kept g hg).words i).held hw
  rcases he.ended _ e hin with ha | hc | ha
  · simp at ha
  · exact hc
  · exact (hna ha).elim

theorem close (h : Provenance closed log r) (hb : Books log r) (he : Ends used ∅ log)
    (b : Batcher Tx) :
    Provenance (closed ++ [log]) [] { epochCleanup r with batcher := b } := by
  have hstart := hb.tidy.cleaned.start
  have hnext := hb.tidy.cleaned.nextSeg
  have sole : ∀ {u v x size size'}, (u, .alloc x size) ∈ log → (v, .alloc x size') ∈ log →
      u = v := by
    intro u v x size size' hu hv
    have hl := (hb.filed u _ hu).claimed x rfl
    have halloc := (ExactDeallocation.allocated_iff (hb.kept x hl).toFlags).mp ⟨size', hv⟩
    exact (hb.kept x hl).own v u _ halloc hu rfl
  -- a pointer of the epoch that is about to be committed
  have promoted : ∀ g ∈ r.live, ∀ i x, ((r.seg g).write i).target = some x →
      Settled r.start (closed ++ [log]) x := by
    intro g hg i x hx
    rcases h.write (hb.kept g hg) hg hx with hs | ⟨hw, ha⟩
    · exact settled_snoc.mpr (.inl hs)
    · obtain ⟨size, hin⟩ := mem_of_allocator ha
      exact settled_snoc.mpr (.inr ⟨_, size, hin, mark_committed hb he hg hw⟩)
  refine ⟨fun tx x hk => ?_, fun g hg i x hx => ?_, fun g hg i x hw => ?_, fun x hs => ?_,
    fun l hl u x size hin => ⟨?_, rfl⟩, ?_⟩
  · rcases hk with hk | ⟨y, hy, -⟩
    · exact .inl (.inl hk)
    · simp at hy
  · simp only [hstart]
    have hlive := (hb.tidy.cleanup_live.mp hg).1
    simp only [hb.tidy.cleanup_seg hg] at hx
    split_ifs at hx with hd
    · exact promoted g hlive i x hx
    · exact settled_snoc.mpr (.inl (h.read g hlive i x hx))
  · rw [(hb.tidy.cleanup_quiescent hg).control i] at hw
    cases hw
  · simp only [hstart] at hs
    have split := settled_snoc.mp hs
    have clear : ∀ u size, (u, .alloc x size) ∈ log → (u, .abort) ∉ log := by
      intro u size hin
      rcases split with hs | ⟨v, size', hv, hc⟩
      · exact (allocator_isSome hin (h.settled x hs).2.1).elim
      · rw [sole hin hv]
        exact he.once v hc
    have there : x ∈ r.live ∨ Freed closed x := by
      rcases split with hs | ⟨v, size', hv, -⟩
      · exact (h.settled x hs).1
      · exact .inl ((hb.filed v _ hv).claimed x rfl)
    refine ⟨?_, rfl, ?_⟩
    · rw [freed_snoc]
      rcases there with hl | hf
      · exact (survives hb he hl clear).imp_right .inr
      · exact .inr (.inl hf)
    · rw [allocatorAborted_snoc]
      rintro (⟨l, hl, u, size, hin, hab⟩ | ⟨u, size, hin, hab⟩)
      · rcases split with hs | ⟨v, size', hv, -⟩
        · exact (h.settled x hs).2.2 ⟨l, hl, u, size, hin, hab⟩
        · exact allocator_isSome hv (h.older l hl u x size hin).2
      · exact clear u size hin hab
  · simp only [hnext]
    rcases List.mem_append.mp hl with hl | hl
    · exact (h.older l hl u x size hin).1
    · rw [List.mem_singleton] at hl
      subst l
      exact hb.tidy.fresh x ((hb.filed u _ hin).claimed x rfl)
  · simp only [hstart, hnext]
    exact h.start

variable [Zero D]

theorem alloc (h : Provenance closed log r) (hb : Books log r) (size : ℕ) :
    Provenance closed (log ++ [(tx, .alloc r.nextSeg size)]) (tmAlloc r tx size) := by
  have new : (tmAlloc r tx size).seg r.nextSeg = allocSegment size tx := Region.setSeg_same _ _ _
  have old : ∀ y, y ≠ r.nextSeg → (tmAlloc r tx size).seg y = r.seg y := fun y hy =>
    Region.setSeg_other _ _ _ hy
  have live : ∀ y, y ∈ (tmAlloc r tx size).live → y ≠ r.nextSeg → y ∈ r.live := fun y hy hne =>
    (Finset.mem_insert.mp hy).resolve_left hne
  have fresh : allocator log r.nextSeg = none := by
    cases ha : allocator log r.nextSeg with
    | none => rfl
    | some u =>
      obtain ⟨size', hin⟩ := mem_of_allocator ha
      exact (hb.tidy.nextSeg_free ((hb.filed u _ hin).claimed _ rfl)).elim
  have same : ∀ x, x ≠ r.nextSeg →
      allocator (log ++ [(tx, .alloc r.nextSeg size)]) x = allocator log x := fun x hx =>
    allocator_snoc (by simp [Ne.symm hx])
  refine ⟨fun u x hk => ?_, fun y hy i x hx => ?_, fun y hy i x hw hx => ?_, fun x hs => ?_,
    fun l hl u x size' hin => ?_, Nat.lt_succ_of_lt h.start⟩
  · rcases knows_snoc.mp hk with hk | ⟨rfl, hx⟩
    · exact (h.known u x hk).imp_right allocator_keeps
    · rw [reveals, List.mem_singleton] at hx
      subst x
      exact .inr (allocator_alloc size fresh)
  · by_cases hyn : y = r.nextSeg
    · rw [hyn, new] at hx
      cases hx
    · rw [old y hyn] at hx
      exact h.read y (live y hy hyn) i x hx
  · by_cases hyn : y = r.nextSeg
    · rw [hyn, new] at hx
      cases hx
    · rw [old y hyn] at hw hx ⊢
      exact (h.held y (live y hy hyn) i x hw hx).imp_right allocator_keeps
  · obtain ⟨hl, hn, ha⟩ := h.settled x hs
    have hne : x ≠ r.nextSeg := by
      rintro rfl
      rcases hs with hs | ⟨l, hl, u, size', hin, -⟩
      · exact h.start.ne hs.symm
      · exact Nat.lt_irrefl _ (h.older l hl u _ size' hin).1
    exact ⟨hl.imp_left (Finset.mem_insert_of_mem), (same x hne).trans hn, ha⟩
  · obtain ⟨hlt, hn⟩ := h.older l hl u x size' hin
    exact ⟨Nat.lt_succ_of_lt hlt, (same x hlt.ne).trans hn⟩

theorem done (h : Provenance closed log r) (hb : Books log r) (hx : tx ≠ 0#64)
    (hs : ∀ g k src, e = .write g k src → ∀ x ∈ src.filterMap Word.target, Knows r.start log tx x)
    (hd : Done log r tx e t) : Provenance closed (log ++ [(tx, e)]) t := by
  cases hd with
  | @readCopy g k n hg _ _ _ =>
    refine Provenance.logged h (by simp) fun x hx => .inl ?_
    simp only [reveals, copyOut, List.mem_filterMap, List.mem_map] at hx
    obtain ⟨w, ⟨j, -, rfl⟩, hx⟩ := hx
    exact h.read g hg _ x hx
  | @read g k n hg _ _ _ ok =>
    refine Provenance.logged (h.touched rfl fun i x hw hx => ?_) (by simp)
      (h.readTarget hb hg ok)
    simp only [marked] at hw hx ⊢
    split_ifs at hw ⊢ with hi
    · rw [canReadWord_written] at hw
      rw [canReadWord_kept hw]
      exact h.held g hg i x hw hx
    · exact h.held g hg i x hw hx
  | @write g k src hg _ _ ok =>
    refine Provenance.logged (h.touched rfl fun i x hw hv => ?_) (by simp) (by simp [reveals])
    cases hi : inRange k src.length i with
    | true =>
      rw [stored_word (hb.kept g hg) hx hi ok]
      have hlt : i - k < src.length := by
        rw [inRange_iff] at hi
        omega
      refine h.known tx x (hs g k src rfl x (List.mem_filterMap.mpr ⟨src[i - k], ?_, ?_⟩))
      · exact List.getElem_mem hlt
      · simpa [stored, hi, hlt] using hv
    | false =>
      simp only [stored, hi, Bool.false_eq_true, if_false] at hw hv ⊢
      exact h.held g hg i x hw hv
  | alloc => exact h.alloc hb _
  | @free g hg _ =>
    exact Provenance.logged (h.touched rfl fun i x hw hv => h.held g hg i x hw hv) (by simp)
      (by simp [reveals])

end Provenance

variable [Zero D] {s t : State (Word D)} {tx : Tx} {e : Event (Word D)} {g : SegId}

structure Traceable (s : State (Word D)) : Prop extends AtomicCalls.Invariant s where
  origin : Provenance s.closed s.log s.region

omit [Zero D] in
/-- A segment whose address a client may use is live, and old or the client's own. -/
theorem Traceable.holds (h : Traceable s) (hh : Holds s tx g) : g ∈ s.region.live ∧
    (allocator s.log g = none ∨ allocator s.log g = some tx) := by
  rcases h.origin.known tx g hh.1 with hs | ha
  · obtain ⟨hl, hn, -⟩ := h.origin.settled g hs
    exact ⟨hl.resolve_right hh.2, .inl hn⟩
  · obtain ⟨size, hin⟩ := mem_of_allocator ha
    exact ⟨(h.books.filed tx _ hin).claimed g rfl, .inr ha⟩

omit [Zero D] in
theorem Traceable.lawful (h : Traceable s) (hp : Honest s e) : Lawful s e := by
  cases e with
  | begin isRo => exact hp
  | read tx g k n => exact ⟨(h.holds hp.1).1, hp.2⟩
  | write tx g k src => exact ⟨(h.holds hp.2.1).1, hp.2.2.1⟩
  | alloc tx size ok => trivial
  | free tx g => exact h.holds hp.2
  | finish tx => trivial

omit [Zero D] in
theorem Traceable.usable (h : Traceable s) (hh : Holds s tx g) : Usable tx (s.region.seg g) := by
  obtain ⟨hl, hown⟩ := h.holds hh
  have hflags := (h.books.kept g hl).toFlags
  rintro ⟨hnew, hne⟩
  rw [hflags.newlyAlloc] at hnew
  rcases hown with hn | ha
  · rw [hn] at hnew
    cases hnew
  · rw [hflags.owner, hflags.holder_new ha] at hne
    exact hne rfl

omit [Zero D] in
theorem Traceable.leave (h : Traceable s) (ha : tx ∈ s.active) {e : Entry (Word D)}
    {r : Region (Word D)} (he : e = .commit ∨ e = .abort)
    (hb : r.batcher = s.region.batcher) (hl : r.live = s.region.live)
    (hr : Books (s.log ++ [(tx, e)]) r) (ho : Provenance s.closed (s.log ++ [(tx, e)]) r) :
    Provenance (s.leave tx e r.leaveBatcher).closed (s.leave tx e r.leaveBatcher).log
      (s.leave tx e r.leaveBatcher).region := by
  cases hlast : lastToLeave s.region.batcher with
  | true =>
    have hc : (s.leave tx e r.leaveBatcher).closed = s.closed ++ [s.log ++ [(tx, e)]] := by
      simp [State.leave, hlast]
    obtain ⟨-, hclose⟩ := h.toInvariant.closing ha he hb hr hl hc
    rw [hc, hclose.region]
    simpa [State.leave, hlast] using ho.close hr hclose.ends (BatcherState.leaveBatcher r.batcher)
  | false =>
    simpa [State.leave, Region.leaveBatcher, hb, hlast] using
      ho.withBatcher (BatcherState.leaveBatcher s.region.batcher)

theorem step_traceable (h : Traceable s) (hp : Honest s e) (ht : step s e = some t) :
    Traceable t := by
  have hlaw := h.lawful hp
  refine ⟨step_preserves h.toInvariant hlaw ht, ?_⟩
  have named : ∀ {tx}, tx ∈ s.active → tx ≠ 0#64 := fun ha =>
    h.crew.named _ (h.crew.member _ ha)
  cases step_effect h.books hlaw ht with
  | begin => exact h.origin.withBatcher _
  | nomem => exact h.origin
  | read ha hd => exact h.origin.done h.books (named ha) (by simp) hd
  | write ha hd =>
    refine h.origin.done h.books (named ha) (fun g k src he x hx => ?_) hd
    cases he
    exact hp.2.2.2 x hx
  | alloc ha hd => exact h.origin.done h.books (named ha) (by simp) hd
  | free ha hd => exact h.origin.done h.books (named ha) (by simp) hd
  | fail ha _ hf =>
    obtain ⟨hb, hl⟩ := failed_batcher hf
    exact h.leave ha (.inr rfl) hb hl (h.failed ha hf)
      (h.origin.failed h.books (named ha) hf)
  | finish ha =>
    exact h.leave ha (.inl rfl) rfl rfl (h.finished ha)
      (h.origin.logged (by simp) (by simp [reveals]))

theorem reachable_traceable {size : ℕ} (h : Reachable (system (Word D) size) Honest s) :
    Traceable s := by
  refine h.invariant ?_ fun s e t hs hp ht => step_traceable hs hp ht
  rintro _ rfl
  refine ⟨AtomicCalls.Invariant.init size, ?_⟩
  refine ⟨fun tx x hk => .inl ?_, fun g _ i x hx => ?_, fun g _ i x hw => ?_, fun x hs => ?_,
    by simp [initial], by simp [initial, tmCreate]⟩
  · rcases hk with hk | ⟨y, hy, -⟩
    · exact .inl hk
    · simp [initial] at hy
  · cases hx
  · cases hw
  · rcases hs with hs | ⟨l, hl, -⟩
    · refine ⟨.inl ?_, rfl, ?_⟩
      · simp [hs, initial, tmCreate]
      · rintro ⟨l, hl, -⟩
        simp [initial] at hl
    · simp [initial] at hl

/-- In every run of honest clients the guard on new segments is idle, read-only transactions
succeed, and no committed word points to a segment of an aborted allocation. -/
theorem committed_pointers {size : ℕ} (h : Reachable (system (Word D) size) Honest s) :
    Sealed s := by
  have ht := reachable_traceable h
  refine ⟨fun tx _ g k n hp => ?_, fun tx _ g k src hp => ?_, fun tx _ g k n hp hro => ?_,
    fun g hg i x hx => ?_⟩
  · exact ⟨(ht.holds hp.1).1, ht.usable hp.1⟩
  · exact ⟨(ht.holds hp.2.1).1, ht.usable hp.2.1⟩
  · have hu := ht.usable hp.1
    simp only [Usable] at hu
    simp [tmRead, readSegment, hu, hro]
  · obtain ⟨-, hn, hclosed⟩ := ht.origin.settled x (ht.origin.read g hg i x hx)
    rintro ⟨l, hl, u, size', hin, hab⟩
    rcases List.mem_append.mp hl with hl | hl
    · exact hclosed ⟨l, hl, u, size', hin, hab⟩
    · rw [List.mem_singleton] at hl
      subst l
      exact allocator_isSome hin hn

/-- Transaction 1 publishes a segment. Transaction 2 publishes another one in its place and
aborts at the word that 3 wrote; then a reader follows the pointer that is left. -/
def publish : List (Event (Word ℕ)) :=
  [.begin false, .begin false, .begin false, .alloc 1 1 true, .write 1 1 0 [.data 5],
    .write 1 0 0 [.pointer 1 0], .finish 1, .alloc 2 1 true, .write 2 0 0 [.pointer 2 0],
    .write 3 0 1 [.data 6], .write 2 0 1 [.data 7], .finish 3, .begin true,
    .read (4 ||| readOnlyTx) 0 0 1]
def published : State (Word ℕ) := (run (system (Word ℕ) 2) (initial 2) publish).getD (initial 2)

theorem committed_pointers_published : Sealed published ∧
    Honest published (.read (4 ||| readOnlyTx) 1 0 1) ∧
    AllocatorAborted published.closed 2 ∧
    (tmRead published.region (4 ||| readOnlyTx) 1 0 1).1 = some [.data 5] := by
  have hr : Reachable (system (Word ℕ) 2) Honest published :=
    Reachable.run (.init rfl) publish (by decide) rfl
  refine ⟨committed_pointers hr, by decide, ?_, by decide⟩
  exact ⟨published.closed.getLastD [], by decide, 2, 1, by decide, by decide⟩

end CommittedPointers
