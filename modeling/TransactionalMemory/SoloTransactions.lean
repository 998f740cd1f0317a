import TransactionalMemory.SerialPrograms
import TransactionalMemory.Serializability

/-! # Serial programs on the library

A transaction that has the epoch to itself finds only its own marks and is never refused.
Its calls act on the plain memory it sees, and the epoch ends with it. -/
namespace SoloTransactions

open TransitionSystem
open BatcherState
open ControlWord
open RegionState
open Calls
open CallEffects
open CallLog
open EpochBooks
open CallOutcomes
open AtomicCalls
open PlainMemory
open SerialViews
open SerialRuns
open Serializability
open Lockstep
open SerialPrograms

variable {W : Type*}

def Call.event (tx : Tx) : SerialPrograms.Call W → Event W
  | .read g k n => .read tx g k n
  | .write g k src => .write tx g k src
  | .alloc n => .alloc tx n true
  | .free g => .free tx g

/-- What the caller gets; `none` is the return value `false`. -/
def delivered (s : State W) : Event W → Option (List (List W))
  | .read tx g k n => (tmRead s.region tx g k n).1.map fun target => [target]
  | .write tx g k src => if (tmWrite s.region tx g k src).1 then some [] else none
  | _ => some []

def templateCall [Zero W] (tx : Tx) (s : State W) (c : SerialPrograms.Call W) :
    Option (List (List W) × State W) :=
  (delivered s (Call.event tx c)).map fun out => (out, call s (Call.event tx c))

/-- `tm_begin` waits while an epoch is running. -/
def templateTransaction [Zero W] (s : State W) (p : Transaction W) :
    Option (List (List W) × State W) :=
  let tx := txId s.transCounter p.isRo
  if s.region.batcher.remaining = 0 then
    (answers (templateCall tx) (call s (.begin p.isRo)) p.calls).map fun (out, s) =>
      (out, call s (.finish tx))
  else none

def templateProgram [Zero W] (size : ℕ) (ps : List (Transaction W)) : Option (List (List W)) :=
  (answers templateTransaction (initial size) ps).map Prod.fst

/-! ### Words that one transaction has for itself -/

/-- Only `tx` has marked the word. -/
structure Private (tx : Tx) (c : Control) : Prop where
  single : c.manyAccesses = false
  access : c.access = tx ∨ (c.access = 0#64 ∧ c.written = false)

namespace Private

variable {tx : Tx} {c : Control}

theorem zero : Private tx Control.zero := ⟨rfl, .inr ⟨rfl, rfl⟩⟩

theorem claimed (h : Private tx c) (hw : c.written = false) : c.claim tx = ⟨tx, false, false⟩ := by
  obtain ⟨a, w, m⟩ := c
  obtain ⟨rfl, ha⟩ := h
  cases hw
  rcases ha with rfl | ⟨rfl, -⟩ <;> simp [Control.claim]

theorem held (h : Private tx c) (hw : c.written = true) : c = ⟨tx, true, false⟩ := by
  obtain ⟨a, w, m⟩ := c
  obtain ⟨rfl, rfl | ⟨-, hf⟩⟩ := h
  · cases hw
    rfl
  · rw [hf] at hw
    cases hw

theorem read (h : Private tx c) :
    (canReadWord tx c).1 = true ∧ Private tx (canReadWord tx c).2 := by
  cases hw : c.written with
  | true =>
    rw [h.held hw]
    simpa [canReadWord] using (⟨rfl, .inl rfl⟩ : Private tx ⟨tx, true, false⟩)
  | false =>
    simpa [canReadWord, hw, h.claimed hw] using (⟨rfl, .inl rfl⟩ : Private tx ⟨tx, false, false⟩)

theorem write (h : Private tx c) :
    (canWriteWord tx c).1 = true ∧ Private tx (canWriteWord tx c).2 := by
  have final : Private tx ⟨tx, true, false⟩ := ⟨rfl, .inl rfl⟩
  cases hw : c.written with
  | true =>
    rw [h.held hw]
    simpa [canWriteWord] using final
  | false => simpa [canWriteWord, hw, h.claimed hw] using final

end Private

theorem usable_of_own {log : Log W} {g : SegId} {seg : Segment W} {tx : Tx}
    (h : Flags log g seg) (own : ∀ u e, (u, e) ∈ log → u = tx) : Usable tx seg := by
  rintro ⟨hnew, hne⟩
  rw [h.newlyAlloc, Option.isSome_iff_exists] at hnew
  obtain ⟨u, hu⟩ := hnew
  obtain ⟨size, hin⟩ := mem_of_allocator hu
  apply hne
  rw [h.owner, h.holder_new hu]
  exact own u _ hin

/-! ### One transaction -/

theorem reads_only {sh : Shape} {c : SerialPrograms.Call W} (h : c.Allowed sh true) :
    ∃ g k n, c = .read g k n := by
  cases c with
  | read g k n => exact ⟨g, k, n, rfl⟩
  | write => cases h.1
  | alloc => cases h
  | free => cases h.1

variable [DecidableEq W] [Zero W]

/-- The memory that the transaction sees: its own writes count if it can have any. -/
def seenBy (tx : Tx) (s : State W) : Memory W :=
  view s.log s.region (freedBefore s) (writersOf [tx])

/-- `tx` runs, and nobody else has made a call in the epoch. -/
structure Solo (size : ℕ) (sh : Shape) (isRo : Bool) (tx : Tx) (s : State W) : Prop where
  reach : Reachable (system W size) Client s
  active : s.active = {tx}
  parked : s.region.batcher.waiters = ∅
  readonly : isTxReadonly tx = isRo
  own : ∀ u e, (u, e) ∈ s.log → u = tx
  marks : ∀ g ∈ s.region.live, ∀ i, Private tx ((s.region.seg g).control i)
  count : s.region.nextSeg = sh.count
  holds : Holds sh (seenBy tx s)

/-- No transaction runs and no epoch is open. -/
structure Idle (size : ℕ) (sh : Shape) (s : State W) : Prop where
  reach : Reachable (system W size) Client s
  active : s.active = ∅
  parked : s.region.batcher.waiters = ∅
  log : s.log = []
  clean : s.region.dirtySegLinks = []
  count : s.region.nextSeg = sh.count
  holds : Holds sh (view s.log s.region (freedBefore s) ∅)

theorem mem_writersOf_self {tx u : Tx} :
    u ∈ writersOf [tx] ↔ u = tx ∧ isTxReadonly tx = false := by
  simp only [writersOf, List.mem_toFinset, List.mem_filter, List.mem_singleton]
  constructor
  · rintro ⟨rfl, hro⟩
    exact ⟨rfl, by simpa using hro⟩
  · rintro ⟨rfl, hro⟩
    exact ⟨rfl, by simp [hro]⟩

namespace Idle

variable {size : ℕ} {sh : Shape} {s : State W}

theorem start (size : ℕ) : Idle size (.start size) (initial size : State W) ∧
    view [] (initial size : State W).region [] ∅ = initialMemory size := by
  have hview : view [] (initial size : State W).region [] ∅ = initialMemory size :=
    (Option.some.inj (Consistent.init.replay [] .nil)).symm
  refine ⟨⟨.init rfl, rfl, rfl, rfl, rfl, rfl, ?_⟩, hview⟩
  show Holds _ (view [] (initial size : State W).region [] ∅)
  rw [hview]
  intro g hg
  cases Nat.lt_one_iff.mp hg.1
  exact ⟨_, rfl, rfl, rfl⟩

theorem begin (h : Idle size sh s) (isRo : Bool) (hc : s.transCounter.toNat < 2 ^ 31) :
    s.region.batcher.remaining = 0 ∧
      Solo size sh isRo (txId s.transCounter isRo) (call s (.begin isRo)) ∧
      seenBy (txId s.transCounter isRo) (call s (.begin isRo)) =
        view s.log s.region (freedBefore s) ∅ := by
  obtain ⟨hi, -⟩ := reachable_consistent h.reach
  have hz : s.region.batcher.remaining = 0 := by
    have := hi.crew.roster.counts.remaining
    rwa [h.active] at this
  have quiet : ∀ g ∈ s.region.live, Quiescent (s.region.seg g) := fun g hg =>
    hi.books.tidy.clean hg (by simp [h.clean])
  have hseen : seenBy (txId s.transCounter isRo) (call s (.begin isRo)) =
      view s.log s.region (freedBefore s) ∅ := by
    show view s.log { s.region with batcher := _ } (freedBefore s) _ = _
    rw [h.log, view_open quiet]
    exact view_open quiet _
  refine ⟨hz, ⟨.next h.reach (.begin isRo) rfl hc, ?_, ?_, txId_readonly hc isRo, ?_, ?_, h.count,
    hseen ▸ h.holds⟩, hseen⟩
  · simp [call, tmBegin, hz, h.active]
  · simp [call, tmBegin, enterBatcher, hz, h.parked]
  · intro u e hin
    change (u, e) ∈ s.log at hin
    rw [h.log] at hin
    cases hin
  · intro g hg i
    show Private _ ((s.region.seg g).control i)
    rw [(quiet g hg).control]
    exact Private.zero

end Idle

namespace Solo

variable {size : ℕ} {sh : Shape} {isRo : Bool} {tx : Tx} {s : State W} {g : SegId}

/-- The segments that the program may use. -/
theorem held (h : Solo size sh isRo tx s) (hg : sh.Held g) : g ∈ s.region.live ∧
    g ∉ freedBefore s ∧ (s.region.seg g).size = sh.size g ∧
    (allocator s.log g = none ∨ allocator s.log g = some tx) := by
  obtain ⟨b, hb, hsize, -⟩ := h.holds g hg
  rw [seenBy, view, Option.ite_none_right_eq_some, Option.some.injEq] at hb
  obtain ⟨⟨hlive, hdead, -⟩, rfl⟩ := hb
  refine ⟨hlive, hdead, hsize, ?_⟩
  cases ha : allocator s.log g with
  | none => exact .inl rfl
  | some u =>
    obtain ⟨n, hin⟩ := mem_of_allocator ha
    exact .inr (by rw [h.own u _ hin])

/-- The call is lawful, succeeds, and is answered as logged. -/
theorem answered (h : Solo size sh isRo tx s) {c : SerialPrograms.Call W}
    (hc : c.Allowed sh isRo) : Client s (Call.event tx c) ∧ ∃ e out r,
      delivered s (Call.event tx c) = some out ∧
      call s (Call.event tx c) = s.record tx e r ∧
      Done s.log s.region tx e r ∧ Logged sh c e out ∧ r.nextSeg = (sh.after c).count := by
  obtain ⟨hi, -⟩ := reachable_consistent h.reach
  have usable : ∀ g ∈ s.region.live, Usable tx (s.region.seg g) := fun g hg =>
    usable_of_own (hi.books.kept g hg).toFlags h.own
  cases c with
  | read g k n =>
    obtain ⟨hlive, hdead, hsize, -⟩ := h.held hc.1
    have hk : k + n ≤ (s.region.seg g).size := hsize ▸ hc.2
    refine ⟨⟨hlive, hk, hdead⟩, ?_⟩
    have pass : (readSegment tx (s.region.seg g) k n).1 = true :=
      readSegment_passes (usable g hlive) (fun i => (h.marks g hlive i).read.1) k n
    rcases hr : tmRead s.region tx g k n with ⟨_ | target, r⟩
    · simp only [tmRead, pass, if_true] at hr
      split_ifs at hr <;> cases hr
    · have hlen : n = target.length := by
        obtain ⟨-, ⟨-, -, rfl⟩ | ⟨-, -, -, rfl⟩⟩ := tmRead_some hi.books.tidy hlive hr <;>
          exact (copyOut_length _ _ _).symm
      refine ⟨.read g k target, [target], r, ?_, ?_, ?_⟩
      · simp [Call.event, delivered, hr]
      · simp [Call.event, call, hr]
      · rw [hlen]
        obtain ⟨hu, ⟨hro, rfl, rfl⟩ | ⟨hro, ok, rfl, rfl⟩⟩ :=
          tmRead_some hi.books.tidy hlive hr
        · exact ⟨.readCopy hlive hk hu hro, .read, h.count⟩
        · exact ⟨.read hlive hk hu hro ok, .read, h.count⟩
  | write g k src =>
    obtain ⟨hro, hheld, hb⟩ := hc
    obtain ⟨hlive, hdead, hsize, -⟩ := h.held hheld
    have hk : k + src.length ≤ (s.region.seg g).size := hsize ▸ hb
    refine ⟨⟨h.readonly.trans hro, hlive, hk, hdead⟩, ?_⟩
    have pass : (writeSegment tx (s.region.seg g) k src).1 = true :=
      writeSegment_passes (usable g hlive) (fun i => (h.marks g hlive i).write.1) hk
    rcases hr : tmWrite s.region tx g k src with ⟨_ | _, r⟩
    · simp [tmWrite, pass] at hr
    · obtain ⟨hu, ok, rfl⟩ := tmWrite_true hi.books.tidy hlive (hi.books.settled hlive tx) hr
      refine ⟨.write g k src, [], _, ?_, ?_, .write hlive hk hu ok, .write, h.count⟩
      · simp [Call.event, delivered, hr]
      · simp [Call.event, call, hr]
  | alloc n =>
    refine ⟨h.readonly.trans hc, .alloc s.region.nextSeg n, [], _, rfl, rfl, .alloc, ?_, ?_⟩
    · rw [h.count]
      exact .alloc
    · exact congrArg (· + 1) h.count
  | free g =>
    obtain ⟨hro, hheld, -⟩ := hc
    obtain ⟨hlive, hdead, -, hown⟩ := h.held hheld
    refine ⟨⟨h.readonly.trans hro, hlive, hdead, hown⟩, .free g, [], _, rfl, ?_,
      .free hlive hown, .free, h.count⟩
    simp [Call.event, call, tmFree_eq hi.books.tidy hlive]

/-- The call acts on the memory that the transaction sees. -/
theorem acts (h : Solo size sh isRo tx s) {c : SerialPrograms.Call W} {e : Entry W}
    {out : List (List W)} {r : Region W} (hc : c.Allowed sh isRo) (hl : Logged sh c e out)
    (hd : Done s.log s.region tx e r) :
    exec (seenBy tx s) e = some (seenBy tx (s.record tx e r)) := by
  obtain ⟨hi, hcons⟩ := reachable_consistent h.reach
  cases hro : isTxReadonly tx with
  | false =>
    refine (done_moves hi.books hro hd fun g hg => ?_).within _ (mem_writersOf_self.mpr ⟨rfl, hro⟩)
    cases hl with
    | read =>
      cases hg
      exact (h.held hc.1).2.1
    | write =>
      cases hg
      exact (h.held hc.2.1).2.1
    | alloc =>
      cases hg
      rw [← h.count]
      exact fun hin => Nat.lt_irrefl _ (hcons.old _ hin)
    | free =>
      cases hg
      exact (h.held hc.2.1).2.1
  | true =>
    have hU : writersOf [tx] = ∅ := by simp [writersOf, hro]
    obtain ⟨g, k, n, rfl⟩ := reads_only (h.readonly.symm.trans hro ▸ hc)
    obtain ⟨hlive, hdead, hsize, -⟩ := h.held hc.1
    cases hl
    cases hd with
    | readCopy _ hk =>
      have hnone : allocator s.log g = none := by
        cases ha : allocator s.log g with
        | none => rfl
        | some u =>
          obtain ⟨m, hin⟩ := mem_of_allocator ha
          cases (hcons.serial.readonly u _ hin (by rw [h.own u _ hin]; exact hro)).1
      rw [seenBy, seenBy, hU]
      refine (readCopy_stays hlive hdead hk hnone).trans ?_
      exact congrArg some (view_idle rfl ∅).symm
    | read _ _ _ hrw =>
      rw [hro] at hrw
      cases hrw

theorem marked (h : Solo size sh isRo tx s) {e : Entry W} {r : Region W}
    (hd : Done s.log s.region tx e r) :
    ∀ g ∈ r.live, ∀ i, Private tx ((r.seg g).control i) := by
  -- the call replaces one segment
  have touched : ∀ {g seg}, (∀ i, Private tx (seg.control i)) →
      ∀ x ∈ (touch s.region g seg).live, ∀ i,
        Private tx (((touch s.region g seg).seg x).control i) := by
    intro g seg hseg x hx i
    by_cases hxg : x = g
    · rw [hxg, touch_same]
      exact hseg i
    · rw [touch_other hxg]
      exact h.marks x hx i
  cases hd with
  | readCopy => exact h.marks
  | @read g k n hg =>
    refine touched fun i => ?_
    simp only [CallEffects.marked]
    split_ifs
    · exact (h.marks g hg i).read.2
    · exact h.marks g hg i
  | @write g k src hg =>
    refine touched fun i => ?_
    simp only [CallEffects.stored]
    split_ifs
    · exact (h.marks g hg i).write.2
    · exact h.marks g hg i
  | alloc =>
    intro x hx i
    by_cases hxn : x = s.region.nextSeg
    · rw [hxn]
      simpa [tmAlloc, allocSegment, Region.setSeg] using Private.zero
    · have hold : x ∈ s.region.live := by simpa [tmAlloc, hxn] using hx
      simpa [tmAlloc, Region.setSeg, hxn] using h.marks x hold i
  | @free g hg _ => exact touched (h.marks g hg)

/-- A call of a transaction that runs alone is never refused. -/
theorem call (h : Solo size sh isRo tx s) {c : SerialPrograms.Call W}
    (hc : c.Allowed sh isRo) : ∃ e out t, templateCall tx s c = some (out, t) ∧
      Logged sh c e out ∧ exec (seenBy tx s) e = some (seenBy tx t) ∧
      Solo size (sh.after c) isRo tx t ∧ t.transCounter = s.transCounter := by
  obtain ⟨hclient, e, out, r, hdel, hcall, hd, hl, hcount⟩ := h.answered hc
  have hact := h.acts hc hl hd
  have hstep : step s (Call.event tx c) = some (s.record tx e r) := by
    rw [← hcall]
    cases c <;> simp [step, Call.event, Event.caller, h.active]
  refine ⟨e, out, s.record tx e r, ?_, hl, hact, ?_, rfl⟩
  · rw [templateCall, hdel, hcall]
    rfl
  · refine ⟨h.reach.next _ hstep hclient, h.active, ?_, h.readonly, ?_, h.marked hd, hcount,
      h.holds.exec hl hact⟩
    · show r.batcher.waiters = ∅
      rw [(done_batcher hd).1]
      exact h.parked
    · intro u e' hin
      rcases mem_snoc.mp hin with hin | hin
      · exact h.own u e' hin
      · cases hin
        rfl

/-- The epoch ends with the transaction, and what it has seen becomes permanent. -/
theorem finish (h : Solo size sh isRo tx s) : Idle size sh (AtomicCalls.call s (.finish tx)) ∧
    view (AtomicCalls.call s (.finish tx)).log (AtomicCalls.call s (.finish tx)).region
      (freedBefore (AtomicCalls.call s (.finish tx))) ∅ = endEpoch (seenBy tx s) ∧
    (AtomicCalls.call s (.finish tx)).transCounter = s.transCounter := by
  obtain ⟨hi, hcons⟩ := reachable_consistent h.reach
  have ha : tx ∈ s.active := by simp [h.active]
  have hl : lastToLeave s.region.batcher = true := by
    refine (hi.crew.roster.counts.last_iff (Finset.card_pos.mpr ⟨tx, ha⟩)).mpr ?_
    rw [h.active, Finset.card_singleton]
  have hstep : step s (.finish tx) = some (AtomicCalls.call s (.finish tx)) := if_pos ha
  have heq : AtomicCalls.call s (.finish tx) = { s with
      region := { epochCleanup s.region with
        batcher := BatcherState.leaveBatcher s.region.batcher }
      active := s.region.batcher.waiters, log := []
      closed := s.closed ++ [s.log ++ [(tx, .commit)]] } := by
    simp [AtomicCalls.call, State.leave, Region.leaveBatcher, hl]
  have hfreed : freedBefore (AtomicCalls.call s (.finish tx)) =
      freedBefore s ++ committedFrees (s.log ++ [(tx, .commit)]) := by
    rw [heq]
    simp [freedBefore]
  have hends : Ends s.used ∅ (s.log ++ [(tx, .commit)]) := by
    have := hi.crew.leaving ha (.inl rfl)
    rwa [h.active, Finset.erase_singleton] at this
  have horder : SerialOrder (s.log ++ [(tx, .commit)]) [tx] := by
    refine ⟨List.nodup_singleton tx, fun u => ?_, List.pairwise_singleton _ _⟩
    rw [List.mem_singleton, mem_snoc, Prod.mk.injEq]
    constructor
    · rintro rfl
      exact .inr ⟨rfl, rfl⟩
    · rintro (hin | ⟨rfl, -⟩)
      · exact h.own u _ hin
      · rfl
  have hview : view (AtomicCalls.call s (.finish tx)).log
      (AtomicCalls.call s (.finish tx)).region (freedBefore (AtomicCalls.call s (.finish tx))) ∅ =
        endEpoch (seenBy tx s) := by
    rw [hfreed, heq]
    have := closing_view (hi.finished ha) (hcons.serial.commit tx) hends horder
      (BatcherState.leaveBatcher s.region.batcher)
    rwa [view_idle rfl] at this
  refine ⟨⟨h.reach.next (.finish tx) hstep trivial, ?_, ?_, ?_, ?_, ?_, fun g hg => ?_⟩, hview, ?_⟩
  · rw [heq]
    exact h.parked
  · rw [heq]
    simp [BatcherState.leaveBatcher, hl]
  · rw [heq]
  · rw [heq]
    exact hi.books.tidy.cleanup_dirty
  · rw [heq]
    exact hi.books.tidy.cleaned.nextSeg.trans h.count
  · rw [hview, h.holds.endEpoch hg]
    exact h.holds g hg
  · rw [heq]

end Solo

end SoloTransactions
