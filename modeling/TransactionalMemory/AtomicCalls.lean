import TransactionalMemory.CallOutcomes
import TransactionalMemory.TransitionSystem

/-! # Transactions whose calls are indivisible

Every call is one step, the calls of different transactions in any order. The state logs
the calls of the running epoch and keeps the logs of the closed ones; no call reads them. -/
namespace AtomicCalls

open TransitionSystem
open BatcherState
open ControlWord
open RegionState
open Calls
open CallEffects
open CallLog
open EpochBooks
open CallOutcomes

variable {W : Type*}

/-- `used` are the handles given out so far, `active` those admitted that have not left. -/
structure State (W : Type*) where
  region : Region W
  transCounter : BitVec 32
  used : Finset Tx
  active : Finset Tx
  log : Log W
  closed : List (Log W)

/-- `ok` is the outcome of `posix_memalign`. -/
inductive Event (W : Type*) where
  | begin (isRo : Bool)
  | read (tx : Tx) (g : SegId) (k n : ℕ)
  | write (tx : Tx) (g : SegId) (k : ℕ) (src : List W)
  | alloc (tx : Tx) (size : ℕ) (ok : Bool)
  | free (tx : Tx) (g : SegId)
  | finish (tx : Tx)

def initial [Zero W] (size : ℕ) : State W := ⟨tmCreate size, 1, ∅, ∅, [], []⟩

def tmBegin (s : State W) (isRo : Bool) : State W :=
  let tx := txId s.transCounter isRo
  { s with
    region := { s.region with batcher := enterBatcher s.region.batcher tx }
    transCounter := s.transCounter + 1
    used := insert tx s.used
    active := if s.region.batcher.remaining = 0 then insert tx s.active else s.active }

def State.record (s : State W) (tx : Tx) (e : Entry W) (r : Region W) : State W :=
  { s with region := r, log := s.log ++ [(tx, e)] }

/-- `tx` has left the batcher; the last to leave closes the log. -/
def State.leave (s : State W) (tx : Tx) (e : Entry W) (r : Region W) : State W :=
  let log := s.log ++ [(tx, e)]
  if lastToLeave s.region.batcher then
    { s with
      region := r, active := s.region.batcher.waiters, log := [], closed := s.closed ++ [log] }
  else { s with region := r, active := s.active.erase tx, log }

/-- The calls of all epochs. -/
def history (s : State W) : Log W := s.closed.flatten ++ s.log

def call [Zero W] (s : State W) : Event W → State W
  | .begin isRo => tmBegin s isRo
  | .read tx g k n =>
    match tmRead s.region tx g k n with
    | (some target, r) => s.record tx (.read g k target) r
    | (none, r) => s.leave tx .abort r
  | .write tx g k src =>
    match tmWrite s.region tx g k src with
    | (true, r) => s.record tx (.write g k src) r
    | (false, r) => s.leave tx .abort r
  | .alloc tx size true =>
    s.record tx (.alloc s.region.nextSeg size) (tmAlloc s.region tx size)
  | .alloc _ _ false => s
  | .free tx g => s.record tx (.free g) (tmFree s.region tx g)
  | .finish tx => s.leave tx .commit s.region.leaveBatcher

def Event.caller : Event W → Option Tx
  | .begin _ => none
  | .read tx .. | .write tx .. | .alloc tx .. | .free tx _ | .finish tx => some tx

/-- A beginning leaves no entry in the log, nor does an allocation that obtains no memory. -/
def Event.logged : Event W → Bool
  | .begin _ | .alloc _ _ false => false
  | .read .. | .write .. | .alloc _ _ true | .free .. | .finish _ => true

/-- What the log may say of a call. A read of `n` words delivers `n` words or fails. -/
inductive Answer : Event W → Tx × Entry W → Prop where
  | read {tx g k n target} : target.length = n → Answer (.read tx g k n) (tx, .read g k target)
  | refusedRead {tx g k n} : Answer (.read tx g k n) (tx, .abort)
  | write {tx g k src} : Answer (.write tx g k src) (tx, .write g k src)
  | refusedWrite {tx g k src} : Answer (.write tx g k src) (tx, .abort)
  | alloc {tx size g} : Answer (.alloc tx size true) (tx, .alloc g size)
  | free {tx g} : Answer (.free tx g) (tx, .free g)
  | finish {tx} : Answer (.finish tx) (tx, .commit)

/-- Only transactions that were admitted and have not failed or ended make calls. -/
def step [Zero W] (s : State W) (e : Event W) : Option (State W) :=
  match e.caller with
  | none => some (call s e)
  | some tx => if tx ∈ s.active then some (call s e) else none

abbrev system (W : Type*) [Zero W] (size : ℕ) : System (State W) (Event W) :=
  ⟨fun s => s = initial size, step⟩

/-- Handles are not 0 and not reused, fewer than `2 ^ 31` transactions are in progress at any
time, calls name live segments and stay in bounds, and a transaction frees only segments
older than the epoch or its own allocations. -/
def Lawful (s : State W) : Event W → Prop
  | .begin isRo =>
    txId s.transCounter isRo ≠ 0#64 ∧ txId s.transCounter isRo ∉ s.used ∧
      s.active.card + s.region.batcher.waiters.card + 1 < 2 ^ 31
  | .read _ g k n => g ∈ s.region.live ∧ k + n ≤ (s.region.seg g).size
  | .write _ g k src => g ∈ s.region.live ∧ k + src.length ≤ (s.region.seg g).size
  | .free tx g =>
    g ∈ s.region.live ∧ (allocator s.log g = none ∨ allocator s.log g = some tx)
  | .alloc .. | .finish _ => True

instance (s : State W) (e : Event W) : Decidable (Lawful s e) := by
  cases e <;> simp only [Lawful] <;> infer_instance

/-! ### The history of a run -/

theorem history_record (s : State W) (tx : Tx) (e : Entry W) (r : Region W) :
    history (s.record tx e r) = history s ++ [(tx, e)] := by
  simp [history, State.record]

theorem history_leave (s : State W) (tx : Tx) (e : Entry W) (r : Region W) :
    history (s.leave tx e r) = history s ++ [(tx, e)] := by
  cases hl : lastToLeave s.region.batcher <;> simp [history, State.leave, hl]

section answers

variable {s t : State W} {e : Event W}

theorem answers_logged {x : Tx × Entry W} (he : e.logged = true) (ha : Answer e x) :
    List.Forall₂ Answer ([e].filter Event.logged) [x] := by
  rw [List.filter_cons_of_pos he]
  exact .cons ha .nil

theorem answers_silent (he : e.logged = false) :
    List.Forall₂ Answer ([e].filter Event.logged) [] := by
  rw [List.filter_cons_of_neg (by simp [he])]
  exact .nil

variable [Zero W]

/-- A call is logged at once, with an answer to what it asked. -/
theorem call_answers (s : State W) (e : Event W) : ∃ new,
    history (call s e) = history s ++ new ∧ List.Forall₂ Answer ([e].filter Event.logged) new := by
  cases e with
  | begin => exact ⟨[], (List.append_nil _).symm, answers_silent rfl⟩
  | read tx g k n =>
    rcases hr : tmRead s.region tx g k n with ⟨_ | target, r⟩
    · refine ⟨[(tx, .abort)], ?_, answers_logged rfl .refusedRead⟩
      simp only [call, hr]
      exact history_leave ..
    · refine ⟨[(tx, .read g k target)], ?_, answers_logged rfl (.read (tmRead_length hr))⟩
      simp only [call, hr]
      exact history_record ..
  | write tx g k src =>
    rcases hr : tmWrite s.region tx g k src with ⟨_ | _, r⟩
    · refine ⟨[(tx, .abort)], ?_, answers_logged rfl .refusedWrite⟩
      simp only [call, hr]
      exact history_leave ..
    · refine ⟨[(tx, .write g k src)], ?_, answers_logged rfl .write⟩
      simp only [call, hr]
      exact history_record ..
  | alloc tx size ok =>
    cases ok with
    | true => exact ⟨_, history_record .., answers_logged rfl .alloc⟩
    | false => exact ⟨[], (List.append_nil _).symm, answers_silent rfl⟩
  | free => exact ⟨_, history_record .., answers_logged rfl .free⟩
  | finish => exact ⟨_, history_leave .., answers_logged rfl .finish⟩

theorem step_call (ht : step s e = some t) : t = call s e := by
  unfold step at ht
  split at ht
  · exact (Option.some.inj ht).symm
  · split_ifs at ht
    exact (Option.some.inj ht).symm

/-- The history of a run answers its calls one by one. -/
theorem run_answers {size : ℕ} {es : List (Event W)} (hr : run (system W size) s es = some t) :
    ∃ new, history t = history s ++ new ∧
      List.Forall₂ Answer (es.filter Event.logged) new := by
  induction es generalizing s with
  | nil =>
    cases hr
    exact ⟨[], by simp, .nil⟩
  | cons e es ih =>
    obtain ⟨u, hu, hr⟩ := Option.bind_eq_some_iff.mp hr
    obtain ⟨first, hfirst, hanswer⟩ := call_answers s e
    obtain ⟨rest, hrest, hanswers⟩ := ih hr
    rw [← step_call hu] at hfirst
    refine ⟨first ++ rest, ?_⟩
    constructor
    · rw [hrest, hfirst, List.append_assoc]
    · rw [← List.singleton_append, List.filter_append]
      exact List.rel_append hanswer hanswers

theorem run_history {size : ℕ} {es : List (Event W)}
    (hr : run (system W size) (initial size) es = some t) :
    List.Forall₂ Answer (es.filter Event.logged) (history t) := by
  obtain ⟨new, hnew, hanswers⟩ := run_answers hr
  rw [hnew]
  exact hanswers

end answers

/-! ### Who is running -/

/-- Whoever made a call is running, or has ended in one of the two ways. -/
structure Ends (used active : Finset Tx) (log : Log W) : Prop where
  logged : ∀ u e, (u, e) ∈ log → u ∈ used
  running : ∀ u ∈ active, (u, .commit) ∉ log ∧ (u, .abort) ∉ log
  ended : ∀ u e, (u, e) ∈ log → u ∈ active ∨ (u, .commit) ∈ log ∨ (u, .abort) ∈ log
  once : ∀ u, (u, .commit) ∈ log → (u, .abort) ∉ log

/-- Who is running, who waits, and whose calls are in the log. -/
structure Crew (b : Batcher Tx) (used active : Finset Tx) (log : Log W) : Prop
    extends Ends used active log where
  roster : Roster b active
  named : ∀ u ∈ used, u ≠ 0#64
  member : ∀ u ∈ active, u ∈ used
  waiter : ∀ u ∈ b.waiters, u ∈ used

structure Invariant (s : State W) : Prop where
  crew : Crew s.region.batcher s.used s.active s.log
  books : Books s.log s.region

namespace Crew

variable {b : Batcher Tx} {used active : Finset Tx} {log : Log W} {tx : Tx} {e : Entry W}

theorem begin_first (h : Crew b used active log) (hz : b.remaining = 0) (h0 : tx ≠ 0#64)
    (hu : tx ∉ used) : Crew (enterBatcher b tx) (insert tx used) (insert tx active) log := by
  obtain ⟨hr, -, -, hw⟩ := h.roster.enter_first hz tx
  refine ⟨⟨fun u e hin => Finset.mem_insert_of_mem (h.logged u e hin), fun u hin => ?_,
    fun u e hin => ?_, h.once⟩, hr, ?_, ?_, by simp [hw]⟩
  · rcases Finset.mem_insert.mp hin with rfl | hin
    · exact ⟨fun hc => hu (h.logged _ _ hc), fun hc => hu (h.logged _ _ hc)⟩
    · exact h.running u hin
  · exact (h.ended u e hin).imp_left Finset.mem_insert_of_mem
  · rw [Finset.forall_mem_insert]
    exact ⟨h0, h.named⟩
  · exact fun u hin => Finset.insert_subset_insert tx h.member hin

theorem begin_wait (h : Crew b used active log) (hz : b.remaining ≠ 0) (h0 : tx ≠ 0#64)
    (hu : tx ∉ used) (hs : active.card + b.waiters.card + 1 < 2 ^ 31) :
    Crew (enterBatcher b tx) (insert tx used) active log := by
  obtain ⟨hr, hw⟩ := h.roster.enter_wait hz (fun hin => hu (h.member _ hin))
    (fun hin => hu (h.waiter _ hin)) hs
  refine ⟨⟨fun u e hin => Finset.mem_insert_of_mem (h.logged u e hin), h.running, h.ended,
    h.once⟩, hr, ?_, fun u hin => Finset.mem_insert_of_mem (h.member u hin), ?_⟩
  · rw [Finset.forall_mem_insert]
    exact ⟨h0, h.named⟩
  · rw [hw]
    exact fun u hin => Finset.insert_subset_insert tx h.waiter hin

theorem record (h : Crew b used active log) (ha : tx ∈ active) (hc : e ≠ .commit)
    (hb : e ≠ .abort) : Crew b used active (log ++ [(tx, e)]) := by
  have same : ∀ u e', e' ≠ e → ((u, e') ∈ log ++ [(tx, e)] ↔ (u, e') ∈ log) := by
    intro u e' hne
    simp [hne]
  refine ⟨⟨fun u e' hin => ?_, fun u hin => ?_, fun u e' hin => ?_, fun u => ?_⟩, h.roster,
    h.named, h.member, h.waiter⟩
  · rcases mem_snoc.mp hin with hin | hin
    · exact h.logged u e' hin
    · cases hin
      exact h.member tx ha
  · rw [same u _ hc.symm, same u _ hb.symm]
    exact h.running u hin
  · rw [same u _ hc.symm, same u _ hb.symm]
    rcases mem_snoc.mp hin with hin | hin
    · exact h.ended u e' hin
    · cases hin
      exact .inl ha
  · rw [same u _ hc.symm, same u _ hb.symm]
    exact h.once u

theorem leaving (h : Crew b used active log) (ha : tx ∈ active) (he : e = .commit ∨ e = .abort) :
    Ends used (active.erase tx) (log ++ [(tx, e)]) := by
  have hrun := h.running tx ha
  refine ⟨fun u e' hin => ?_, fun u hin => ?_, fun u e' hin => ?_, fun u => ?_⟩
  · rcases mem_snoc.mp hin with hin | hin
    · exact h.logged u e' hin
    · cases hin
      exact h.member tx ha
  · obtain ⟨hne, hin⟩ := Finset.mem_erase.mp hin
    simpa [hne] using h.running u hin
  · have end_of : ∀ {u}, u ∈ active ∨ (u, .commit) ∈ log ∨ (u, .abort) ∈ log →
        u ∈ active.erase tx ∨ (u, .commit) ∈ log ++ [(tx, e)] ∨ (u, .abort) ∈ log ++ [(tx, e)] := by
      intro u hu
      by_cases hx : u = tx
      · subst u
        rcases he with rfl | rfl <;> simp
      · simpa [hx] using hu
    rcases mem_snoc.mp hin with hin | hin
    · exact end_of (h.ended u e' hin)
    · cases hin
      exact end_of (.inl ha)
  · have := h.once u
    by_cases hx : u = tx
    · subst u
      rcases he with rfl | rfl <;> simp [hrun]
    · simpa [hx] using this

theorem stay (h : Crew b used active log) (ha : tx ∈ active) (hl : lastToLeave b = false)
    (he : e = .commit ∨ e = .abort) :
    Crew (leaveBatcher b) used (active.erase tx) (log ++ [(tx, e)]) := by
  obtain ⟨hr, hw⟩ := h.roster.stay ha hl
  exact ⟨h.leaving ha he, hr, h.named, fun u hin => h.member u (Finset.mem_of_mem_erase hin),
    hw ▸ h.waiter⟩

theorem close (h : Crew b used active log) (ha : tx ∈ active) (hl : lastToLeave b = true) :
    Crew (leaveBatcher b) used b.waiters ([] : Log W) := by
  obtain ⟨hr, hw⟩ := h.roster.close ha hl
  exact ⟨⟨nofun, fun _ _ => ⟨nofun, nofun⟩, nofun, nofun⟩, hr, h.named, h.waiter, by simp [hw]⟩

end Crew

/-- What a step does: it admits a transaction, obtains no memory, logs a successful call, or
sends its transaction out of the batcher. -/
inductive Effect [Zero W] (s : State W) : Event W → State W → Prop where
  | begin {isRo} : Effect s (.begin isRo) (tmBegin s isRo)
  | nomem {tx size} : Effect s (.alloc tx size false) s
  | read {tx g k n target r} : tx ∈ s.active → Done s.log s.region tx (.read g k target) r →
      Effect s (.read tx g k n) (s.record tx (.read g k target) r)
  | write {tx g k src r} : tx ∈ s.active → Done s.log s.region tx (.write g k src) r →
      Effect s (.write tx g k src) (s.record tx (.write g k src) r)
  | alloc {tx size r} : tx ∈ s.active →
      Done s.log s.region tx (.alloc s.region.nextSeg size) r →
      Effect s (.alloc tx size true) (s.record tx (.alloc s.region.nextSeg size) r)
  | free {tx g r} : tx ∈ s.active → Done s.log s.region tx (.free g) r →
      Effect s (.free tx g) (s.record tx (.free g) r)
  | fail {tx e r} : tx ∈ s.active → e.caller = some tx → Failed s.region tx r →
      Effect s e (s.leave tx .abort r.leaveBatcher)
  | finish {tx} : tx ∈ s.active →
      Effect s (.finish tx) (s.leave tx .commit s.region.leaveBatcher)

theorem step_effect [Zero W] {s t : State W} {e : Event W} (h : Books s.log s.region)
    (hp : Lawful s e) (ht : step s e = some t) : Effect s e t := by
  have caller : ∀ {tx}, e.caller = some tx → tx ∈ s.active ∧ t = call s e := by
    intro tx hc
    rw [step, hc] at ht
    simp only [Option.ite_none_right_eq_some, Option.some.injEq] at ht
    exact ⟨ht.1, ht.2.symm⟩
  cases e with
  | begin isRo =>
    cases ht
    exact .begin
  | read tx g k n =>
    obtain ⟨ha, rfl⟩ := caller rfl
    obtain ⟨hg, hb⟩ := hp
    simp only [call]
    rcases hr : tmRead s.region tx g k n with ⟨_ | target, r⟩
    · obtain ⟨hd, m, hm, ok, rfl⟩ := tmRead_none h.tidy hg hr
      exact .fail ha rfl (.read hd (by omega) ok)
    · obtain ⟨hu, ⟨hro, rfl, rfl⟩ | ⟨hro, ok, rfl, rfl⟩⟩ := tmRead_some h.tidy hg hr
      · exact .read ha (.readCopy hg hb hu hro)
      · exact .read ha (.read hg hb hu hro ok)
  | write tx g k src =>
    obtain ⟨ha, rfl⟩ := caller rfl
    obtain ⟨hg, hb⟩ := hp
    simp only [call]
    rcases hr : tmWrite s.region tx g k src with ⟨_ | _, r⟩
    · obtain ⟨hd, m, hm, ok, rfl⟩ := tmWrite_false h.tidy hg (h.settled hg tx) hb hr
      exact .fail ha rfl (.write hd (by omega) ok)
    · obtain ⟨hu, ok, rfl⟩ := tmWrite_true h.tidy hg (h.settled hg tx) hr
      exact .write ha (.write hg hb hu ok)
  | alloc tx size ok =>
    obtain ⟨ha, rfl⟩ := caller rfl
    cases ok with
    | true => exact .alloc ha .alloc
    | false => exact .nomem
  | free tx g =>
    obtain ⟨ha, rfl⟩ := caller rfl
    simp only [call, tmFree_eq h.tidy hp.1]
    exact .free ha (.free hp.1 hp.2)
  | finish tx =>
    obtain ⟨ha, rfl⟩ := caller rfl
    exact .finish ha

theorem done_batcher [Zero W] {log : Log W} {r t : Region W} {tx : Tx} {e : Entry W}
    (h : Done log r tx e t) : t.batcher = r.batcher ∧ e ≠ .commit ∧ e ≠ .abort := by
  cases h <;> simp [touch, tmAlloc]

theorem failed_batcher {r t : Region W} {tx : Tx} (h : Failed r tx t) :
    t.batcher = r.batcher ∧ t.live = r.live := by
  cases h <;> exact ⟨rfl, rfl⟩

namespace Invariant

variable {s : State W} {tx : Tx} {e : Entry W} {r : Region W}

theorem init [Zero W] (size : ℕ) : Invariant (initial size : State W) where
  crew := ⟨⟨nofun, nofun, nofun, nofun⟩, Roster.init, nofun, nofun, nofun⟩
  books := by
    refine ⟨tmCreate_tidy size, nofun, fun g hg => Kept.fresh ?_⟩
    exact (tmCreate_tidy size).quiet g (by simpa [initial, tmCreate, linkInsert] using hg)

theorem begun (h : Invariant s) (isRo : Bool) (h0 : txId s.transCounter isRo ≠ 0#64)
    (hu : txId s.transCounter isRo ∉ s.used)
    (hs : s.active.card + s.region.batcher.waiters.card + 1 < 2 ^ 31) :
    Invariant (tmBegin s isRo) := by
  refine ⟨?_, h.books.withBatcher _⟩
  by_cases hz : s.region.batcher.remaining = 0
  · simpa [tmBegin, hz] using h.crew.begin_first hz h0 hu
  · simpa [tmBegin, hz] using h.crew.begin_wait hz h0 hu hs

theorem record [Zero W] (h : Invariant s) (ha : tx ∈ s.active) (hd : Done s.log s.region tx e r) :
    Invariant (s.record tx e r) := by
  obtain ⟨hb, hc, he⟩ := done_batcher hd
  refine ⟨?_, h.books.done (h.crew.named tx (h.crew.member tx ha)) (h.crew.running tx ha).2 hd⟩
  simp only [State.record, hb]
  exact h.crew.record ha hc he

/-- The books with the end of the transaction, before it leaves the batcher. -/
theorem leave (h : Invariant s) (ha : tx ∈ s.active) (he : e = .commit ∨ e = .abort)
    (hb : r.batcher = s.region.batcher) (hr : Books (s.log ++ [(tx, e)]) r) :
    Invariant (s.leave tx e r.leaveBatcher) := by
  cases hl : lastToLeave s.region.batcher with
  | true =>
    refine ⟨?_, ?_⟩
    · simpa [State.leave, Region.leaveBatcher, hb, hl] using h.crew.close ha hl
    · simpa [State.leave, Region.leaveBatcher, hb, hl] using Books.closed hr.tidy _
  | false =>
    refine ⟨?_, ?_⟩
    · simpa [State.leave, Region.leaveBatcher, hb, hl] using h.crew.stay ha hl he
    · simpa [State.leave, Region.leaveBatcher, hb, hl] using hr.withBatcher _

theorem failed (h : Invariant s) (ha : tx ∈ s.active) (hf : Failed s.region tx r) :
    Books (s.log ++ [(tx, .abort)]) r :=
  h.books.failed (h.crew.named tx (h.crew.member tx ha)) hf

theorem finished (h : Invariant s) (ha : tx ∈ s.active) :
    Books (s.log ++ [(tx, .commit)]) s.region :=
  h.books.commit (h.crew.named tx (h.crew.member tx ha)) (h.crew.running tx ha).2

end Invariant

theorem step_preserves [Zero W] {s t : State W} {e : Event W} (h : Invariant s)
    (hp : Lawful s e) (ht : step s e = some t) : Invariant t := by
  cases step_effect h.books hp ht with
  | begin => exact h.begun _ hp.1 hp.2.1 hp.2.2
  | nomem => exact h
  | read ha hd => exact h.record ha hd
  | write ha hd => exact h.record ha hd
  | alloc ha hd => exact h.record ha hd
  | free ha hd => exact h.record ha hd
  | fail ha _ hf => exact h.leave ha (.inr rfl) (failed_batcher hf).1 (h.failed ha hf)
  | finish ha => exact h.leave ha (.inl rfl) rfl (h.finished ha)

theorem reachable_invariant [Zero W] {size : ℕ} {s : State W}
    (h : Reachable (system W size) Lawful s) : Invariant s := by
  refine h.invariant ?_ fun _ _ _ => step_preserves
  rintro _ rfl
  exact Invariant.init size

/-- The last to leave logs its end, and the epoch closes over the books as they then are. -/
structure Closing (s t : State W) (log : Log W) (r : Region W) : Prop where
  books : Books log r
  ends : Ends s.used ∅ log
  live : r.live = s.region.live
  region : t.region = { epochCleanup r with batcher := BatcherState.leaveBatcher r.batcher }

theorem Invariant.closing {s : State W} {tx : Tx} {e : Entry W} {r : Region W} {log : Log W}
    (h : Invariant s) (ha : tx ∈ s.active) (he : e = .commit ∨ e = .abort)
    (hb : r.batcher = s.region.batcher) (hr : Books (s.log ++ [(tx, e)]) r)
    (hlive : r.live = s.region.live)
    (hc : (s.leave tx e r.leaveBatcher).closed = s.closed ++ [log]) :
    log = s.log ++ [(tx, e)] ∧ Closing s (s.leave tx e r.leaveBatcher) log r := by
  cases hl : lastToLeave s.region.batcher with
  | false => simp [State.leave, hl] at hc
  | true =>
    have hlog : log = s.log ++ [(tx, e)] := by simpa [State.leave, hl] using hc.symm
    have hends := h.crew.leaving ha he
    rw [h.crew.roster.sole ha hl, Finset.erase_singleton] at hends
    subst log
    refine ⟨rfl, hr, hends, hlive, ?_⟩
    simp [State.leave, Region.leaveBatcher, hb, hl]

theorem step_closing [Zero W] {s t : State W} {e : Event W} {log : Log W} (h : Invariant s)
    (hp : Lawful s e) (ht : step s e = some t) (hc : t.closed = s.closed ++ [log]) :
    ∃ r, Closing s t log r := by
  cases step_effect h.books hp ht with
  | fail ha _ hf =>
    obtain ⟨hb, hlive⟩ := failed_batcher hf
    exact ⟨_, (h.closing ha (.inr rfl) hb (h.failed ha hf) hlive hc).2⟩
  | finish ha => exact ⟨_, (h.closing ha (.inl rfl) rfl (h.finished ha) rfl hc).2⟩
  | _ => simp [tmBegin, State.record] at hc

end AtomicCalls
