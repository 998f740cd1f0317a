import TransactionalMemory.Serializability

/-! # What a step does to the epochs

A step admits a transaction or parks it, logs a call, or ends a transaction; the end of the
last one closes the epoch. Only then does committed memory change. -/
namespace EpochTurns

open TransitionSystem
open BatcherState
open ControlWord
open RegionState
open Calls
open CallLog
open CallOutcomes
open AtomicCalls
open PlainMemory
open SerialViews
open Serializability

variable {W : Type*} [DecidableEq W] {s t : State W} {e : Event W} {log : Log W} {size : ℕ}
variable {u tx : Tx}

def waiters (s : State W) : Finset Tx := s.region.batcher.waiters

theorem committed_eq_view (s : State W) : committed s = view s.log s.region (freedBefore s) ∅ :=
  funext fun g => (view_empty _ _ _ g).symm

/-- The threads of `t` are those of `s`. -/
structure SameCrew (s t : State W) : Prop where
  used : t.used = s.used
  active : t.active = s.active
  waiters : waiters t = waiters s

/-- The logs and the committed memory of `t` are those of `s`. -/
structure SameBooks (s t : State W) : Prop where
  log : t.log = s.log
  closed : t.closed = s.closed
  committed : committed t = committed s

/-- `t` has one more entry in the log of the open epoch. -/
structure Logged (s t : State W) (tx : Tx) (e : Entry W) : Prop where
  active : tx ∈ s.active
  log : t.log = s.log ++ [(tx, e)]
  closed : t.closed = s.closed
  committed : committed t = committed s

inductive Begun (s t : State W) (tx : Tx) : Prop where
  | admitted : s.active = ∅ → SameBooks s t → t.used = insert tx s.used → t.active = {tx} →
      waiters t = ∅ → Begun s t tx
  | parked : s.active.Nonempty → SameBooks s t → t.used = insert tx s.used →
      t.active = s.active → waiters t = insert tx (waiters s) → Begun s t tx

inductive Ended (s t : State W) (tx : Tx) (e : Entry W) : Prop where
  | left : Logged s t tx e → (s.active.erase tx).Nonempty → t.used = s.used →
      t.active = s.active.erase tx → waiters t = waiters s → Ended s t tx e
  | closed : s.active = {tx} → t.used = s.used → t.active = waiters s → waiters t = ∅ →
      t.log = [] → t.closed = s.closed ++ [s.log ++ [(tx, e)]] → Ended s t tx e

inductive Turn (s t : State W) : Prop where
  | begun (tx : Tx) : tx ∉ s.used → Begun s t tx → Turn s t
  | refused : t = s → Turn s t
  | called (tx : Tx) (e : Entry W) : Logged s t tx e → e ≠ .commit → e ≠ .abort →
      SameCrew s t → Turn s t
  | ended (tx : Tx) (e : Entry W) : e = .commit ∨ e = .abort → Ended s t tx e → Turn s t

theorem SameBooks.history (h : SameBooks s t) : history t = history s := by
  rw [AtomicCalls.history, h.log, h.closed, AtomicCalls.history]

theorem Logged.history {e : Entry W} (h : Logged s t tx e) :
    history t = history s ++ [(tx, e)] := by
  rw [AtomicCalls.history, h.log, h.closed, ← List.append_assoc, AtomicCalls.history]

theorem Ended.history {e : Entry W} (h : Ended s t tx e) :
    history t = history s ++ [(tx, e)] := by
  cases h with
  | left hl => exact hl.history
  | closed _ _ _ _ hlog hclosed => simp [AtomicCalls.history, hlog, hclosed]

theorem Begun.history (h : Begun s t tx) : history t = history s := by
  cases h with
  | admitted _ hb => exact hb.history
  | parked _ hb => exact hb.history

theorem Turn.called_of {e : Entry W} (h : Turn s t) (hh : history t = history s ++ [(tx, e)])
    (hc : e ≠ .commit) (ha : e ≠ .abort) : Logged s t tx e ∧ SameCrew s t := by
  cases h with
  | begun _ _ hb => simp [hb.history] at hh
  | refused heq => simp [heq] at hh
  | called u x hl _ _ hcrew =>
    rw [hl.history] at hh
    cases List.append_cancel_left hh
    exact ⟨hl, hcrew⟩
  | ended u x hx hl =>
    rw [hl.history] at hh
    cases List.append_cancel_left hh
    exact (hx.elim hc ha).elim

theorem Turn.ended_of {e : Entry W} (h : Turn s t) (hh : history t = history s ++ [(tx, e)])
    (he : e = .commit ∨ e = .abort) : Ended s t tx e := by
  cases h with
  | begun _ _ hb => simp [hb.history] at hh
  | refused heq => simp [heq] at hh
  | called u x hl hc ha =>
    rw [hl.history] at hh
    cases List.append_cancel_left hh
    exact (he.elim hc ha).elim
  | ended u x hx hl =>
    rw [hl.history] at hh
    cases List.append_cancel_left hh
    exact hl

theorem begin_begun (hi : Invariant s) (isRo : Bool) :
    Begun s (tmBegin s isRo) (txId s.transCounter isRo) := by
  have hbooks : SameBooks s (tmBegin s isRo) := ⟨rfl, rfl, rfl⟩
  by_cases hz : s.region.batcher.remaining = 0
  · obtain ⟨-, hidle, -, hw⟩ := hi.crew.roster.enter_first hz (txId s.transCounter isRo)
    exact .admitted hidle hbooks rfl (by simp [tmBegin, hz, hidle]) hw
  · have hbusy : s.active.Nonempty := by
      rw [← Finset.card_pos]
      have := hi.crew.roster.counts.remaining
      omega
    exact .parked hbusy hbooks rfl (by simp [tmBegin, hz])
      (by simp [waiters, tmBegin, enterBatcher, hz])

theorem leave_ended (hi : Invariant s) {r : Region W} {e : Entry W} (ha : tx ∈ s.active)
    (hb : r.batcher = s.region.batcher)
    (hv : view (s.log ++ [(tx, e)]) r (freedBefore s) ∅ =
      view s.log s.region (freedBefore s) ∅) : Ended s (s.leave tx e r.leaveBatcher) tx e := by
  cases hl : lastToLeave s.region.batcher with
  | true =>
    obtain ⟨-, hw⟩ := hi.crew.roster.close ha hl
    refine .closed (hi.crew.roster.sole ha hl) ?_ ?_ ?_ ?_ ?_
    · simp [State.leave, hl]
    · simp [State.leave, hl, waiters]
    · simpa [State.leave, hl, waiters, Region.leaveBatcher, hb] using hw
    · simp [State.leave, hl]
    · simp [State.leave, hl]
  | false =>
    have heq : s.leave tx e r.leaveBatcher = { s with
        region := { r with batcher := BatcherState.leaveBatcher r.batcher }
        active := s.active.erase tx, log := s.log ++ [(tx, e)] } := by
      simp [State.leave, Region.leaveBatcher, hb, hl]
    obtain ⟨hr, hw⟩ := hi.crew.roster.stay ha hl
    have hmore : (s.active.erase tx).Nonempty := by
      rw [← Finset.card_pos]
      have hcount := hi.crew.roster.counts
      have hpos : 0 < s.active.card := Finset.card_pos.mpr ⟨tx, ha⟩
      have hne : s.active.card ≠ 1 := fun h1 => by
        rw [(hcount.last_iff hpos).mpr h1] at hl
        cases hl
      have := Finset.card_erase_add_one ha
      omega
    have hm : committed (s.leave tx e r.leaveBatcher) = committed s := by
      rw [committed_eq_view, committed_eq_view, heq]
      exact hv
    refine .left ⟨ha, ?_, ?_, hm⟩ hmore ?_ ?_ ?_
    · rw [heq]
    · rw [heq]
    · rw [heq]
    · rw [heq]
    · rw [heq]
      simpa [waiters, hb] using hw

variable [Zero W]

theorem step_turn (hi : Invariant s) (h : Consistent size s) (hc : Client s e)
    (ht : step s e = some t) : Turn s t := by
  have hnext : s.region.nextSeg ∉ freedBefore s := fun hin => Nat.lt_irrefl _ (h.old _ hin)
  have hlaw := h.numbered.lawful hi hc
  have recorded : ∀ {tx e r}, tx ∈ s.active → Done s.log s.region tx e r →
      view (s.log ++ [(tx, e)]) r (freedBefore s) ∅ = view s.log s.region (freedBefore s) ∅ →
      Turn s (s.record tx e r) := by
    intro tx e r ha hd hv
    obtain ⟨hb, hne, hne'⟩ := done_batcher hd
    refine .called tx e ⟨ha, rfl, rfl, ?_⟩ hne hne' ⟨rfl, rfl, congrArg Batcher.waiters hb⟩
    rw [committed_eq_view, committed_eq_view]
    exact hv
  have writes : ∀ {tx e r}, tx ∈ s.active → isTxReadonly tx = false →
      Done s.log s.region tx e r → (∀ g, e.segment = some g → g ∉ freedBefore s) →
      Turn s (s.record tx e r) := fun ha hro hd hseg =>
    recorded ha hd ((done_moves hi.books hro hd hseg).without ∅ (by simp))
  cases step_effect hi.books hlaw ht with
  | begin => exact .begun _ hlaw.2.1 (begin_begun hi _)
  | nomem => exact .refused rfl
  | @read tx g k n target r ha hd =>
    cases hro : isTxReadonly tx with
    | false =>
      refine writes ha hro hd fun x hx => ?_
      cases hx
      exact hc.2.2
    | true =>
      refine recorded ha hd ?_
      cases hd with
      | read _ _ _ hrw =>
        rw [hro] at hrw
        cases hrw
      | readCopy => exact view_idle rfl ∅
  | write ha hd =>
    refine writes ha hc.1 hd fun x hx => ?_
    cases hx
    exact hc.2.2.2
  | alloc ha hd =>
    refine writes ha hc hd fun x hx => ?_
    cases hx
    exact hnext
  | free ha hd =>
    refine writes ha hc.1 hd fun x hx => ?_
    cases hx
    exact hc.2.2.1
  | fail ha _ hf =>
    refine .ended _ _ (.inr rfl) (leave_ended hi ha (failed_batcher hf).1 ?_)
    exact view_failed hf (by simp)
  | finish ha => exact .ended _ _ (.inl rfl) (leave_ended hi ha rfl (view_idle rfl ∅))

end EpochTurns
