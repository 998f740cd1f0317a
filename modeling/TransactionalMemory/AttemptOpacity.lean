import TransactionalMemory.EpochTurns

/-! # Every attempt sees one committed memory

Not only the transactions that commit read consistent values. Each transaction of an epoch,
also one that aborts or still runs, reads what it would read alone on the memory that the
epoch began with. -/
namespace AttemptOpacity

open TransitionSystem
open ControlWord
open RegionState
open CallLog
open CallOutcomes
open AtomicCalls
open CommutingSteps
open PlainMemory
open SerialViews
open SerialRuns
open Serializability
open EpochTurns

variable {W : Type*} [DecidableEq W] [Zero W] {s t : State W} {e : Event W} {log : Log W}
variable {m : Memory W} {size : ℕ} {u tx : Tx}

/-- Each transaction of the log, whatever became of it, runs alone on `m`. -/
def Replays (log : Log W) (m : Memory W) : Prop := ∀ u, ∃ m', runTransaction log m u = some m'

theorem Replays.nil (m : Memory W) : Replays [] m := fun _ => ⟨m, rfl⟩

theorem Replays.ended {e : Entry W} (h : Replays log m) (tx : Tx)
    (he : e = .commit ∨ e = .abort) : Replays (log ++ [(tx, e)]) m := by
  intro u
  obtain ⟨m', hm⟩ := h u
  refine ⟨m', ?_⟩
  by_cases hu : u = tx
  · subst u
    rw [runTransaction_self, hm]
    rcases he with rfl | rfl <;> rfl
  · rw [runTransaction_other hu, hm]

/-- The past epochs and the running one. -/
structure Snapshots (size : ℕ) (s : State W) : Prop where
  past : ∀ pre log post, s.closed = pre ++ log :: post → ∀ orders,
    List.Forall₂ SerialOrder pre orders →
      ∃ m, (pre.zip orders).foldlM runEpoch (initialMemory size) = some m ∧ Replays log m
  running : Replays s.log (committed s)

/-- A transaction that has not aborted runs on the committed memory. -/
theorem standing_replays (h : Consistent size s) (hu : (u, .abort) ∉ s.log) :
    ∃ m', runTransaction s.log (committed s) u = some m' := by
  rw [committed_eq_view]
  cases hro : isTxReadonly u with
  | true => exact ⟨_, h.serial.readers u hro hu⟩
  | false => exact ⟨_, h.serial.writers ∅ u (by simp) ⟨hro, hu⟩ (by simp)⟩

theorem Snapshots.init : Snapshots size (initial size : State W) where
  past pre log post h := by simp [initial] at h
  running := Replays.nil _

theorem Snapshots.keep (h : Snapshots size s) (hb : SameBooks s t) : Snapshots size t := by
  refine ⟨by rw [hb.closed]; exact h.past, ?_⟩
  rw [hb.log, hb.committed]
  exact h.running

theorem Snapshots.logged (h : Snapshots size s) (hi : Invariant s) (ht : Consistent size t)
    {e : Entry W} (hl : Logged s t tx e) : Snapshots size t := by
  refine ⟨by rw [hl.closed]; exact h.past, fun u => ?_⟩
  by_cases hu : (u, .abort) ∈ t.log
  · -- its calls were logged before, and at most its end is new
    rw [hl.log, hl.committed]
    by_cases hx : u = tx
    · subst u
      have habort : e = .abort := by
        rw [hl.log, mem_snoc] at hu
        rcases hu with hu | hu
        · exact ((hi.crew.running tx hl.active).2 hu).elim
        · exact (congrArg Prod.snd hu).symm
      exact h.running.ended tx (.inr habort) tx
    · obtain ⟨m', hm'⟩ := h.running u
      exact ⟨m', (runTransaction_other hx _).trans hm'⟩
  · exact standing_replays ht hu

theorem Snapshots.step (h : Snapshots size s) (hi : Invariant s) (hs : Consistent size s)
    (ht : Consistent size t) (hturn : Turn s t) : Snapshots size t := by
  cases hturn with
  | begun _ _ hb =>
    cases hb with
    | admitted _ hb => exact h.keep hb
    | parked _ hb => exact h.keep hb
  | refused heq =>
    subst t
    exact h
  | called _ _ hl => exact h.logged hi ht hl
  | ended tx e he hend =>
    cases hend with
    | left hl => exact h.logged hi ht hl
    | closed _ _ _ _ hlog hclosed =>
      refine ⟨fun pre log post hsplit orders ho => ?_, by rw [hlog]; exact Replays.nil _⟩
      rw [hclosed] at hsplit
      rcases List.eq_nil_or_concat post with rfl | ⟨post, x, rfl⟩
      · obtain ⟨rfl, hlast⟩ := List.append_inj' hsplit rfl
        cases hlast
        refine ⟨committed s, ?_, h.running.ended tx he⟩
        rw [hs.replay orders ho, committed_eq_view]
      · rw [List.concat_eq_append, ← List.cons_append, ← List.append_assoc] at hsplit
        exact h.past pre log post (List.append_inj' hsplit rfl).1 orders ho

theorem reachable_snapshots (h : Reachable (system W size) Client s) : Snapshots size s := by
  induction h with
  | init hs =>
    cases hs
    exact Snapshots.init
  | step hr hc ht ih =>
    obtain ⟨hi, hs⟩ := reachable_consistent hr
    exact ih.step hi hs (hs.step hi hc ht) (step_turn hi hs hc ht)

/-- In every epoch each transaction, committed, aborted or running, reads what it would read
alone on the memory that the epochs before it leave, in whatever serial order. The history
that is replayed holds an answer to each of its calls. -/
theorem attempts_replay {es : List (Event W)}
    (hm : Meets (system W size) Client (initial size) es)
    (hr : run (system W size) (initial size) es = some s) :
    List.Forall₂ Answer (es.filter Event.logged) (history s) ∧ Snapshots size s :=
  ⟨run_history hr, reachable_snapshots (Reachable.run (.init rfl) es hm hr)⟩

/-- In the second epoch 4 allocates, reads two words and then finds another one taken. -/
def doom : List (Event ℕ) :=
  [.begin false, .begin false, .begin false, .begin false, .write 1 0 0 [7], .finish 1,
    .write 3 0 2 [5], .alloc 4 1 true, .read 4 0 0 2, .write 4 0 2 [6]]
def doomed : State ℕ := (run (system ℕ 3) (initial 3) doom).getD (initial 3)

theorem attempts_replay_doomed :
    List.Forall₂ Answer (doom.filter Event.logged) (history doomed) ∧ Snapshots 3 doomed ∧
      (4, .read 0 0 [7, 0]) ∈ doomed.log ∧ (4, .abort) ∈ doomed.log := by
  have hm : Meets (system ℕ 3) Client (initial 3) doom := by decide
  obtain ⟨hanswers, hsnapshots⟩ := attempts_replay hm (s := doomed) rfl
  exact ⟨hanswers, hsnapshots, by decide, by decide⟩

end AttemptOpacity
