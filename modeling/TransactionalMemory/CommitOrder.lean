import TransactionalMemory.EpochTurns

/-! # The order of the commits

The writers of the open epoch that have committed, in the order of their commits, run on the
memory that the epoch began with. What they leave is what the epoch will have committed if
nobody else does. -/
namespace CommitOrder

open TransitionSystem
open ControlWord
open RegionState
open CallLog
open CallOutcomes
open AtomicCalls
open CommutingSteps
open PlainMemory
open SerialViews
open SerialRuns
open Serializability
open EpochTurns

variable {W : Type*} {log : Log W} {u tx : Tx} {e : Entry W}

def commits (log : Log W) : List Tx :=
  log.filterMap fun x => match x.2 with | .commit => some x.1 | _ => none

def committedWriters (log : Log W) : List Tx := (commits log).filter fun u => !isTxReadonly u

theorem mem_commits : u ∈ commits log ↔ (u, .commit) ∈ log := by
  simp only [commits, List.mem_filterMap]
  constructor
  · rintro ⟨⟨v, e⟩, hin, hx⟩
    cases e <;> simp at hx
    subst v
    exact hin
  · exact fun hin => ⟨_, hin, rfl⟩

theorem mem_committedWriters :
    u ∈ committedWriters log ↔ (u, .commit) ∈ log ∧ isTxReadonly u = false := by
  simp [committedWriters, mem_commits]

theorem commits_commit : commits (log ++ [(tx, .commit)]) = commits log ++ [tx] := by
  simp [commits]

theorem commits_other (he : e ≠ .commit) : commits (log ++ [(tx, e)]) = commits log := by
  cases e <;> simp [commits] at he ⊢

theorem committedWriters_other (h : e ≠ .commit ∨ isTxReadonly tx = true) :
    committedWriters (log ++ [(tx, e)]) = committedWriters log := by
  by_cases he : e = .commit
  · subst e
    have hro := h.resolve_left (by simp)
    simp [committedWriters, commits_commit, hro]
  · rw [committedWriters, commits_other he, committedWriters]

theorem committedWriters_commit (h : isTxReadonly tx = false) :
    committedWriters (log ++ [(tx, .commit)]) = committedWriters log ++ [tx] := by
  simp [committedWriters, commits_commit, h]

/-- The committed transactions, each once: the readers, then the writers. -/
theorem serialOrder_of {l : List Tx} (hn : l.Nodup) (hl : ∀ u, u ∈ l ↔ (u, .commit) ∈ log) :
    SerialOrder log ((l.filter fun u => isTxReadonly u) ++ l.filter fun u => !isTxReadonly u) where
  nodup := by
    refine List.nodup_append.mpr ⟨hn.filter _, hn.filter _, ?_⟩
    rintro u hu v hv rfl
    have := (List.mem_filter.mp hu).2
    simp [this] at hv
  committed u := by
    rw [List.mem_append, List.mem_filter, List.mem_filter, hl]
    cases isTxReadonly u <;> simp
  readersFirst := by
    refine List.pairwise_append.mpr ⟨?_, ?_, fun a ha b _ _ => (List.mem_filter.mp ha).2⟩
    · exact List.pairwise_of_forall_mem_list fun a ha b _ _ => (List.mem_filter.mp ha).2
    · refine List.pairwise_of_forall_mem_list fun a _ b hb hro => ?_
      simp [hro] at hb

theorem serialOrders_exist [DecidableEq W] (logs : List (Log W)) :
    ∃ orders, List.Forall₂ SerialOrder logs orders := by
  induction logs with
  | nil => exact ⟨[], .nil⟩
  | cons log logs ih =>
    obtain ⟨orders, h⟩ := ih
    exact ⟨_ :: orders, .cons (serialOrder_of (List.nodup_dedup (commits log))
      fun u => by rw [List.mem_dedup, mem_commits]) h⟩

variable [DecidableEq W] [Zero W] {s t : State W} {m m' : Memory W} {size : ℕ}

/-- What the committed writers leave of the memory `m`. -/
def progress (log : Log W) (m : Memory W) : Option (Memory W) :=
  (committedWriters log).foldlM (runTransaction log) m

theorem foldlM_other {l : List Tx} (h : tx ∉ l) (m : Memory W) :
    l.foldlM (runTransaction (log ++ [(tx, e)])) m = l.foldlM (runTransaction log) m := by
  induction l generalizing m with
  | nil => rfl
  | cons u l ih =>
    rw [List.mem_cons, not_or] at h
    simp only [List.foldlM_cons]
    rw [runTransaction_other (Ne.symm h.1)]
    exact congrArg _ (funext fun m => ih h.2 m)

theorem progress_other (hr : (tx, .commit) ∉ log)
    (h : e ≠ .commit ∨ isTxReadonly tx = true) :
    progress (log ++ [(tx, e)]) m = progress log m := by
  rw [progress, committedWriters_other h, foldlM_other, progress]
  exact fun hin => hr (mem_committedWriters.mp hin).1

theorem progress_commit (hr : (tx, .commit) ∉ log) (h : isTxReadonly tx = false) :
    progress (log ++ [(tx, .commit)]) m =
      (progress log m).bind fun m => runTransaction log m tx := by
  rw [progress, committedWriters_commit h, foldlM_snoc, foldlM_other, progress]
  · congr 1
    funext m
    rw [runTransaction_self]
    cases runTransaction log m tx <;> rfl
  · exact fun hin => hr (mem_committedWriters.mp hin).1

/-- Each of the committed writers has run. -/
theorem progress_view (h : Consistent size s) (hi : Invariant s) (hn : (commits s.log).Nodup) :
    progress s.log (committed s) =
      some (view s.log s.region (freedBefore s) (committedWriters s.log).toFinset) := by
  have hruns := foldlM_view (p := Writer s.log) h.serial.writers (l := committedWriters s.log)
    (hn.filter _) (fun u hu => ?_) (U := ∅) (by simp) (by simp)
  · rw [Finset.empty_union] at hruns
    rw [progress, committed_eq_view, hruns]
  · rw [mem_committedWriters] at hu
    exact ⟨hu.2, hi.crew.once u hu.1⟩

/-- A writer that still runs would take its calls from there on, too. -/
theorem progress_running (h : Consistent size s) (hi : Invariant s)
    (hn : (commits s.log).Nodup) (ha : tx ∈ s.active) (hro : isTxReadonly tx = false)
    (hm : progress s.log (committed s) = some m) : ∃ m', runTransaction s.log m tx = some m' := by
  rw [progress_view h hi hn] at hm
  cases hm
  refine ⟨_, h.serial.writers _ tx (fun u hu => ?_) ⟨hro, (hi.crew.running tx ha).2⟩ fun hin => ?_⟩
  · rw [List.mem_toFinset, mem_committedWriters] at hu
    exact ⟨hu.2, hi.crew.once u hu.1⟩
  · rw [List.mem_toFinset, mem_committedWriters] at hin
    exact (hi.crew.running tx ha).1 hin.1

omit [Zero W] in
theorem commits_nodup (hi : Invariant s) (hn : (commits s.log).Nodup) (ha : tx ∈ s.active)
    (e : Entry W) : (commits (s.log ++ [(tx, e)])).Nodup := by
  by_cases he : e = .commit
  · subst e
    rw [commits_commit, List.nodup_append]
    refine ⟨hn, by simp, fun u hu v hv => ?_⟩
    rintro rfl
    rw [List.mem_singleton.mp hv, mem_commits] at hu
    exact (hi.crew.running tx ha).1 hu
  · rwa [commits_other he]

/-- The readers find the memory that the epoch began with, and leave it. -/
theorem readers_run (h : Consistent size s) (hi : Invariant s) (ha : tx ∈ s.active) {l : List Tx}
    (hl : ∀ u ∈ l, isTxReadonly u = true ∧ (u, .commit) ∈ s.log ++ [(tx, e)]) :
    l.foldlM (runTransaction (s.log ++ [(tx, e)])) (committed s) = some (committed s) := by
  induction l with
  | nil => rfl
  | cons u l ih =>
    obtain ⟨hro, hc⟩ := hl u (by simp)
    have hu : runTransaction (s.log ++ [(tx, e)]) (committed s) u = some (committed s) := by
      have reads : (u, .abort) ∉ s.log →
          runTransaction s.log (committed s) u = some (committed s) := by
        rw [committed_eq_view]
        exact h.serial.readers u hro
      rcases mem_snoc.mp hc with hold | hnew
      · have hu : u ≠ tx := by
          rintro rfl
          exact (hi.crew.running u ha).1 hold
        rw [runTransaction_other hu]
        exact reads (hi.crew.once u hold)
      · cases hnew
        rw [runTransaction_self, reads (hi.crew.running _ ha).2]
        rfl
    rw [List.foldlM_cons, hu]
    exact ih fun v hv => hl v (by simp [hv])

/-- The last one to leave makes what the committed writers leave the memory of the next
epoch. -/
theorem closed_progress (h : Consistent size s) (ht : Consistent size t) (hi : Invariant s)
    (hn : (commits s.log).Nodup) (ha : tx ∈ s.active)
    (hclosed : t.closed = s.closed ++ [s.log ++ [(tx, e)]]) :
    ∃ m, progress (s.log ++ [(tx, e)]) (committed s) = some m ∧ committed t = endEpoch m := by
  obtain ⟨orders, ho⟩ := serialOrders_exist s.closed
  have hlast := serialOrder_of (commits_nodup hi hn ha e) fun u => mem_commits
  have hall : List.Forall₂ SerialOrder t.closed (orders ++
      [(commits (s.log ++ [(tx, e)])).filter (fun u => isTxReadonly u) ++
        committedWriters (s.log ++ [(tx, e)])]) := by
    rw [hclosed]
    exact List.rel_append ho (.cons hlast .nil)
  have hrun := ht.replay _ hall
  rw [hclosed, List.zip_append ho.length_eq, List.zip_cons_cons, List.zip_nil_left, foldlM_snoc,
    h.replay orders ho, ← committed_eq_view, ← committed_eq_view, Option.bind_some, runEpoch,
    List.foldlM_append, readers_run h hi ha fun u hu => ?_] at hrun
  · obtain ⟨m, hm, hend⟩ := Option.map_eq_some_iff.mp hrun
    exact ⟨m, hm, hend.symm⟩
  · obtain ⟨hin, hro⟩ := List.mem_filter.mp hu
    exact ⟨hro, mem_commits.mp hin⟩

end CommitOrder
