import TransactionalMemory.SerialViews

/-! # Running the transactions of an epoch one at a time

In the view of any set of writers that have not aborted, another one runs and leads to the
view with itself added. Each call preserves this: it is apart from the calls of the other
writers. -/
namespace SerialRuns

open ControlWord
open RegionState
open Calls
open CallEffects
open CallLog
open EpochBooks
open CallOutcomes
open CommutingSteps
open PlainMemory
open SerialViews

variable {W : Type*} {log : Log W} {r t : Region W} {tx : Tx} {e : Entry W} {g : SegId}
variable {dead : List SegId}

/-- A read-write transaction that has not aborted. -/
def Writer (log : Log W) (u : Tx) : Prop := isTxReadonly u = false ∧ (u, .abort) ∉ log

theorem abort_snoc {u : Tx} (he : e ≠ .abort) :
    (u, .abort) ∈ log ++ [(tx, e)] ↔ (u, .abort) ∈ log := by
  simp [he.symm]

theorem writer_snoc {u : Tx} (he : e ≠ .abort) :
    Writer (log ++ [(tx, e)]) u ↔ Writer log u := by
  rw [Writer, Writer, abort_snoc he]

/-- Calls of two transactions that have not aborted are apart. -/
theorem apart_of_books (hb : Books (log ++ [(tx, e)]) t) (hx : Writer log tx) (he : e ≠ .abort)
    (hfresh : ∀ g size, e = .alloc g size → ∀ u e', (u, e') ∈ log → e'.claims ≠ some g)
    {u : Tx} {e' : Entry W} (hu : u ≠ tx) (hw : Writer log u) (hin : (u, e') ∈ log) :
    Apart e e' := by
  -- one of the two stores to a word and the other passed it
  have meet : ∀ {v v' f f'}, v ≠ v' → Writer log v → Writer log v' →
      (v, f) ∈ log ++ [(tx, e)] → (v', f') ∈ log ++ [(tx, e)] → ∀ g i,
      f.stores g i = true → f'.accesses g i = false := by
    intro v v' f f' hne hv hv' hf hf' g i hs
    by_contra ha
    have hacc : f'.accesses g i = true := by simpa using ha
    have hwrote : v ∈ wrote (log ++ [(tx, e)]) g i := ⟨(abort_snoc he).not.mpr hv.2, f, hf, hs⟩
    have hpass : v' ∈ passed (log ++ [(tx, e)]) g i :=
      ⟨(abort_snoc he).not.mpr hv'.2, f', hf', by simp [Entry.marks, hacc, hv'.1]⟩
    have hg := ((hb.filed v' f' hf').bounds g i hacc).1
    exact hne (((hb.kept g hg).words i).exclusive.writer_alone hwrote hpass).symm
  exact ⟨meet hu.symm hx hw (by simp) (by simp [hin]),
    meet hu hw hx (by simp [hin]) (by simp),
    fun g size hx' => hfresh g size hx' u e' hin⟩

variable [DecidableEq W] [Zero W]

structure Serial (log : Log W) (r : Region W) (dead : List SegId) : Prop where
  readonly : ∀ u e, (u, e) ∈ log → isTxReadonly u = true →
    e.claims = none ∧ ∀ g i, e.stores g i = false
  writers : ∀ U u, (∀ v ∈ U, Writer log v) → Writer log u → u ∉ U →
    runTransaction log (view log r dead U) u = some (view log r dead (insert u U))
  readers : ∀ u, isTxReadonly u = true → (u, .abort) ∉ log →
    runTransaction log (view log r dead ∅) u = some (view log r dead ∅)

theorem runTransaction_self (log : Log W) (tx : Tx) (e : Entry W) (m : Memory W) :
    runTransaction (log ++ [(tx, e)]) m tx = (runTransaction log m tx).bind (exec · e) := by
  rw [runTransaction, calls_snoc, if_pos rfl, foldlM_snoc, runTransaction]

theorem runTransaction_other {u : Tx} (hu : u ≠ tx) (m : Memory W) :
    runTransaction (log ++ [(tx, e)]) m u = runTransaction log m u := by
  rw [runTransaction, calls_snoc, if_neg hu.symm, runTransaction]

namespace Serial

theorem opened (h : ∀ g ∈ r.live, Quiescent (r.seg g)) : Serial [] r dead where
  readonly := nofun
  writers U u _ _ _ := by
    rw [view_open h U, view_open h (insert u U)]
    rfl
  readers _ _ _ := rfl

/-- A call of a writer moves its own views; the other writers commute with it. -/
theorem call (h : Serial log r dead) (hx : Writer log tx) (he : e ≠ .abort)
    (hm : Moves log r dead tx e t)
    (hapart : ∀ u e', u ≠ tx → Writer log u → (u, e') ∈ log → Apart e e') :
    Serial (log ++ [(tx, e)]) t dead where
  readonly u e' hin hro := by
    rcases mem_snoc.mp hin with hin | hin
    · exact h.readonly u e' hin hro
    · cases hin
      rw [hx.1] at hro
      cases hro
  writers U u hU hu hnot := by
    have hw := h.writers U u (fun v hv => (writer_snoc he).mp (hU v hv)) ((writer_snoc he).mp hu)
      hnot
    by_cases hux : u = tx
    · subst u
      rw [runTransaction_self, hm.without U hnot, hw]
      exact hm.within _ (Finset.mem_insert_self tx U)
    · rw [runTransaction_other hux]
      by_cases hin : tx ∈ U
      · have comm : Commutes (exec · e) (fun m => runTransaction log m u) :=
          Commutes.foldlM fun e' he' => exec_commutes
            (hapart u e' hux ((writer_snoc he).mp hu) (mem_calls.mp he'))
        obtain ⟨c, hc, hc'⟩ := comm _ _ _ (hm.within U hin) hw
        refine hc.trans ?_
        rw [← hc']
        exact hm.within _ (Finset.mem_insert_of_mem hin)
      · have hin' : tx ∉ insert u U := by
          rw [Finset.mem_insert, not_or]
          exact ⟨Ne.symm hux, hin⟩
        rw [hm.without U hin, hm.without _ hin']
        exact hw
  readers u hro hnot := by
    have hux : u ≠ tx := by
      rintro rfl
      rw [hx.1] at hro
      cases hro
    rw [runTransaction_other hux, hm.without ∅ (by simp)]
    exact h.readers u hro ((abort_snoc he).not.mp hnot)

/-- A call that moves no view: a read by a read-only transaction, or a commit. -/
theorem idle (h : Serial log r dead) (he : e ≠ .abort) (hc : e.claims = none)
    (hs : ∀ g i, e.stores g i = false)
    (same : ∀ U, view (log ++ [(tx, e)]) t dead U = view log r dead U)
    (ok : ∀ U, (isTxReadonly tx = true → U = ∅) →
      exec (view log r dead U) e = some (view log r dead U)) :
    Serial (log ++ [(tx, e)]) t dead where
  readonly u e' hin hu := by
    rcases mem_snoc.mp hin with hin | hin
    · exact h.readonly u e' hin hu
    · cases hin
      exact ⟨hc, hs⟩
  writers U u hU hu hnot := by
    have hw := h.writers U u (fun v hv => (writer_snoc he).mp (hU v hv)) ((writer_snoc he).mp hu)
      hnot
    rw [same, same]
    by_cases hux : u = tx
    · subst u
      rw [runTransaction_self, hw]
      refine ok _ fun hro => ?_
      rw [hu.1] at hro
      cases hro
    · rw [runTransaction_other hux]
      exact hw
  readers u hu hnot := by
    have hr := h.readers u hu ((abort_snoc he).not.mp hnot)
    rw [same]
    by_cases hux : u = tx
    · subst u
      rw [runTransaction_self, hr]
      exact ok ∅ fun _ => rfl
    · rw [runTransaction_other hux]
      exact hr

theorem commit (h : Serial log r dead) (tx : Tx) : Serial (log ++ [(tx, .commit)]) r dead :=
  h.idle (by simp) rfl (fun _ _ => rfl) (view_idle rfl) fun _ _ => rfl

theorem abort (h : Serial log r dead)
    (without : ∀ U, tx ∉ U → view (log ++ [(tx, .abort)]) t dead U = view log r dead U) :
    Serial (log ++ [(tx, .abort)]) t dead where
  readonly u e' hin hu := by
    rcases mem_snoc.mp hin with hin | hin
    · exact h.readonly u e' hin hu
    · cases hin
      exact ⟨rfl, fun _ _ => rfl⟩
  writers U u hU hu hnot := by
    have back : ∀ {v}, Writer (log ++ [(tx, .abort)]) v → Writer log v ∧ v ≠ tx := by
      rintro v ⟨hro, hab⟩
      rw [mem_snoc, not_or] at hab
      exact ⟨⟨hro, hab.1⟩, fun hv => hab.2 (by rw [hv])⟩
    have hin : tx ∉ U := fun hin => (back (hU tx hin)).2 rfl
    have hin' : tx ∉ insert u U := by
      rw [Finset.mem_insert, not_or]
      exact ⟨(back hu).2.symm, hin⟩
    rw [runTransaction_other (back hu).2, without U hin, without _ hin']
    exact h.writers U u (fun v hv => (back (hU v hv)).1) (back hu).1 hnot
  readers u hro hnot := by
    rw [mem_snoc, not_or] at hnot
    rw [runTransaction_other (fun hu => hnot.2 (by rw [hu])), without ∅ (by simp)]
    exact h.readers u hro hnot.1

end Serial

end SerialRuns
