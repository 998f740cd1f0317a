import TransactionalMemory.ControlWord
import TransactionalMemory.LockAlgorithms

/-! # The guards of a word under its spinlock

The sections of `_tm_read`, `_tm_write` and `rollback_transaction` on one word, load by load
and store by store, with the rounds of the spinlock around them. -/
namespace WordGuards

open TransitionSystem
open LockedSections
open LockAlgorithms (spinlock spinlock_flagged)
open ControlWord

/-- What runs between `spinlock_acquire` and `spinlock_release`. -/
inductive Guard where
  | read (tx : Tx)
  | write (tx : Tx)
  | rollback (tx : Tx)
  deriving DecidableEq, Repr

def Guard.tx : Guard → Tx
  | .read tx | .write tx | .rollback tx => tx

/-- `can_read_word` -/
def canReadWordCode (tx : Tx) : Code Control Bool :=
  .load fun c =>
    if c.written then .load fun c => .done (decide (c.access = tx))
    else
      .store (·.claim tx) <| .load fun c =>
        if c.access ≠ tx then .store (fun c => { c with manyAccesses := true }) (.done true)
        else .done true

/-- `can_write_word` -/
def canWriteWordCode (tx : Tx) : Code Control Bool :=
  .load fun c =>
    if c.written then
      .load fun c =>
        if c.access = tx then .load fun c => .done (!c.manyAccesses) else .done false
    else
      .store (·.claim tx) <| .load fun c =>
        if c.access = tx then
          .load fun c =>
            if c.manyAccesses then .done false
            else .store (fun c => { c with written := true }) (.done true)
        else .done false

/-- The section of `rollback_transaction`; `true` says that the data word is restored. -/
def rollbackWordCode (tx : Tx) : Code Control Bool :=
  .load fun c =>
    if c.written then
      .load fun c =>
        if c.access = tx then
          .store (fun c => { c with written := false }) <|
            .store (fun c => { c with access := 0#64 }) (.done true)
        else .done false
    else .done false

def Guard.code : Guard → Code Control Bool
  | .read tx => canReadWordCode tx
  | .write tx => canWriteWordCode tx
  | .rollback tx => rollbackWordCode tx

def Guard.apply : Guard → Control → Bool × Control
  | .read tx => canReadWord tx
  | .write tx => canWriteWord tx
  | .rollback tx => rollbackWord tx

theorem canReadWordCode_run (tx : Tx) (c : Control) :
    (canReadWordCode tx).run c = canReadWord tx c := by
  cases hw : c.written with
  | true => simp [canReadWordCode, canReadWord, hw]
  | false =>
    by_cases ha : (c.claim tx).access = tx
    · simp [canReadWordCode, canReadWord, hw, ha]
    · simp [canReadWordCode, canReadWord, hw, ha]

theorem canWriteWordCode_run (tx : Tx) (c : Control) :
    (canWriteWordCode tx).run c = canWriteWord tx c := by
  have many : (c.claim tx).manyAccesses = c.manyAccesses := by
    unfold Control.claim
    split_ifs <;> rfl
  cases hw : c.written with
  | true =>
    by_cases ha : c.access = tx
    · cases hm : c.manyAccesses <;> simp [canWriteWordCode, canWriteWord, hw, ha, hm]
    · simp [canWriteWordCode, canWriteWord, hw, ha]
  | false =>
    by_cases ha : (c.claim tx).access = tx
    · cases hm : c.manyAccesses <;> simp [canWriteWordCode, canWriteWord, hw, ha, many, hm]
    · simp [canWriteWordCode, canWriteWord, hw, ha]

theorem rollbackWordCode_run (tx : Tx) (c : Control) :
    (rollbackWordCode tx).run c = rollbackWord tx c := by
  cases hw : c.written with
  | true =>
    by_cases ha : c.access = tx
    · simp [rollbackWordCode, rollbackWord, hw, ha]
    · simp [rollbackWordCode, rollbackWord, hw, ha]
  | false => simp [rollbackWordCode, rollbackWord, hw]

theorem code_run (g : Guard) (c : Control) : g.code.run c = g.apply c := by
  cases g with
  | read tx => exact canReadWordCode_run tx c
  | write tx => exact canWriteWordCode_run tx c
  | rollback tx => exact rollbackWordCode_run tx c

abbrev guards : Sections Control Bool where
  Op := Guard
  mode _ := .exclusive
  code := Guard.code
  quiet _ h := by cases h

/-- Each guard in one step. -/
abbrev atomicGuards : Sections Control Bool where
  Op := Guard
  mode _ := .exclusive
  code g := .act (fun c => (g.apply c).2) fun c => .done (g.apply c).1
  quiet _ h := by cases h

/-! ### Who may use the word -/

/-- Who passed a guard, and the guard for writing, and has not failed since. -/
structure Holders where
  passed : Finset Tx
  wrote : Finset Tx
  deriving DecidableEq

def Holders.without (h : Holders) (tx : Tx) : Holders := ⟨h.passed.erase tx, h.wrote.erase tx⟩

/-- Who is refused fails, and who rolls back has failed. -/
def Guard.settle (g : Guard) (c : Control) (h : Holders) : Holders :=
  match g, (g.apply c).1 with
  | .read tx, true => ⟨insert tx h.passed, h.wrote⟩
  | .write tx, true => ⟨insert tx h.passed, insert tx h.wrote⟩
  | .read tx, false | .write tx, false | .rollback tx, _ => h.without tx

def holders {T : Type*} : List (T × Guard) → Control → Holders → Holders
  | [], _, h => h
  | x :: xs, c, h => holders xs (x.2.apply c).2 (x.2.settle c h)

def Holders.Exclusive (h : Holders) (c : Control) : Prop := ControlWord.Exclusive c h.passed h.wrote

namespace Holders.Exclusive

variable {h : Holders} {c : Control} {tx : Tx}

theorem without (hx : h.Exclusive c) (tx : Tx) : (h.without tx).Exclusive c := by
  refine hx.mono ?_ ?_ ?_
  · exact Finset.coe_subset.mpr (Finset.erase_subset _ _)
  · exact Finset.coe_subset.mpr (Finset.erase_subset _ _)
  · exact Finset.coe_subset.mpr (Finset.erase_subset_erase _ (Finset.coe_subset.mp hx.writers_pass))

theorem settle (hx : h.Exclusive c) {g : Guard} (hg : g.tx ≠ 0#64) :
    (g.settle c h).Exclusive (g.apply c).2 := by
  cases g with
  | read tx =>
    have hg : tx ≠ 0#64 := hg
    cases ok : (canReadWord tx c).1 with
    | true =>
      have next : (Holders.mk (insert tx h.passed) h.wrote).Exclusive (canReadWord tx c).2 := by
        rw [Holders.Exclusive, Finset.coe_insert]
        exact ControlWord.Exclusive.read hx hg ok
      simpa [Guard.settle, Guard.apply, ok] using next
    | false =>
      have same := (canReadWord_refused ok).1
      have next := hx.without tx
      simpa [Guard.settle, Guard.apply, ok, same] using next
  | write tx =>
    have hg : tx ≠ 0#64 := hg
    cases ok : (canWriteWord tx c).1 with
    | true =>
      have next : (Holders.mk (insert tx h.passed) (insert tx h.wrote)).Exclusive
          (canWriteWord tx c).2 := by
        rw [Holders.Exclusive, Finset.coe_insert, Finset.coe_insert]
        exact (ControlWord.Exclusive.write hx hg ok).1
      simpa [Guard.settle, Guard.apply, ok] using next
    | false =>
      have same := (ControlWord.Exclusive.write_refused hx ok).1
      have next := hx.without tx
      simpa [Guard.settle, Guard.apply, ok, same] using next
  | rollback tx =>
    have hout : tx ∉ ((h.without tx).passed : Set Tx) := by simp [Holders.without]
    exact ControlWord.Exclusive.rollback (hx.without tx) hout

theorem run {T : Type*} (hx : h.Exclusive c) {xs : List (T × Guard)}
    (hxs : ∀ x ∈ xs, x.2.tx ≠ 0#64) :
    (holders xs c h).Exclusive (outcome atomicGuards xs c) := by
  induction xs generalizing c h with
  | nil => exact hx
  | cons x xs ih =>
    refine ih (hx.settle (hxs x (by simp))) fun y hy => ?_
    exact hxs y (List.mem_cons_of_mem _ hy)

end Holders.Exclusive

/-! ### Threads at the word -/

section threads

variable {T : Type*} [DecidableEq T] {s : State spinlock guards T}

/-- 0 is nobody's id. -/
def Named (_ : State spinlock guards T) : Event T Guard → Prop
  | .call _ g => g.tx ≠ 0#64
  | .step .. => True

instance (s : State spinlock guards T) : ∀ e, Decidable (Named s e)
  | .call _ _ => inferInstanceAs (Decidable (_ ≠ _))
  | .step .. => isTrue trivial

/-- Threads that go through the guards of a word access by access, each between its own
`spinlock_acquire` and `spinlock_release`, get the answers of guards that run in one step, in
the order in which the spinlock was taken. Whoever passed the guard for writing and has not
failed has the word to itself. -/
theorem word_guards_atomic (h : Reachable (system spinlock guards T Control.zero) Named s) :
    (∀ t, replies atomicGuards s.order Control.zero t = s.answered t ++ s.due t) ∧
    ((∀ t m, s.lock.phase t ≠ .holding m) →
      s.datum = outcome atomicGuards s.order Control.zero) ∧
    ∀ tx ∈ (holders s.order Control.zero ⟨∅, ∅⟩).wrote,
      ∀ u ∈ (holders s.order Control.zero ⟨∅, ∅⟩).passed, u = tx := by
  have serial := reachable_serial spinlock_flagged.excludes (h.mono fun _ _ _ => trivial)
  have same := @serial_congr _ _ T guards atomicGuards id (fun o d => (code_run o d).symm)
    s.order Control.zero
  rw [show s.order.map (fun x => (x.1, id x.2)) = s.order from List.map_id _] at same
  refine ⟨fun t => ?_, fun hnone => ?_, ?_⟩
  · rw [same.2 t]
    exact serial.answers t
  · rw [same.1]
    exact serial.settled fun t => hnone t _
  · have named := order_of_calls (P := fun g : Guard => g.tx ≠ 0#64) (h.mono ?_)
    · have start : Holders.Exclusive ⟨∅, ∅⟩ Control.zero := by
        simpa [Holders.Exclusive] using exclusive_zero
      intro tx ht u hu
      exact (start.run named.1).writer_alone ht hu
    · rintro s e he t o rfl
      exact he

end threads

/-- One thread guards a write of transaction 5 and the other a read of transaction 6, in turn;
the first compare-and-swap fails for no reason. -/
def contention : List (Event Bool Guard) :=
  [.call true (.write 5), .call false (.read 6), .step true false, .step true true] ++
    (List.replicate 7 [.step true true, .step false true]).flatten ++
    List.replicate 4 (.step false true)
def contended : State spinlock guards Bool :=
  (run (system spinlock guards Bool Control.zero) (initial spinlock guards Bool Control.zero)
    contention).getD (initial spinlock guards Bool Control.zero)

theorem word_guards_atomic_contended :
    replies atomicGuards contended.order Control.zero false = [false] ∧
      contended.datum = outcome atomicGuards contended.order Control.zero ∧
      contended.datum = ⟨5, true, false⟩ := by
  have h : Reachable (system spinlock guards Bool Control.zero) Named contended :=
    Reachable.run (.init rfl) contention (by decide) rfl
  have settled : ∀ t m, contended.lock.phase t ≠ .holding m := by
    intro t m ht
    cases t <;> cases ht
  exact ⟨(word_guards_atomic h).1 false, (word_guards_atomic h).2.1 settled, by decide⟩

end WordGuards
