import TransactionalMemory.LockAlgorithms
import TransactionalMemory.ReferenceAgreement

/-! # Concurrent transactions on the reference

Threads run transactions on the reference, copying word by word, each transaction one section
under the lock of the region. -/
namespace ReferenceTransactions

open TransitionSystem
open LockedSections
open LockAlgorithms
open ControlWord
open Calls (copyOut inRange inRange_iff)
open ReferenceMemory

variable {W R : Type*}

/-- The calls of one transaction, each chosen by the answers before it. -/
inductive Program (W R : Type*) where
  | done (r : R)
  | read (source size : ℕ) (next : List W → Program W R)
  | write (source : List W) (target : ℕ) (next : Program W R)
  | alloc (size : ℕ) (next : ℕ → Program W R)
  | free (segment : ℕ) (next : Program W R)

/-- `memcpy` from the region. -/
def loadWords (source : ℕ) (k : List W → Code (Region W) R) :
    ℕ → List W → Code (Region W) R
  | 0, target => k target
  | n + 1, target =>
    .load fun r => loadWords source k n (target ++ [r.heap.word (source + target.length)])

/-- `memcpy` to the region. -/
def storeWords (k : Code (Region W) R) : ℕ → List W → Code (Region W) R
  | _, [] => k
  | target, w :: source =>
    .store (fun r => { r with
      heap := { r.heap with word := Function.update r.heap.word target w } }) <|
      storeWords k (target + 1) source

namespace Program

variable [Zero W]

/-- The calls on their own, between `tm_begin` and `tm_end`. -/
def run (A : Allocator W) (tx : Tx) : Program W R → Region W → R × Region W
  | .done r, s => (r, s)
  | .read source size next, s => (next (tmRead s tx source size)).run A tx s
  | .write source target next, s => next.run A tx (tmWrite s tx source target)
  | .alloc size next, s => (next (tmAlloc A s tx size).1).run A tx (tmAlloc A s tx size).2
  | .free segment next, s => next.run A tx (tmFree A s tx segment)

def code (A : Allocator W) (tx : Tx) : Program W R → Code (Region W) R
  | .done r => .done r
  | .read source size next => loadWords source (fun target => (next target).code A tx) size []
  | .write source target next => storeWords (next.code A tx) target source
  | .alloc size next =>
    .act (fun s => (tmAlloc A s tx size).2) fun s => (next (tmAlloc A s tx size).1).code A tx
  | .free segment next => .store (fun s => tmFree A s tx segment) (next.code A tx)

omit [Zero W] in
/-- The program only reads. -/
def Reads : Program W R → Prop
  | .done _ => True
  | .read _ _ next => ∀ target, (next target).Reads
  | .write .. | .alloc .. | .free .. => False

end Program

theorem loadWords_run (source : ℕ) (k : List W → Code (Region W) R) (n : ℕ) (target : List W)
    (r : Region W) : (loadWords source k n target).run r =
      (k (target ++ copyOut r.heap.word (source + target.length) n)).run r := by
  induction n generalizing target with
  | zero => simp [loadWords, copyOut]
  | succ n ih =>
    rw [loadWords, Code.run_load, ih]
    have hcopy : copyOut r.heap.word (source + target.length) (n + 1) =
        r.heap.word (source + target.length) ::
          copyOut r.heap.word (source + target.length + 1) n := by
      simp only [copyOut, List.range_succ_eq_map, List.map_cons, List.map_map, Nat.add_zero,
        List.cons.injEq, true_and]
      refine List.map_congr_left fun j _ => ?_
      simp only [Function.comp_apply]
      congr 1
      omega
    rw [hcopy, List.append_assoc, List.length_append, List.length_singleton, ← Nat.add_assoc]
    rfl

theorem loadWords_quiet {source : ℕ} {k : List W → Code (Region W) R}
    (hk : ∀ target, (k target).Quiet) (n : ℕ) (target : List W) :
    (loadWords source k n target).Quiet := by
  induction n generalizing target with
  | zero => exact hk target
  | succ n ih => exact fun r => ⟨rfl, ih _⟩

theorem memcpy_cons (word : ℕ → W) (target : ℕ) (w : W) (source : List W) :
    memcpy (Function.update word target w) (target + 1) source =
      memcpy word target (w :: source) := by
  funext a
  by_cases ha : a = target
  · subst a
    have hout : inRange (target + 1) source.length target = false := by
      rw [Bool.eq_false_iff, Ne, inRange_iff]
      omega
    have hin : inRange target (w :: source).length target = true := by
      rw [inRange_iff, List.length_cons]
      omega
    rw [memcpy_outside _ _ _ hout, memcpy, if_pos hin, Function.update_self]
    simp
  · by_cases hin : inRange (target + 1) source.length a = true
    · have hin' : inRange target (w :: source).length a = true := by
        rw [inRange_iff, List.length_cons] at *
        omega
      have hindex : a - target = a - (target + 1) + 1 := by
        rw [inRange_iff] at hin
        omega
      rw [memcpy, memcpy, if_pos hin, if_pos hin', hindex, List.getElem?_cons_succ,
        Function.update_of_ne ha]
    · have hout' : inRange target (w :: source).length a = false := by
        rw [Bool.eq_false_iff, Ne, inRange_iff, List.length_cons]
        rw [inRange_iff] at hin
        omega
      rw [memcpy_outside _ _ _ (by simpa using hin), memcpy_outside _ _ _ hout',
        Function.update_of_ne ha]

theorem storeWords_run (k : Code (Region W) R) (tx : Tx) (target : ℕ) (source : List W)
    (r : Region W) : (storeWords k target source).run r = k.run (tmWrite r tx source target) := by
  induction source generalizing target r with
  | nil =>
    have hsame : memcpy r.heap.word target ([] : List W) = r.heap.word := by
      funext a
      exact memcpy_outside _ _ _ (Calls.not_inRange_zero target a)
    rw [storeWords, tmWrite, hsame]
  | cons w source ih =>
    rw [storeWords, Code.run_store, ih]
    simp only [tmWrite, memcpy_cons]

namespace Program

variable [Zero W]

theorem code_run (A : Allocator W) (tx : Tx) (p : Program W R) (r : Region W) :
    (p.code A tx).run r = p.run A tx r := by
  induction p generalizing r with
  | done => rfl
  | read source size next ih =>
    rw [code, loadWords_run, ih, run]
    rfl
  | write source target next ih => rw [code, storeWords_run _ tx, ih, run]
  | alloc size next ih => exact ih _ _
  | free segment next ih => exact ih _

/-- The calls do not look at the lock. -/
theorem run_withLock (A : Allocator W) (tx : Tx) (p : Program W R) (r : Region W)
    (lock : ReferenceMemory.Lock) : p.run A tx { r with lock } =
      ((p.run A tx r).1, { (p.run A tx r).2 with lock }) := by
  induction p generalizing r with
  | done => rfl
  | read source size next ih => exact ih _ r
  | write source target next ih => exact ih (tmWrite r tx source target)
  | alloc size next ih => exact ih _ (tmAlloc A r tx size).2
  | free segment next ih => exact ih (tmFree A r tx segment)

theorem run_lock (A : Allocator W) (tx : Tx) (p : Program W R) (r : Region W) :
    (p.run A tx r).2.lock = r.lock := by
  have h := congrArg (fun x => x.2.lock) (run_withLock A tx p r r.lock)
  exact h

theorem Reads.quiet {A : Allocator W} {tx : Tx} {p : Program W R} (h : p.Reads) :
    (p.code A tx).Quiet := by
  induction p with
  | done => trivial
  | read source size next ih => exact loadWords_quiet (fun target => ih target (h target)) _ _
  | write | alloc | free => exact h.elim

end Program

/-! ### Transactions -/

/-- A transaction of a client; one that is declared read-only only reads. -/
structure Job (W R : Type*) where
  isRo : Bool
  program : Program W R
  reads : isRo = true → program.Reads

/-- What `tm_begin` returns. -/
def handle (isRo : Bool) : Tx := if isRo then readOnlyRefTx else readWriteTx

variable [Zero W]

abbrev transactions (W R : Type*) [Zero W] (A : Allocator W) : Sections (Region W) R where
  Op := Job W R
  mode job := if job.isRo then .shared else .exclusive
  code job := job.program.code A (handle job.isRo)
  quiet job h := by
    cases hro : job.isRo with
    | true => exact (job.reads hro).quiet
    | false => simp [hro] at h

/-- A transaction with nobody else about. -/
def transaction (A : Allocator W) (job : Job W R) (r : Region W) : Option (R × Region W) :=
  (tmBegin r job.isRo).map fun begun =>
    let ran := job.program.run A begun.1 begun.2
    (ran.1, tmEnd ran.2 begun.1)

/-- Transactions one after the other, with what each is answered. -/
def serialRun {T : Type*} (A : Allocator W) :
    List (T × Job W R) → Region W → Option (List (T × R) × Region W)
  | [], r => some ([], r)
  | x :: jobs, r =>
    (transaction A x.2 r).bind fun ran =>
      (serialRun A jobs ran.2).map fun rest => ((x.1, ran.1) :: rest.1, rest.2)

omit [Zero W] in
theorem tmEnd_eq (r : Region W) (tx : Tx) : tmEnd r tx = { r with lock := unlock r.lock } := by
  unfold tmEnd
  split_ifs <;> rfl

/-- Between two transactions the lock is free. -/
theorem transaction_eq (A : Allocator W) (job : Job W R) {r : Region W} (hr : r.lock = lockInit) :
    transaction A job r = some (job.program.run A (handle job.isRo) r) := by
  have hbegin : ∃ lock : ReferenceMemory.Lock, unlock lock = lockInit ∧
      tmBegin r job.isRo = some (handle job.isRo, { r with lock }) := by
    cases job.isRo with
    | true =>
      refine ⟨⟨1, false⟩, rfl, ?_⟩
      simp [tmBegin, lockAcquireShared, hr, lockInit, handle]
    | false =>
      refine ⟨⟨0, true⟩, rfl, ?_⟩
      simp [tmBegin, lockAcquire, hr, lockInit, handle]
  obtain ⟨lock, hfree, hbegin⟩ := hbegin
  have hkept := (Program.run_lock A (handle job.isRo) job.program r).trans hr
  rw [transaction, hbegin, Option.map_some, Program.run_withLock]
  simp only [tmEnd_eq, hfree]
  rw [← hkept]

theorem serialRun_eq {T : Type*} [DecidableEq T] (A : Allocator W) (jobs : List (T × Job W R))
    {r : Region W} (hr : r.lock = lockInit) : ∃ answers,
      serialRun A jobs r = some (answers, outcome (transactions W R A) jobs r) ∧
        ∀ t, (answers.filter fun x => x.1 = t).map Prod.snd =
          replies (transactions W R A) jobs r t := by
  induction jobs generalizing r with
  | nil => exact ⟨[], rfl, fun _ => rfl⟩
  | cons x jobs ih =>
    have hrun := x.2.program.code_run A (handle x.2.isRo) r
    have hlock : (x.2.program.run A (handle x.2.isRo) r).2.lock = lockInit :=
      (Program.run_lock _ _ _ _).trans hr
    obtain ⟨answers, hserial, hreplies⟩ := ih hlock
    refine ⟨(x.1, (x.2.program.run A (handle x.2.isRo) r).1) :: answers, ?_, fun t => ?_⟩
    · rw [serialRun, transaction_eq A x.2 hr, Option.bind_some, hserial, outcome, hrun]
      rfl
    · rw [replies, hrun, ← hreplies]
      by_cases ht : x.1 = t
      · simp [ht]
      · simp [ht]

variable {T : Type*} [DecidableEq T] [Fintype T]

/-- Whatever lock is chosen, transactions that run concurrently, word by word, get the answers
of the same transactions run one after the other, in the order in which the lock was granted;
with the ticket lock that is the order in which they asked for it. -/
theorem reference_serial (hT : Fintype.card T ≤ 2 ^ 64) (choice : LockChoice) (A : Allocator W)
    (contents : ℕ → W) (size align : ℕ) {s : State choice.lock (transactions W R A) T}
    (h : Reachable (system choice.lock (transactions W R A) T (tmCreate A contents size align))
      Unrestricted s) :
    ∃ answers region,
      serialRun A s.order (tmCreate A contents size align) = some (answers, region) ∧
      (∀ t, (answers.filter fun x => x.1 = t).map Prod.snd = s.answered t ++ s.due t) ∧
      ((∀ t, s.lock.phase t ≠ .holding .exclusive) → s.datum = region) ∧
      (choice = .ticket → s.order.map Prod.fst <+: s.lock.asked) := by
  obtain ⟨excludes, -, fifo⟩ := locks_exclude hT choice
  have serial := reachable_serial excludes h
  obtain ⟨answers, hserial, hreplies⟩ := serialRun_eq A s.order
    (show (tmCreate A contents size align).lock = lockInit from rfl)
  refine ⟨answers, _, hserial, fun t => ?_, serial.settled, fun hc => ?_⟩
  · rw [hreplies t]
    exact serial.answers t
  · rw [order_granted h]
    exact fifo hc _ (lock_reachable h)

def fill : Job ℕ (List ℕ) where
  isRo := false
  program := .read 0 2 fun _ => .write [5, 6] 0 <| .alloc 1 fun segment =>
    .write [9] segment <| .read segment 1 .done
  reads h := by cases h

def look : Job ℕ (List ℕ) where
  isRo := true
  program := .read 0 2 .done
  reads _ _ := trivial

/-- The reader is inside when the writer asks, and asks again while the writer writes. -/
def turns : List (Event Bool (Job ℕ (List ℕ))) :=
  [.call false look, .step false true, .step false true, .call true fill, .step true true] ++
    List.replicate 2 (.step false true) ++ List.replicate 4 (.step true true) ++
    [.call false look, .step false true] ++ List.replicate 5 (.step true true) ++
    List.replicate 4 (.step false true)
def turned : State LockChoice.rw.lock (transactions ℕ (List ℕ) ReferenceAgreement.bump) Bool :=
  let start := initial LockChoice.rw.lock (transactions ℕ (List ℕ) ReferenceAgreement.bump) Bool
    (tmCreate ReferenceAgreement.bump (fun a => a) 2 8)
  (run (system LockChoice.rw.lock (transactions ℕ (List ℕ) ReferenceAgreement.bump) Bool
    (tmCreate ReferenceAgreement.bump (fun a => a) 2 8)) start turns).getD start

theorem reference_serial_turns : ∃ answers region,
    serialRun ReferenceAgreement.bump turned.order
      (tmCreate ReferenceAgreement.bump (fun a => a) 2 8) = some (answers, region) ∧
    (answers.filter fun x => x.1 = false).map Prod.snd = [[0, 0], [5, 6]] ∧
    (answers.filter fun x => x.1 = true).map Prod.snd = [[9]] ∧ turned.datum = region := by
  have h : Reachable (system LockChoice.rw.lock (transactions ℕ (List ℕ) ReferenceAgreement.bump)
      Bool (tmCreate ReferenceAgreement.bump (fun a => a) 2 8)) Unrestricted turned :=
    Reachable.run (.init rfl) turns (by decide) rfl
  obtain ⟨answers, region, hserial, hreplies, hsettled, -⟩ :=
    reference_serial (by decide) .rw ReferenceAgreement.bump (fun a => a) 2 8 h
  refine ⟨answers, region, hserial, (hreplies false).trans rfl, (hreplies true).trans rfl,
    hsettled fun t ht => ?_⟩
  cases t <;> cases ht

end ReferenceTransactions
