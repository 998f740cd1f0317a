import TransactionalMemory.AtomicHistories
import TransactionalMemory.Closures
import TransactionalMemory.CommitOrder
import TransactionalMemory.RealTimeOrder

/-! # Closures on the transactional memory

Workers that hand closures to `transactional`, one after the other: each call of a closure is
a step of the library, an attempt that fails starts again, and the steps of the workers come
in any order. -/
namespace ClosureRuns

open TransitionSystem
open ControlWord
open RegionState
open Calls
open CallLog
open CallOutcomes
open AtomicCalls
open CommutingSteps
open PlainMemory
open SerialViews
open SerialRuns
open Serializability
open EpochTurns
open RealTimeOrder
open AtomicHistories
open Closures
open CommitOrder

variable {ι W R C A : Type*}

/-- A call of `transactional`. -/
structure Job (C : Type*) where
  isRo : Bool
  start : C
  deriving DecidableEq

/-- A worker is `inside` from `tm_begin` on, also while it waits in there. -/
inductive Thread (C : Type*) where
  | idle
  | pending (j : Job C)
  | inside (tx : Tx) (j : Job C) (c : C)

instance : (th : Thread C) → Decidable (th = .idle)
  | .idle => isTrue rfl
  | .pending _ | .inside .. => isFalse nofun

structure Session (ι W R C : Type*) where
  tm : State W
  thread : ι → Thread C
  results : ι → List (Job C × R)

/-- `ok` is the outcome of `posix_memalign` if the turn comes to it. -/
inductive Event (ι C : Type*) where
  | submit (w : ι) (j : Job C)
  | turn (w : ι) (ok : Bool)

/-- The call of the library that a closure asks for. -/
def asked (tx : Tx) (ok : Bool) : Call W R C → AtomicCalls.Event W
  | .read g k n _ => .read tx g k n
  | .write g k src _ => .write tx g k src
  | .alloc size _ => .alloc tx size ok
  | .free g _ => .free tx g
  | .ret _ => .finish tx

/-- Where the closure goes on; `none` is a call that returned false. -/
def answer (r : Region W) (tx : Tx) (ok : Bool) : Call W R C → Option C
  | .read g k n next => (tmRead r tx g k n).1.map next
  | .write g k src next => if (tmWrite r tx g k src).1 then some next else none
  | .alloc _ next => some (next (if ok then some r.nextSeg else none))
  | .free _ next => some next
  | .ret _ => none

variable [DecidableEq ι]

def Session.put (x : Session ι W R C) (w : ι) (tm : State W) (th : Thread C) :
    Session ι W R C :=
  { x with tm, thread := Function.update x.thread w th }

def Session.finish (x : Session ι W R C) (w : ι) (tm : State W) (j : Job C) (value : R) :
    Session ι W R C :=
  { x.put w tm .idle with results := Function.update x.results w (x.results w ++ [(j, value)]) }

def Session.after (f : Closure W R C) (x : Session ι W R C) (w : ι) (ok : Bool) (tx : Tx)
    (j : Job C) (c : C) (tm : State W) : Session ι W R C :=
  match f.call c with
  | .ret value => x.finish w tm j value
  | call =>
    match answer x.tm.region tx ok call with
    | some c => x.put w tm (.inside tx j c)
    | none => x.put w tm (.pending { j with start := f.again c })

def step [Zero W] (f : Closure W R C) (x : Session ι W R C) :
    Event ι C → Option (Session ι W R C)
  | .submit w j =>
    match x.thread w with
    | .idle => some (x.put w x.tm (.pending j))
    | _ => none
  | .turn w ok =>
    match x.thread w with
    | .idle => none
    | .pending j =>
      (AtomicCalls.step x.tm (.begin j.isRo)).map fun tm =>
        x.put w tm (.inside (txId x.tm.transCounter j.isRo) j j.start)
    | .inside tx j c =>
      (AtomicCalls.step x.tm (asked tx ok (f.call c))).map (x.after f w ok tx j c)

def initial (tm : State W) : Session ι W R C := ⟨tm, fun _ => .idle, fun _ => []⟩

abbrev system [Zero W] (ι : Type*) [DecidableEq ι] (f : Closure W R C) (tm : State W) :
    System (Session ι W R C) (Event ι C) :=
  ⟨fun x => x = initial tm, step f⟩

/-- Workers submit what their results so far permit, and fewer than `2 ^ 31` attempts begin. -/
def Contract (permit : ι → List (Job C × R) → Job C → Prop) (x : Session ι W R C) :
    Event ι C → Prop
  | .submit w j => permit w (x.results w) j
  | .turn w _ =>
    match x.thread w with
    | .pending _ => x.tm.transCounter.toNat < 2 ^ 31
    | _ => True

instance (permit : ι → List (Job C × R) → Job C → Prop) [∀ w l j, Decidable (permit w l j)]
    (x : Session ι W R C) : ∀ e, Decidable (Contract permit x e)
  | .submit w j => inferInstanceAs (Decidable (permit w (x.results w) j))
  | .turn w ok => by
    simp only [Contract]
    split <;> infer_instance

/-- An abstract machine for the jobs: how its states lie in memory, what a job needs, and what
it does. -/
structure Spec (W R C A : Type*) where
  rep : A → Memory W → Prop
  pre : A → Job C → Prop
  next : A → Job C → R → A → Prop

/-- Each job alone does what the machine does, and what it needs is never taken away. -/
structure Implements [DecidableEq W] [Zero W] (ι : Type*) [DecidableEq ι] (f : Closure W R C)
    (P : Spec W R C A) (a₀ : A) (permit : ι → List (Job C × R) → Job C → Prop) : Prop where
  endEpoch : ∀ a m, P.rep a m → P.rep a (endEpoch m)
  stable : ∀ a j j' r a', P.pre a j → P.next a j' r a' → P.pre a' j
  writes : ∀ a m j, P.rep a m → P.pre a j → j.isRo = false →
    Ensures f false (fun r m' => ∃ a', P.next a j r a' ∧ P.rep a' m') j.start m
  reads : ∀ a m j, P.rep a m → P.pre a j → j.isRo = true →
    Ensures f true (fun r _ => P.next a j r a) j.start m
  retried : ∀ a m j es c m', P.rep a m → P.pre a j → Trace f j.start es c →
    es.foldlM exec m = some m' → P.pre a { j with start := f.again c }
  submit : ∀ (hist : List (ι × Job C × R)) a w j, Ran P.next a₀ hist a →
    permit w (ofWorker w hist) j → P.pre a j

end ClosureRuns
