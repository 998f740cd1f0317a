import TransactionalMemory.AbortAtomicity
import TransactionalMemory.OpacityOfReads
import TransactionalMemory.Serializability

/-! # The calls answered in a run at lock granularity

The log holds the calls that have returned, with their answers, and the ends of the
transactions, each in the order in which its caller sees them. No step reads it. -/
namespace AnsweredCalls

open TransitionSystem
open BatcherState
open ControlWord
open RegionState
open LockLevel
open CallLog
open PlainMemory
open Serializability

variable {W : Type*}

structure State (W : Type*) extends PendingCalls.State W where
  log : Log W
  closed : List (Log W)

def initial [Zero W] (size : ℕ) : State W := ⟨PendingCalls.initial size, [], []⟩

/-- What a return adds to the log. A failed `posix_memalign` adds nothing. -/
def entry : Call W → Return W → Option (Entry W)
  | .read g k _, .read _ _ target => some (.read g k target)
  | .write g k src, .wrote => some (.write g k src)
  | .free g, .freed => some (.free g)
  | .alloc size _, .allocated g => some (.alloc g size)
  | _, _ => none

/-- What the next step of `tx` answers to its caller. -/
def answered (s : State W) (tx : Tx) : Option (Entry W) :=
  match s.lock.pc tx with
  | .returning ret => (s.pending tx).bind fun c => entry c ret
  | .leaveFailed _ => some .abort
  | .ending => some .commit
  | _ => none

def closes (s : State W) (tx : Tx) : Bool :=
  match s.lock.pc tx with
  | .leaveFailed _ | .ending => lastToLeave s.lock.region.batcher
  | _ => false

def note (tx : Tx) (e : Option (Entry W)) : Log W := (e.map fun e => (tx, e)).toList

def State.advance (s : State W) (tx : Tx) (t : LockLevel.State W) : State W :=
  let log := s.log ++ note tx (answered s tx)
  if closes s tx then { s with lock := t, log := [], closed := s.closed ++ [log] }
  else { s with lock := t, log }

def State.after (s : State W) (t : LockLevel.State W) : Event W → State W
  | .begin _ => { s with lock := t }
  | .call tx c => { s with lock := t, pending := Function.update s.pending tx (some c) }
  | .advance tx => s.advance tx t

def step [Zero W] (s : State W) (e : Event W) : Option (State W) :=
  (LockLevel.step s.lock e).map fun t => s.after t e

abbrev system (W : Type*) [Zero W] (size : ℕ) : System (State W) (Event W) :=
  ⟨fun s => s = initial size, step⟩

variable [DecidableEq W]

/-- The segments that a committed transaction of an earlier epoch freed. -/
def freedBefore (s : State W) : List SegId := s.closed.flatMap committedFrees

/-- A call names no segment that an earlier epoch freed. -/
def Standing (s : State W) : Event W → Prop
  | .call _ (.read g ..) | .call _ (.write g ..) | .call _ (.free g) => g ∉ freedBefore s
  | _ => True

/-- What the callers promise, in runs where no rollback overlooks a segment. -/
def Client (s : State W) (e : Event W) : Prop :=
  Disciplined s.lock e ∧ AbortAtomicity.Linked s.lock e ∧ Standing s e

/-- The read copies of the segments older than the epoch. -/
def committed (s : State W) : Memory W := fun g =>
  if g ∈ s.lock.region.live ∧ g ∉ freedBefore s ∧ s.lock.hist.allocBy g = none then
    some ⟨(s.lock.region.seg g).size, (s.lock.region.seg g).read, false⟩
  else none

instance (s : State W) : ∀ e : Event W, Decidable (Standing s e)
  | .begin _ | .advance _ | .call _ (.alloc ..) | .call _ .finish => isTrue trivial
  | .call _ (.read ..) | .call _ (.write ..) | .call _ (.free _) =>
    inferInstanceAs (Decidable (_ ∉ _))

instance (s : State W) (e : Event W) : Decidable (Client s e) :=
  inferInstanceAs (Decidable (_ ∧ _ ∧ _))

/-! ### The run without its log -/

section projection

variable {s t : State W} {tx : Tx} {e : Event W}

omit [DecidableEq W] in
@[simp] theorem after_lock (s : State W) (t : LockLevel.State W) (e : Event W) :
    (s.after t e).lock = t := by
  cases e with
  | begin | call => rfl
  | advance tx =>
    simp only [State.after, State.advance]
    split_ifs <;> rfl

/-- Everything that is known of the program in these runs. -/
structure Known [Zero W] (s : LockLevel.State W) : Prop where
  invariant : Invariant s
  origins : Origins s
  reads : OpacityOfReads.Reads s
  rollbacks : AbortAtomicity.Rollbacks s

variable [Zero W]

theorem lock_reachable {size : ℕ} (h : Reachable (system W size) Client s) :
    Reachable (LockLevel.system W size)
      (fun s e => Disciplined s e ∧ AbortAtomicity.Linked s e) s.lock := by
  refine h.project (fun s => s.lock) ?_ fun s e t hc ht => ?_
  · rintro s rfl
    rfl
  · obtain ⟨t', ht', rfl⟩ := Option.map_eq_some_iff.mp ht
    exact ⟨e, ⟨hc.1, hc.2.1⟩, by rw [after_lock]; exact ht'⟩

omit [DecidableEq W] in
theorem reachable_origins {size : ℕ} {s : LockLevel.State W}
    (h : Reachable (LockLevel.system W size) Disciplined s) : Origins s := by
  refine reachable_with (fun _ _ hc => hc.1) (initial_origins size) ?_ ?_ ?_ h
  · exact fun _ _ _ hi ho _ hm => ho.micro hm hi
  · exact fun _ _ _ _ _ _ ho hr hb => ho.boundary hr hb
  · exact fun _ _ _ hi _ hc => .close hc hi

theorem reachable_known {size : ℕ} (h : Reachable (system W size) Client s) : Known s.lock := by
  have hr := lock_reachable h
  have hd := hr.mono fun _ _ hc => hc.1
  have ha : Reachable (LockLevel.system W size) AbortAtomicity.Contract s.lock :=
    hr.mono fun _ _ hc => ⟨hc.1.1, hc.2⟩
  exact ⟨reachable_invariant (hd.mono fun _ _ hc => hc.1), reachable_origins hd,
    OpacityOfReads.reachable_reads hd, AbortAtomicity.reachable_rollbacks ha⟩

end projection

end AnsweredCalls
