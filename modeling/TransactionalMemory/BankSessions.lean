import TransactionalMemory.BankRefinement
import TransactionalMemory.PermittedJobs

/-! # Sessions of the bank

Workers that call the closures of the bank, each what its results so far make it call, and
what is shown of every phase of the workload. -/
namespace BankSessions

open TransitionSystem
open AtomicCalls
open CommittedPointers
open Serializability
open AtomicHistories
open Closures
open ClosureRuns hiding Event Contract system step
open AtomicClosures
open PermittedJobs
open ClosureCode
open BankClosures

abbrev BankFrame := Frame (Word ℤ) Result Captured Round

/-- What an attempt that fails leaves as it is: all but the indices of `short_tx`. -/
def kind : Captured → Captured
  | .short .. => .short 0 0
  | captured => captured

def roundKind : Round → Captured
  | .fill | .fillAccounts _ => .fill
  | .filled => .filled
  | .long .. | .longAccounts .. => .long
  | .alloc trigger .. => .alloc trigger
  | .short .. => .short 0 0
  | .setCounter initCounter => .setCounter initCounter
  | .counterIs value => .counterIs value
  | .readCounter => .readCounter
  | .decrement last => .decrement last

def job (k : BankWorkload.Constants) (captured : Captured) : Job BankFrame :=
  ⟨captured.isRo, (source k).begin captured⟩

/-- A worker calls a closure, or goes on with the one it has called. -/
inductive Event (ι : Type*) where
  | call (w : ι) (captured : Captured)
  | turn (w : ι) (ok : Bool)

variable {ι A : Type*} [DecidableEq ι] (k : BankWorkload.Constants)

abbrev BankSession (ι : Type*) := Session ι (Word ℤ) Result BankFrame

/-- The closures that a worker has run, with their results. -/
def outcomes (x : BankSession ι) (w : ι) : List (Captured × Result) :=
  (x.results w).map fun z => (z.1.start.captured, z.2)

def step (x : BankSession ι) : Event ι → Option (BankSession ι)
  | .call w captured => ClosureRuns.step (source k).closure x (.submit w (job k captured))
  | .turn w ok => ClosureRuns.step (source k).closure x (.turn w ok)

abbrev system (ι : Type*) [DecidableEq ι] (tm : State (Word ℤ)) :
    System (BankSession ι) (Event ι) :=
  ⟨fun x => x = initial tm, step k⟩

/-- A worker calls what `asks` allows after its outcomes so far. -/
def Contract (asks : ι → List (Captured × Result) → Captured → Prop) (x : BankSession ι) :
    Event ι → Prop
  | .call w captured => asks w (outcomes x w) captured
  | .turn w _ =>
    match x.thread w with
    | .pending _ => x.tm.transCounter.toNat < 2 ^ 31
    | _ => True

instance (asks : ι → List (Captured × Result) → Captured → Prop)
    [∀ w l captured, Decidable (asks w l captured)] (x : BankSession ι) :
    ∀ e, Decidable (Contract asks x e)
  | .call w captured => inferInstanceAs (Decidable (asks w (outcomes x w) captured))
  | .turn w ok => by
    simp only [Contract]
    split <;> infer_instance

/-- One phase of the workload on an abstract state: how that lies in memory, when a closure may
run, and what it does. -/
structure Phase (A : Type*) where
  rep : A → PlainMemory.Memory (Word ℤ) → Prop
  ready : A → Captured → Prop
  does : A → Captured → Result → A → Prop

def Phase.next (F : Phase A) (a : A) (captured : Captured) (r : Result) (a' : A) : Prop :=
  F.ready a captured ∧ F.does a captured r a'

structure Phase.Correct (F : Phase A) (a₀ : A)
    (asks : ι → List (Captured × Result) → Captured → Prop) : Prop where
  endEpoch : ∀ a m, F.rep a m → F.rep a (PlainMemory.endEpoch m)
  kinds : ∀ a c c', kind c = kind c' → F.ready a c → F.ready a c'
  asksKinds : ∀ w l c c', kind c = kind c' → asks w l c → asks w l c'
  stable : ∀ a c c' r a', F.ready a c → F.ready a c' → F.does a c' r a' → F.ready a' c
  writes : ∀ a m c, F.rep a m → F.ready a c → c.isRo = false →
    Runs (source k) false (fun r m' => ∃ a', F.does a c r a' ∧ F.rep a' m') c
      (.goto (start c)) m
  reads : ∀ a m c, F.rep a m → F.ready a c → c.isRo = true →
    Runs (source k) true (fun r _ => F.does a c r a) c (.goto (start c)) m
  asked : ∀ (hist : List (ι × Captured × Result)) a w c, Ran F.next a₀ hist a →
    asks w (ofWorker w hist) c → F.ready a c

/-- All outcomes together are those of the closures one at a time. -/
structure Phase.Accounted (F : Phase A) (a₀ : A)
    (asks : ι → List (Captured × Result) → Captured → Prop) (x : BankSession ι)
    (hist : List (ι × Captured × Result)) (a : A) : Prop where
  ran : Ran F.next a₀ hist a
  outcomes : ∀ w, outcomes x w = ofWorker w hist
  asked : ∀ w, Permitted (asks w) (ofWorker w hist)
  idle : (∀ w, x.thread w = .idle) → x.tm.active = ∅ ∧ F.rep a (committed x.tm)

variable {k} {captured captured' : Captured} {c : BankFrame} {x : BankSession ι}
variable {es : List (CallLog.Entry (Word ℤ))} {F : Phase A} {a₀ a : A} {size : ℕ}
variable {asks : ι → List (Captured × Result) → Captured → Prop} {tm : State (Word ℤ)}

section Stays

variable {g : RegionState.SegId} {code : BankCode} {n : ℕ}

theorem stays_allocNext {next : RegionState.SegId → BankCode}
    (h : ∀ g, (next g).Stays kind roundKind captured) :
    (allocNext k g next).Stays kind roundKind captured := by
  have halloc : (allocAfter k g next).Stays kind roundKind captured := by
    rintro (_ | fresh)
    · trivial
    · exact h fresh
  rw [allocNext]
  split_ifs
  · intro w
    dsimp only
    split_ifs
    · trivial
    · exact halloc
  · exact halloc

theorem stays_freeNext (h : code.Stays kind roundKind captured) :
    (freeNext k g code).Stays kind roundKind captured := by
  have hfree : (freeAfter g code).Stays kind roundKind captured := by
    intro w
    dsimp only
    cases asPointer w with
    | none => trivial
    | some target => exact h
  rw [freeNext]
  split_ifs
  · intro w
    dsimp only
    split_ifs
    · trivial
    · exact hfree
  · exact hfree

theorem stays_deallocate (prev : Option RegionState.SegId) :
    (deallocate k prev g n).Stays kind roundKind captured := by
  intro parity balance
  dsimp only
  by_cases hn : 0 < n
  · rw [if_pos hn]
    trivial
  · rw [if_neg hn]
    cases prev with
    | none => trivial
    | some prev => exact stays_freeNext fun _ => trivial

theorem stays_allocate : (allocate k g n).Stays kind roundKind captured := by
  rw [allocate]
  split_ifs
  · trivial
  · exact stays_allocNext fun _ => trivial

theorem stays_transfer (sender recver : RegionState.SegId × ℕ) :
    (transfer sender recver).Stays kind roundKind captured := by
  intro balance
  dsimp only
  split_ifs
  · exact fun _ => trivial
  · trivial

end Stays

/-- A round goes to rounds of the same closure. -/
theorem sorted : Sorted (source k) kind roundKind where
  start captured := by cases captured <;> rfl
  body l := by
    cases l with
    | fill => exact rfl
    | fillAccounts i =>
      change (fillAccountsRound k i).Stays _ _ _
      rw [fillAccountsRound]
      split_ifs <;> trivial
    | filled => exact fun _ => trivial
    | long start count sum => exact fun _ _ => rfl
    | longAccounts start segmentCount i count sum =>
      change (longAccountsRound k start segmentCount i count sum).Stays _ _ _
      rw [longAccountsRound]
      split_ifs
      · intro w
        dsimp only
        split_ifs <;> trivial
      · intro w
        dsimp only
        split <;> trivial
    | alloc trigger count prev start =>
      intro w v
      dsimp only
      split
      · split_ifs
        · split
          · trivial
          · exact stays_deallocate prev
        · exact stays_allocate
      · rfl
    | short send recv start =>
      refine fun w => ⟨rfl, ?_⟩
      split
      · exact stays_transfer _ _
      · intro v
        dsimp only
        split <;> trivial
    | setCounter initCounter => trivial
    | counterIs value => exact fun _ => trivial
    | readCounter => exact fun _ => trivial
    | decrement last =>
      intro w
      dsimp only
      split_ifs <;> trivial

theorem kind_eq (h : kind captured = kind captured') :
    captured = captured' ∨
      ∃ s r s' r', captured = .short s r ∧ captured' = .short s' r' := by
  cases captured with
  | short s r =>
    cases captured' with
    | short s' r' => exact .inr ⟨s, r, s', r', rfl, rfl⟩
    | _ => cases h
  | _ =>
    cases captured' with
    | short s' r' => cases h
    | _ => exact .inl h

theorem isRo_kind (h : kind captured = kind captured') : captured.isRo = captured'.isRo := by
  obtain rfl | ⟨s, r, s', r', rfl, rfl⟩ := kind_eq h <;> rfl

theorem retried (ht : Trace (source k).closure (job k captured).start es c) :
    { job k captured with start := (source k).closure.again c } = job k c.captured ∧
      kind captured = kind c.captured := by
  have hkind : kind c.captured = kind captured :=
    (sorted.trace (sorted.begin captured) ht).1
  refine ⟨?_, hkind.symm⟩
  rw [job, job, isRo_kind hkind]
  rfl

/-- What the outcomes allow, as a permission for jobs. -/
def permit (k : BankWorkload.Constants) (asks : ι → List (Captured × Result) → Captured → Prop)
    (w : ι) (l : List (Job BankFrame × Result)) (j : Job BankFrame) : Prop :=
  ∃ captured, j = job k captured ∧
    asks w (l.map fun z => (z.1.start.captured, z.2)) captured

/-- The phase as a machine for the jobs. -/
def Phase.spec (k : BankWorkload.Constants) (F : Phase A) : Spec (Word ℤ) Result BankFrame A where
  rep := F.rep
  pre a j := ∃ captured, j = job k captured ∧ F.ready a captured
  next a j r a' := ∃ captured, j = job k captured ∧ F.next a captured r a'

/-- A history of jobs as one of closures. -/
def ofJobs (hist : List (ι × Job BankFrame × Result)) : List (ι × Captured × Result) :=
  hist.map fun z => (z.1, z.2.1.start.captured, z.2.2)

theorem ofWorker_ofJobs (w : ι) (hist : List (ι × Job BankFrame × Result)) :
    ofWorker w (ofJobs hist) =
      (ofWorker w hist).map fun z => (z.1.start.captured, z.2) := by
  induction hist with
  | nil => rfl
  | cons z hist ih =>
    obtain ⟨v, j, r⟩ := z
    rw [ofJobs, List.map_cons, ← ofJobs, ofWorker_cons, ofWorker_cons, ih]
    split_ifs <;> rfl

omit [DecidableEq ι] in
theorem ran_ofJobs {hist : List (ι × Job BankFrame × Result)} (h : Ran (F.spec k).next a₀ hist a) :
    Ran F.next a₀ (ofJobs hist) a := by
  induction h with
  | nil => exact .nil
  | @snoc hist b z a' _ hn ih =>
    obtain ⟨w, j, r⟩ := z
    obtain ⟨captured, rfl, hn⟩ := hn
    rw [ofJobs, List.map_append, ← ofJobs]
    exact ih.snoc hn

theorem Phase.Correct.implements (h : F.Correct k a₀ asks) :
    Implements ι (source k).closure (F.spec k) a₀ (permit k asks) where
  endEpoch := h.endEpoch
  stable := by
    rintro a j j' r a' ⟨c, rfl, hc⟩ ⟨c', -, hc', hd⟩
    exact ⟨c, rfl, h.stable a c c' r a' hc hc' hd⟩
  writes := by
    rintro a m j hrep ⟨c, rfl, hc⟩ hro
    refine (h.writes a m c hrep hc hro).mono ?_
    rintro r m' ⟨a', hd, hrep'⟩
    exact ⟨a', ⟨c, rfl, hc, hd⟩, hrep'⟩
  reads := by
    rintro a m j hrep ⟨c, rfl, hc⟩ hro
    exact (h.reads a m c hrep hc hro).mono fun r m' hd => ⟨c, rfl, hc, hd⟩
  retried := by
    rintro a m j es c m' hrep ⟨captured, rfl, hc⟩ ht he
    obtain ⟨heq, hkind⟩ := retried ht
    exact ⟨c.captured, heq, h.kinds a _ _ hkind hc⟩
  submit := by
    rintro hist a w j hran ⟨captured, rfl, hasks⟩
    refine ⟨captured, rfl, h.asked (ofJobs hist) a w captured (ran_ofJobs hran) ?_⟩
    rwa [ofWorker_ofJobs]

theorem reachable_runs (h : Reachable (system k ι tm) (Contract asks) x) :
    Reachable (ClosureRuns.system ι (source k).closure tm)
      (ClosureRuns.Contract (permit k asks)) x := by
  induction h with
  | init hx => exact .init hx
  | @step x e t _ hc ht ih =>
    cases e with
    | call w captured => exact ih.next (.submit w (job k captured)) ht ⟨captured, rfl, hc⟩
    | turn w ok =>
      refine ih.next (.turn w ok) ht ?_
      simp only [Contract, ClosureRuns.Contract] at hc ⊢
      split at hc <;> simp_all

theorem Phase.Correct.accounted (h : F.Correct k a₀ asks)
    (hr : Reachable (AtomicCalls.system (Word ℤ) size) Client tm) (hidle : tm.active = ∅)
    (hrep : F.rep a₀ (committed tm)) (hx : Reachable (system k ι tm) (Contract asks) x) :
    Reachable (AtomicCalls.system (Word ℤ) size) Client x.tm ∧
      ∃ hist a, F.Accounted a₀ asks x hist a := by
  obtain ⟨y, hy⟩ := reachable_told h.implements hr hidle hrep (reachable_runs hx)
  have hretry : ∀ w l j es c, permit k asks w l j → Trace (source k).closure j.start es c →
      permit k asks w l { j with start := (source k).closure.again c } := by
    rintro w l j es c ⟨captured, rfl, hasks⟩ ht
    obtain ⟨heq, hkind⟩ := retried ht
    exact ⟨c.captured, heq, h.asksKinds w _ _ _ hkind hasks⟩
  have hlawful := reachable_lawful hretry (reachable_runs hx)
  have hatomic := hy.atomic
  refine ⟨hy.reach, ofJobs y.jobs, y.cur, ran_ofJobs hatomic.ran, fun w => ?_, fun w => ?_,
    hatomic.idle⟩
  · rw [ofWorker_ofJobs, ← hatomic.results]
    rfl
  · rw [ofWorker_ofJobs, ← hatomic.results]
    rintro l₁ z l₂ heq
    obtain ⟨l₁, l₂, hl, rfl, hz⟩ := List.map_eq_append_iff.mp heq
    obtain ⟨z, l₂, rfl, rfl, -⟩ := List.map_eq_cons_iff.mp hz
    obtain ⟨captured, hj, hasks⟩ := hlawful.results w l₁ z l₂ hl
    rw [hj]
    exact hasks

end BankSessions
