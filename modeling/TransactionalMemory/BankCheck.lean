import Mathlib.Algebra.Order.BigOperators.Group.Finset
import TransactionalMemory.BankRuns

/-! # The phase `check` of the bank

Worker 0 stores a counter, all workers take one off it a hundred times each, and worker 0
looks for 0 at the end; the barrier separates the three parts. -/
namespace BankCheck

open TransitionSystem
open RegionState (SegId)
open AtomicCalls
open CommittedPointers
open Serializability
open AtomicHistories
open ClosureRuns hiding Event Contract system step
open ClosureCode
open BankClosures
open BankSessions
open BankWorkload (Constants)
open BankRuns

/-- The transactions of each worker in `check`. -/
def nbtxperwrk : ℕ := 100

/-! ## The counter -/

/-- The counter is the first word of the first segment. -/
def Counter (v : ℤ) (m : PlainMemory.Memory (Word ℤ)) : Prop :=
  ∃ b, m 0 = some b ∧ b.freed = false ∧ 1 ≤ b.size ∧ b.word 0 = .data v

def counterPhase : Phase ℤ where
  rep := Counter
  ready _ c :=
    match c with
    | .setCounter _ | .counterIs _ | .readCounter | .decrement _ => True
    | _ => False
  does v c r v' :=
    match c with
    | .setCounter initCounter => r = .void ∧ v' = initCounter
    | .counterIs value => r = .bool (decide (v = value)) ∧ v' = v
    | .readCounter => r = .size v ∧ v' = v
    | .decrement last =>
      if last < v then r = .bool false ∧ v' = v else r = .bool true ∧ v' = toSize (v - 1)
    | _ => False

/-- The loop of `check` on integers that do not wrap around: a decrement finds the counter
between 1 and what its worker has read. -/
def unwrapped (v : ℤ) : Captured → Result → ℤ → Prop
  | .readCounter, r, v' => r = .size v ∧ v' = v
  | .decrement last, r, v' => 1 ≤ v ∧ v ≤ last ∧ r = .bool true ∧ v' = v - 1
  | _, _, _ => False

/-! ## The parts of `check` -/

inductive Part where
  | first
  | loop
  | last
  deriving DecidableEq, Repr

/-- Where a worker is in its loop, in round `i`. -/
inductive Stage where
  | read (i : ℕ)
  | decrement (i : ℕ) (last : ℤ)
  | passed
  | failed
  deriving DecidableEq, Repr

def Stage.after : Stage → Captured × Result → Stage
  | .read i, (_, .size last) => .decrement i last
  | .decrement i _, (_, .bool true) => if i + 1 < nbtxperwrk then .read (i + 1) else .passed
  | .decrement .., (_, .bool false) => .failed
  | s, _ => s

/-- The counter is read, and then decremented with what was read. -/
def Stage.asks : Stage → Captured → Bool
  | .read _, .readCounter => true
  | .decrement _ last, .decrement value => value == last
  | _, _ => false

def stage (l : List (Captured × Result)) : Stage := l.foldl Stage.after (.read 0)

variable {nbworkers : ℕ} [NeZero nbworkers]

/-- The value that the counter starts with, as a `size_t`. -/
def initCounter (nbworkers : ℕ) : ℤ := toSize (nbtxperwrk * nbworkers)

/-- The calls of worker `uid` in a part, after its outcomes there. -/
def checkAsks : Part → Fin nbworkers → List (Captured × Result) → Captured → Prop
  | .first, uid, l, .setCounter v => uid = 0 ∧ l = [] ∧ v = initCounter nbworkers
  | .first, uid, l, .counterIs v => uid = 0 ∧ l.length = 1 ∧ v = initCounter nbworkers
  | .loop, _, l, c => (stage l).asks c = true
  | .last, uid, l, .counterIs v => uid = 0 ∧ l = [] ∧ v = 0
  | _, _, _, _ => False

instance (w : Fin nbworkers) (l : List (Captured × Result)) : ∀ p c, Decidable (checkAsks p w l c)
  | .first, .setCounter _ | .first, .counterIs _ | .last, .counterIs _ =>
    inferInstanceAs (Decidable (_ ∧ _ ∧ _))
  | .loop, c => inferInstanceAs (Decidable ((stage l).asks c = true))
  | .first, .fill | .first, .filled | .first, .long | .first, .alloc _ | .first, .short .. |
    .first, .readCounter | .first, .decrement _ | .last, .fill | .last, .filled | .last, .long |
    .last, .alloc _ | .last, .short .. | .last, .setCounter _ | .last, .readCounter |
    .last, .decrement _ => inferInstanceAs (Decidable False)

/-- What a worker returns from `check` in a part, or that it goes on, once it is done there. -/
def checkReturns : Part → Fin nbworkers → List (Captured × Result) → Option (Option String)
  | .first, uid, l =>
    if uid = 0 then
      match l with
      | [_, (_, .bool correct)] => some (if correct then none else some "Violated consistency")
      | _ => none
    else some none
  | .loop, _, l =>
    match stage l with
    | .passed => some none
    | .failed => some (some "Violated consistency, isolation or atomicity")
    | _ => none
  | .last, uid, l =>
    if uid = 0 then
      match l with
      | [(_, .bool correct)] => some (if correct then none else some "Violated consistency")
      | _ => none
    else some none

/-- The library at the start of a part, after parts in which no worker has returned. -/
inductive Checking (nbworkers : ℕ) [NeZero nbworkers] (k : Constants) (tm₀ : State (Word ℤ)) :
    Part → State (Word ℤ) → Prop where
  | first : Checking nbworkers k tm₀ .first tm₀
  | loop {x : BankSession (Fin nbworkers)} :
      Reachable (BankSessions.system k (Fin nbworkers) tm₀) (Contract (checkAsks .first)) x →
      (∀ w, x.thread w = .idle ∧ checkReturns .first w (outcomes x w) = some none) →
      Checking nbworkers k tm₀ .loop x.tm
  | last {tm} {x : BankSession (Fin nbworkers)} : Checking nbworkers k tm₀ .loop tm →
      Reachable (BankSessions.system k (Fin nbworkers) tm) (Contract (checkAsks .loop)) x →
      (∀ w, x.thread w = .idle ∧ checkReturns .loop w (outcomes x w) = some none) →
      Checking nbworkers k tm₀ .last x.tm

variable {k : Constants} {p : Part} {v v' v₀ : ℤ} {c : Captured} {r : Result}
variable {hist : List (Fin nbworkers × Captured × Result)}

theorem counterPhase_correct : counterPhase.Correct k v₀ (@checkAsks nbworkers _ p) where
  endEpoch v m h := by
    obtain ⟨b, hb, hkept, hsize, hword⟩ := h
    refine ⟨b, ?_, hkept, hsize, hword⟩
    rw [PlainMemory.endEpoch, hb]
    simp [Option.filter, hkept]
  kinds v c c' hkind h := by
    obtain rfl | ⟨s, r, s', r', rfl, rfl⟩ := kind_eq hkind <;> exact h
  asksKinds w l c c' hkind h := by
    obtain rfl | ⟨s, r, s', r', rfl, rfl⟩ := kind_eq hkind
    · exact h
    · cases p with
      | loop => cases hs : stage l <;> simp_all [checkAsks, Stage.asks]
      | _ => exact h
  stable v c c' r v' hc _ _ := hc
  writes v m c hrep hready hro := by
    obtain ⟨b, hb, hkept, hsize, hword⟩ := hrep
    cases c with
    | setCounter initCounter =>
      refine Runs.goto trivial (Runs.write rfl hb hsize (Runs.ret ?_))
      exact ⟨initCounter, ⟨rfl, rfl⟩, _, Function.update_self _ _ _, hkept, hsize, by simp⟩
    | decrement last =>
      refine Runs.goto trivial (Runs.read hb hsize ?_)
      rw [hword]
      by_cases hlt : last < v
      · rw [if_pos (show last < asBalance (.data v) from hlt)]
        refine Runs.ret ⟨v, ?_, b, hb, hkept, hsize, hword⟩
        simp [counterPhase, hlt]
      · rw [if_neg (show ¬last < asBalance (.data v) from hlt)]
        refine Runs.write rfl hb hsize (Runs.ret ⟨toSize (v - 1), ?_, _,
          Function.update_self _ _ _, hkept, hsize, ?_⟩)
        · simp [counterPhase, hlt]
        · simp [asBalance]
    | counterIs | readCounter => cases hro
    | _ => exact hready.elim
  reads v m c hrep hready hro := by
    obtain ⟨b, hb, hkept, hsize, hword⟩ := hrep
    cases c with
    | counterIs value =>
      refine Runs.goto trivial (Runs.read hb hsize (Runs.ret ?_))
      simp [counterPhase, hword, asBalance]
    | readCounter =>
      refine Runs.goto trivial (Runs.read hb hsize (Runs.ret ?_))
      simp [counterPhase, hword, asBalance]
    | setCounter | decrement => cases hro
    | _ => exact hready.elim
  asked hist v w c _ hasks := by
    cases p with
    | loop => cases hs : stage (ofWorker w hist) <;> cases c <;> simp_all [checkAsks, Stage.asks,
        counterPhase]
    | _ => cases c <;> trivial

/-! ## The first part -/

/-- Worker 0 stores the counter, and reads it. -/
theorem first_hist (h : Ran counterPhase.next v₀ hist v)
    (hp : ∀ w, Permitted (checkAsks .first w) (ofWorker w hist)) :
    hist = [] ∨ v = initCounter nbworkers ∧
      (hist = [(0, .setCounter (initCounter nbworkers), .void)] ∨
        hist = [(0, .setCounter (initCounter nbworkers), .void),
          (0, .counterIs (initCounter nbworkers), .bool true)]) := by
  refine h.lawful (Q := fun hist v => hist = [] ∨ v = initCounter nbworkers ∧
    (hist = [(0, .setCounter (initCounter nbworkers), .void)] ∨
      hist = [(0, .setCounter (initCounter nbworkers), .void),
        (0, .counterIs (initCounter nbworkers), .bool true)])) hp (.inl rfl) ?_
  rintro hist v ⟨w, c, r⟩ v' hQ hasks ⟨-, hdoes⟩
  cases c with
  | setCounter value =>
    obtain ⟨hw, hl, hvalue⟩ := hasks
    cases hw
    cases hvalue
    obtain ⟨hr, rfl⟩ := hdoes
    cases hr
    rcases hQ with rfl | ⟨-, rfl | rfl⟩
    · exact .inr ⟨rfl, .inl rfl⟩
    · simp [ofWorker_cons] at hl
    · simp [ofWorker_cons] at hl
  | counterIs value =>
    obtain ⟨hw, hl, hvalue⟩ := hasks
    cases hw
    cases hvalue
    obtain ⟨hr, rfl⟩ := hdoes
    rcases hQ with rfl | ⟨rfl, rfl | rfl⟩
    · simp at hl
    · cases hr
      exact .inr ⟨rfl, .inr (by simp)⟩
    · simp [ofWorker_cons] at hl
  | _ => exact hasks.elim

/-! ## The loop -/

/-- How often a worker still takes one off the counter. -/
def Stage.left : Stage → ℕ
  | .read i | .decrement i _ => nbtxperwrk - i
  | .passed | .failed => 0

def stages (hist : List (Fin nbworkers × Captured × Result)) (w : Fin nbworkers) : Stage :=
  stage (ofWorker w hist)

/-- The counter is what is left to take off it, and not above what a worker has read. -/
structure Tallied (s : Fin nbworkers → Stage) (v : ℤ) : Prop where
  sum : v = ∑ w, ((s w).left : ℤ)
  seen : ∀ w i last, s w = .decrement i last → v ≤ last
  fine : ∀ w, s w ≠ .failed
  round : ∀ w i, (s w = .read i ∨ ∃ last, s w = .decrement i last) → i < nbtxperwrk

omit [NeZero nbworkers] in
theorem stages_snoc (w : Fin nbworkers) (z : Captured × Result) :
    stages (hist ++ [(w, z)]) = Function.update (stages hist) w ((stages hist w).after z) := by
  funext u
  by_cases hu : u = w
  · subst u
    simp [stages, stage, ofWorker_cons]
  · simp [stages, ofWorker_cons, Ne.symm hu, Function.update_of_ne hu]

omit [NeZero nbworkers] in
theorem sum_left (s : Fin nbworkers → Stage) (w : Fin nbworkers) (t : Stage) :
    ∑ u, ((Function.update s w t u).left : ℤ) =
      (∑ u, ((s u).left : ℤ)) - (s w).left + t.left := by
  have hupdate : (fun u => ((Function.update s w t u).left : ℤ)) =
      Function.update (fun u => ((s u).left : ℤ)) w t.left := by
    funext u
    by_cases hu : u = w
    · subst u
      simp
    · simp [Function.update_of_ne hu]
  rw [hupdate, Finset.sum_update_of_mem (Finset.mem_univ w),
    Finset.sum_eq_add_sum_sdiff_singleton_of_mem (Finset.mem_univ w) fun u => ((s u).left : ℤ)]
  ring

variable {s : Fin nbworkers → Stage} {w : Fin nbworkers} {i : ℕ} {last : ℤ}

omit [NeZero nbworkers] in
theorem Tallied.init :
    Tallied (fun _ : Fin nbworkers => Stage.read 0) (nbtxperwrk * nbworkers) := by
  refine ⟨?_, by simp, by simp, ?_⟩
  · simp [Stage.left, mul_comm]
  · rintro w i (h | ⟨last, h⟩)
    · cases h
      decide
    · cases h

omit [NeZero nbworkers] in
/-- What a worker reads is not below the counter later on. -/
theorem Tallied.read (h : Tallied s v) (hs : s w = .read i) :
    Tallied (Function.update s w (.decrement i v)) v where
  sum := by
    rw [sum_left, hs, ← h.sum]
    simp [Stage.left]
  seen u j last hu := by
    by_cases huw : u = w
    · subst u
      rw [Function.update_self] at hu
      cases hu
      exact le_rfl
    · rw [Function.update_of_ne huw] at hu
      exact h.seen u j last hu
  fine u := by
    by_cases huw : u = w
    · subst u
      simp
    · rw [Function.update_of_ne huw]
      exact h.fine u
  round u j hu := by
    by_cases huw : u = w
    · subst u
      simp only [Function.update_self, reduceCtorEq, Stage.decrement.injEq, exists_and_left,
        exists_eq', and_true, false_or] at hu
      exact hu ▸ h.round w i (.inl hs)
    · rw [Function.update_of_ne huw] at hu
      exact h.round u j hu

omit [NeZero nbworkers] in
theorem Tallied.le (h : Tallied s v) : v ≤ nbtxperwrk * nbworkers := by
  have hleft : ∀ u ∈ Finset.univ, ((s u).left : ℤ) ≤ nbtxperwrk := by
    intro u _
    cases s u <;> simp [Stage.left]
  have hsum := Finset.sum_le_card_nsmul Finset.univ (fun u => ((s u).left : ℤ)) nbtxperwrk hleft
  rw [h.sum]
  simpa [mul_comm] using hsum

omit [NeZero nbworkers] in
theorem Tallied.pos (h : Tallied s v) (hs : s w = .decrement i last) : 1 ≤ v := by
  have hround : i < nbtxperwrk := h.round w i (.inr ⟨last, hs⟩)
  have hle : ((s w).left : ℤ) ≤ ∑ u, ((s u).left : ℤ) :=
    Finset.single_le_sum (f := fun u => ((s u).left : ℤ)) (fun u _ => Int.natCast_nonneg _)
      (Finset.mem_univ w)
  rw [← h.sum, hs, Stage.left] at hle
  omega

omit [NeZero nbworkers] in
/-- The counter is never 0 when a worker takes one off it. -/
theorem Tallied.unwraps (h : Tallied s v) (hs : s w = .decrement i last)
    (hv : (nbtxperwrk * nbworkers : ℤ) < 2 ^ 64) : toSize (v - 1) = v - 1 :=
  Int.emod_eq_of_lt (by linarith [h.pos hs]) (by linarith [h.le])

omit [NeZero nbworkers] in
theorem Tallied.decrement (h : Tallied s v) (hs : s w = .decrement i last) :
    Tallied (Function.update s w (if i + 1 < nbtxperwrk then .read (i + 1) else .passed))
      (v - 1) := by
  have hround : i < nbtxperwrk := h.round w i (.inr ⟨last, hs⟩)
  refine ⟨?_, fun u j last' hu => ?_, fun u => ?_, fun u j hu => ?_⟩
  · rw [sum_left, hs, ← h.sum]
    split_ifs <;> simp only [Stage.left] <;> omega
  · by_cases huw : u = w
    · subst u
      rw [Function.update_self] at hu
      split_ifs at hu
    · rw [Function.update_of_ne huw] at hu
      linarith [h.seen u j last' hu]
  · by_cases huw : u = w
    · subst u
      rw [Function.update_self]
      split_ifs <;> simp
    · rw [Function.update_of_ne huw]
      exact h.fine u
  · by_cases huw : u = w
    · subst u
      rw [Function.update_self] at hu
      split_ifs at hu with hlt
      · simp only [Stage.read.injEq, exists_false, or_false] at hu
        exact hu ▸ hlt
      · simp at hu
    · rw [Function.update_of_ne huw] at hu
      exact h.round u j hu

theorem loop_hist (hv : (nbtxperwrk * nbworkers : ℤ) < 2 ^ 64)
    (h : Ran counterPhase.next (nbtxperwrk * nbworkers) hist v)
    (hp : ∀ w, Permitted (checkAsks .loop w) (ofWorker w hist)) :
    Tallied (stages hist) v ∧ Ran unwrapped (nbtxperwrk * nbworkers) hist v := by
  refine h.lawful (Q := fun hist v => Tallied (stages hist) v ∧
    Ran unwrapped (nbtxperwrk * nbworkers) hist v) hp ⟨Tallied.init, .nil⟩ ?_
  rintro hist v ⟨w, c, r⟩ v' ⟨htally, hran⟩ hasks ⟨-, hdoes⟩
  rw [stages_snoc]
  have hs : (stages hist w).asks c = true := hasks
  cases hstage : stages hist w with
  | read i =>
    rw [hstage] at hs
    cases c with
    | readCounter =>
      obtain ⟨rfl, rfl⟩ := hdoes
      exact ⟨htally.read hstage, hran.snoc ⟨rfl, rfl⟩⟩
    | _ => cases hs
  | decrement i last =>
    rw [hstage] at hs
    cases c with
    | decrement value =>
      obtain rfl : value = last := eq_of_beq hs
      have hseen : v ≤ value := htally.seen w i value hstage
      have hone := htally.unwraps hstage hv
      simp only [counterPhase, if_neg (not_lt.mpr hseen)] at hdoes
      obtain ⟨rfl, rfl⟩ := hdoes
      rw [hone]
      exact ⟨htally.decrement hstage, hran.snoc ⟨htally.pos hstage, hseen, rfl, rfl⟩⟩
    | _ => cases hs
  | passed | failed =>
    rw [hstage] at hs
    cases hs

/-! ## The last part -/

theorem last_hist (h : Ran counterPhase.next 0 hist v)
    (hp : ∀ w, Permitted (checkAsks .last w) (ofWorker w hist)) :
    v = 0 ∧ ∀ z ∈ hist, z.2.2 = .bool true := by
  refine h.lawful (Q := fun hist v => v = 0 ∧ ∀ z ∈ hist, z.2.2 = .bool true) hp ⟨rfl, by simp⟩ ?_
  rintro hist v ⟨w, c, r⟩ v' ⟨rfl, hQ⟩ hasks ⟨-, hdoes⟩
  cases c with
  | counterIs value =>
    obtain ⟨-, -, rfl⟩ := hasks
    obtain ⟨hr, rfl⟩ := hdoes
    refine ⟨rfl, fun z hz => ?_⟩
    rcases List.mem_append.mp hz with hz | hz
    · exact hQ z hz
    · cases List.mem_singleton.mp hz
      simpa using hr
  | _ => exact hasks.elim

/-! ## All parts -/

variable {tm₀ tm : State (Word ℤ)} {x : BankSession (Fin nbworkers)} {nbtx : ℕ}

/-- The value of the counter at the start of a part. -/
def startsWith (nbworkers : ℕ) : Part → ℤ → Prop
  | .first, _ => True
  | .loop, v => v = nbtxperwrk * nbworkers
  | .last, v => v = 0

structure Counting (k : Constants) (v : ℤ) (tm : State (Word ℤ)) : Prop where
  reach : Reachable (AtomicCalls.system (Word ℤ) (AccountSegment.size k.nbaccounts)) Client tm
  idle : tm.active = ∅
  counter : Counter v (committed tm)

theorem Counting.accounted (h : Counting k v tm)
    (hx : Reachable (BankSessions.system k (Fin nbworkers) tm) (Contract (checkAsks p)) x) :
    ∃ hist v', counterPhase.Accounted v (checkAsks p) x hist v' ∧
      ((∀ w, x.thread w = .idle) → Counting k v' x.tm) := by
  obtain ⟨hr, hist, v', hacc⟩ :=
    counterPhase_correct.accounted h.reach h.idle h.counter hx
  exact ⟨hist, v', hacc, fun hall => ⟨hr, (hacc.idle hall).1, (hacc.idle hall).2⟩⟩

omit [NeZero nbworkers] in
theorem initCounter_eq (hv : (nbtxperwrk * nbworkers : ℤ) < 2 ^ 64) :
    initCounter nbworkers = nbtxperwrk * nbworkers :=
  Int.emod_eq_of_lt (by positivity) hv

theorem measured_counting (hn : 1 ≤ k.nbaccounts) (hb : 0 ≤ k.initBalance)
    (hm : Measured k nbtx (Fin nbworkers) tm) : ∃ v, Counting k v tm := by
  obtain ⟨a, l, h⟩ := measured_sane nbtx hn hb hm
  cases l with
  | nil =>
    obtain ⟨pre, last, heq, -⟩ := h.sound.books.full
    simp at heq
  | cons x l =>
    obtain ⟨hstart, hx, -⟩ := h.sound.chain.path
    rw [← Option.some.inj hstart, h.rep.start] at hx
    obtain ⟨b, hb, hlaid⟩ := h.rep.laid 0 x.2 hx
    refine ⟨x.2.count, h.reach, h.idle, b, hb, hlaid.kept, ?_, hlaid.count⟩
    rw [hlaid.size, AccountSegment.size]
    omega

theorem returns_loop {l : List (Captured × Result)} {e : Option String}
    (h : checkReturns .loop w l = some e) :
    (e = none ∧ stage l = .passed) ∨
      (e = some "Violated consistency, isolation or atomicity" ∧ stage l = .failed) := by
  simp only [checkReturns] at h
  split at h
  · exact .inl ⟨(Option.some.inj h).symm, by assumption⟩
  · exact .inr ⟨(Option.some.inj h).symm, by assumption⟩
  · cases h

/-- The counter has the right value at the start of each part. -/
theorem checking_counting (hn : 1 ≤ k.nbaccounts) (hb : 0 ≤ k.initBalance)
    (hv : (nbtxperwrk * nbworkers : ℤ) < 2 ^ 64) (hm : Measured k nbtx (Fin nbworkers) tm₀)
    (h : Checking nbworkers k tm₀ p tm) :
    ∃ v, startsWith nbworkers p v ∧ Counting k v tm := by
  induction h with
  | first =>
    obtain ⟨v, hcount⟩ := measured_counting hn hb hm
    exact ⟨v, trivial, hcount⟩
  | @loop x hx hall =>
    obtain ⟨v, hcount⟩ := measured_counting hn hb hm
    obtain ⟨hist, v', hacc, hidle⟩ := hcount.accounted hx
    refine ⟨v', ?_, hidle fun w => (hall w).1⟩
    rcases first_hist hacc.ran hacc.asked with rfl | ⟨rfl, -⟩
    · have hw := (hall 0).2
      rw [hacc.outcomes 0] at hw
      simp [checkReturns] at hw
    · exact initCounter_eq hv
  | @last tm x _ hx hall ih =>
    obtain ⟨v, rfl, hcount⟩ := ih
    obtain ⟨hist, v', hacc, hidle⟩ := hcount.accounted hx
    have htally := (loop_hist hv hacc.ran hacc.asked).1
    refine ⟨v', ?_, hidle fun w => (hall w).1⟩
    rw [startsWith, htally.sum]
    refine Finset.sum_eq_zero fun w _ => ?_
    have hw := (hall w).2
    rw [hacc.outcomes w] at hw
    rcases returns_loop hw with ⟨-, hs⟩ | ⟨he, -⟩
    · rw [stages, hs]
      rfl
    · cases he

/-- In no part of `check` does a worker return an error, whatever the order of their steps, and
the loop is one on a counter that never wraps around. -/
theorem check_consistent (hn : 1 ≤ k.nbaccounts) (hb : 0 ≤ k.initBalance)
    (hv : (nbtxperwrk * nbworkers : ℤ) < 2 ^ 64) (hm : Measured k nbtx (Fin nbworkers) tm₀)
    (hc : Checking nbworkers k tm₀ p tm)
    (h : Reachable (BankSessions.system k (Fin nbworkers) tm) (Contract (checkAsks p)) x) :
    (∀ w e, checkReturns p w (outcomes x w) = some e → e = none) ∧
      (p = .loop → ∃ hist v,
        counterPhase.Accounted (nbtxperwrk * nbworkers) (checkAsks .loop) x hist v ∧
          Ran unwrapped (nbtxperwrk * nbworkers) hist v) := by
  obtain ⟨v, hstart, hcount⟩ := checking_counting hn hb hv hm hc
  obtain ⟨hist, v', hacc, -⟩ := hcount.accounted h
  refine ⟨fun w e he => ?_, ?_⟩
  · rw [hacc.outcomes w] at he
    cases p with
    | first =>
      rcases first_hist hacc.ran hacc.asked with rfl | ⟨-, rfl | rfl⟩
      all_goals
        by_cases hw : w = 0
        · subst w
          simp_all [checkReturns, ofWorker_cons]
        · simpa [checkReturns, hw, eq_comm] using he
    | loop =>
      cases hstart
      rcases returns_loop he with ⟨rfl, -⟩ | ⟨-, hs⟩
      · rfl
      · exact ((loop_hist hv hacc.ran hacc.asked).1.fine w hs).elim
    | last =>
      cases hstart
      have htrue := (last_hist hacc.ran hacc.asked).2
      by_cases hw : w = 0
      · simp only [checkReturns, if_pos hw] at he
        split at he
        · rename_i c correct hl
          have hmem : (c, Result.bool correct) ∈ ofWorker w hist := by simp [hl]
          cases htrue _ (mem_ofWorker.mp hmem)
          exact (Option.some.inj he).symm
        · cases he
      · simpa [checkReturns, hw, eq_comm] using he
  · rintro rfl
    cases hstart
    exact ⟨hist, v', hacc, (loop_hist hv hacc.ran hacc.asked).2⟩

/-- The first part of worker `u`, of three. -/
def storing (u : Fin nbworkers) : List (BankSessions.Event (Fin nbworkers)) :=
  .call u (.setCounter 300) :: List.replicate 3 (.turn u true) ++
    .call u (.counterIs 300) :: List.replicate 3 (.turn u true)

/-- All three workers read 300, and then two of them abort each other once. -/
def taking (u v w : Fin nbworkers) : List (BankSessions.Event (Fin nbworkers)) :=
  [.call u .readCounter, .turn u true, .call v .readCounter, .turn v true, .call w .readCounter,
    .turn w true, .turn u true, .turn u true, .turn v true, .turn w true, .turn v true,
    .turn w true, .call u (.decrement 300), .call v (.decrement 300), .call w (.decrement 300),
    .turn u true, .turn v true, .turn w true, .turn u true, .turn u true, .turn u true,
    .turn v true, .turn w true, .turn v true, .turn w true, .turn w true, .turn v true,
    .turn w true, .turn w true, .turn w true, .turn v true, .turn v true, .turn v true]

theorem check_consistent_three :
    ∃ tm x, TransitionSystem.run (BankSessions.system ⟨2, 5, true⟩ (Fin 3) tm)
        (ClosureRuns.initial tm) (taking 0 1 2) = some x ∧
      outcomes x 2 = [(.readCounter, .size 300), (.decrement 300, .bool true)] ∧
      (∀ w e, checkReturns .loop w (outcomes x w) = some e → e = none) ∧
      ∃ hist v, (∀ w, outcomes x w = ofWorker w hist) ∧
        Ran unwrapped (nbtxperwrk * (3 : ℕ)) hist v := by
  let M := BankSessions.system ⟨2, 5, true⟩ (Fin 3)
  let s : BankSession (Fin 3) := ClosureRuns.initial (AtomicCalls.initial 5)
  let es := (List.finRange 3).flatMap filling
  have hstored : (TransitionSystem.run (M s.tm) s es).all (fun x =>
      decide (Meets (M x.tm) (Contract (checkAsks .first)) (ClosureRuns.initial x.tm)
        (storing 0)) &&
        (TransitionSystem.run (M x.tm) (ClosureRuns.initial x.tm) (storing 0)).any fun y =>
          decide (∀ w, y.thread w = .idle ∧ checkReturns .first w (outcomes y w) = some none) &&
          decide (Meets (M y.tm) (Contract (checkAsks .loop)) (ClosureRuns.initial y.tm)
            (taking 0 1 2)) &&
          (TransitionSystem.run (M y.tm) (ClosureRuns.initial y.tm) (taking 0 1 2)).any fun z =>
            decide (outcomes z 2 = [(.readCounter, .size 300), (.decrement 300, .bool true)])) =
      true := by decide +kernel
  obtain ⟨x, hx⟩ : ∃ x, TransitionSystem.run (M s.tm) s es = some x :=
    Option.isSome_iff_exists.mp (by decide +kernel)
  rw [hx, Option.all_some, Bool.and_eq_true, Option.any_eq_true] at hstored
  obtain ⟨hmeets, y, hy, hdone⟩ := hstored
  rw [Bool.and_eq_true, Bool.and_eq_true, Option.any_eq_true] at hdone
  obtain ⟨⟨hdone, hmeets'⟩, z, hz, hout⟩ := hdone
  have hchecking : Checking 3 ⟨2, 5, true⟩ x.tm .loop y.tm :=
    .loop (Reachable.run (.init rfl) _ (of_decide_eq_true hmeets) hy)
      (of_decide_eq_true hdone)
  have hreach : Reachable (M y.tm) (Contract (checkAsks .loop)) z :=
    Reachable.run (.init rfl) _ (of_decide_eq_true hmeets') hz
  obtain ⟨hreturns, hloop⟩ := check_consistent (k := ⟨2, 5, true⟩) (by decide) (by decide)
    (by decide) (measured_filling 1 hx) hchecking hreach
  obtain ⟨hist, v, hacc, hran⟩ := hloop rfl
  exact ⟨y.tm, z, hz, of_decide_eq_true hout, hreturns, hist, v, hacc.outcomes, hran⟩

end BankCheck
