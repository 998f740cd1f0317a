import TransactionalMemory.AttemptOpacity
import TransactionalMemory.ClosureRuns

/-! # Closures are atomic

Whatever the interleaving, the results that the workers have are those of an abstract machine
that does each job at once: epoch by epoch, those that only read before the others, and the
others in the order of their commits. -/
namespace AtomicClosures

open TransitionSystem
open BatcherState
open ControlWord
open RegionState
open Calls
open CallLog
open CallOutcomes
open AtomicCalls
open CommutingSteps
open PlainMemory
open SerialViews
open SerialRuns
open Serializability
open EpochTurns
open AttemptOpacity
open RealTimeOrder
open AtomicHistories
open Closures
open CommitOrder
open ClosureRuns

variable {ι W R C A : Type*} [DecidableEq ι]

/-- The jobs done so far, of the closed epochs and of the open one, and the states of the
machine at the start of the epoch and now. -/
structure Story (ι A J R : Type*) where
  past : List (ι × J × R)
  readers : List (ι × J × R)
  writers : List (ι × J × R)
  base : A
  cur : A

def Story.jobs {J : Type*} (y : Story ι A J R) : List (ι × J × R) :=
  y.past ++ y.readers ++ y.writers

def Story.close {J : Type*} (y : Story ι A J R) : Story ι A J R :=
  ⟨y.jobs, [], [], y.cur, y.cur⟩

variable {P : Spec W R C A} {a₀ : A} {f : Closure W R C} {y : Story ι A (Job C) R}
variable {x : Session ι W R C} {w : ι} {tx : Tx} {j : Job C} {c : C} {size : ℕ}
variable {permit : ι → List (Job C × R) → Job C → Prop}

structure Tale (P : Spec W R C A) (a₀ : A) (y : Story ι A (Job C) R) : Prop where
  past : Ran P.next a₀ y.past y.base
  readers : ∀ z ∈ y.readers, P.next y.base z.2.1 z.2.2 y.base
  writers : Ran P.next y.base y.writers y.cur

omit [DecidableEq ι] in
theorem Tale.jobs (h : Tale P a₀ y) : Ran P.next a₀ y.jobs y.cur :=
  (h.past.append (Ran.idle h.readers)).append h.writers

omit [DecidableEq ι] in
theorem Tale.close (h : Tale P a₀ y) : Tale P a₀ y.close :=
  ⟨h.jobs, by simp [Story.close], .nil⟩

/-- No two workers have the same handle. -/
def Alone (thread : ι → Thread C) : Prop :=
  ∀ w v tx j c j' c', thread w = .inside tx j c → thread v = .inside tx j' c' → w = v

theorem Alone.update {thread : ι → Thread C} (h : Alone thread) {th : Thread C}
    (hth : ∀ tx j c, th = .inside tx j c → ∀ v j' c', v ≠ w → thread v ≠ .inside tx j' c') :
    Alone (Function.update thread w th) := by
  intro u v tx j c j' c' hu hv
  by_cases huw : u = w
  · subst u
    rw [Function.update_self] at hu
    by_cases hvw : v = w
    · exact hvw.symm
    · rw [Function.update_of_ne hvw] at hv
      exact (hth tx j c hu v j' c' hvw hv).elim
  · rw [Function.update_of_ne huw] at hu
    by_cases hvw : v = w
    · subst v
      rw [Function.update_self] at hv
      exact (hth tx j' c' hv u j c huw hu).elim
    · rw [Function.update_of_ne hvw] at hv
      exact h u v tx j c j' c' hu hv

variable [DecidableEq W]

/-- Where a worker is, and that what its job needs is there. -/
def Placed (f : Closure W R C) (P : Spec W R C A) (s : State W) (y : Story ι A (Job C) R)
    (w : ι) : Thread C → Prop
  | .idle => True
  | .pending j => P.pre y.cur j
  | .inside tx j c => isTxReadonly tx = j.isRo ∧
      ((tx ∈ s.active ∧ P.pre y.base j ∧ Trace f j.start (calls s.log tx) c ∧
          ∀ z ∈ y.readers ++ y.writers, z.1 ≠ w) ∨
        (tx ∈ waiters s ∧ P.pre y.cur j ∧ c = j.start))

/-- Whoever is in the library is a worker's. -/
def Owned (s : State W) (thread : ι → Thread C) : Prop :=
  ∀ u, u ∈ s.active ∨ u ∈ waiters s → ∃ w j c, thread w = .inside u j c

omit [DecidableEq W] in
theorem Owned.update {s t : State W} {thread : ι → Thread C} {th : Thread C}
    (h : Owned s thread) (hu : ∀ u, u ∈ t.active ∨ u ∈ waiters t →
      (∃ j c, th = .inside u j c) ∨
        ((u ∈ s.active ∨ u ∈ waiters s) ∧ ∀ j c, thread w ≠ .inside u j c)) :
    Owned t (Function.update thread w th) := by
  intro u hin
  rcases hu u hin with ⟨j, c, hth⟩ | ⟨hin, hne⟩
  · exact ⟨w, j, c, by rw [Function.update_self, hth]⟩
  · obtain ⟨v, j, c, hv⟩ := h u hin
    refine ⟨v, j, c, ?_⟩
    rw [Function.update_of_ne, hv]
    rintro rfl
    exact hne j c hv

variable [Zero W]

structure Told (f : Closure W R C) (P : Spec W R C A) (a₀ : A) (size : ℕ)
    (x : Session ι W R C) (y : Story ι A (Job C) R) : Prop where
  reach : Reachable (AtomicCalls.system W size) Client x.tm
  once : (commits x.tm.log).Nodup
  tale : Tale P a₀ y
  base : P.rep y.base (committed x.tm)
  cur : ∃ m, progress x.tm.log (committed x.tm) = some m ∧ P.rep y.cur m
  results : ∀ w, x.results w = ofWorker w y.jobs
  quiet : x.tm.active = ∅ → y.readers = [] ∧ y.writers = []
  placed : ∀ w, Placed f P x.tm y w (x.thread w)
  alone : Alone x.thread
  owned : Owned x.tm x.thread

/-! ### The calls of an attempt -/

omit [DecidableEq ι] in
/-- A call that plain memory allows in a view of the transaction is one that the library
allows. -/
theorem client_of {s : State W} {V : Finset Tx} {Q : R → Memory W → Prop} {isRo ok : Bool}
    (hV : ∀ u ∈ V, u = tx) (hro : isTxReadonly tx = isRo)
    (h : Ensures f isRo Q c (view s.log s.region (freedBefore s) V)) :
    Client s (asked tx ok (f.call c)) := by
  have seen : ∀ {g b}, view s.log s.region (freedBefore s) V g = some b →
      g ∈ s.region.live ∧ g ∉ freedBefore s ∧ b.size = (s.region.seg g).size ∧
        (allocator s.log g = none ∨ allocator s.log g = some tx) := by
    intro g b hb
    rw [view, Option.ite_none_right_eq_some] at hb
    obtain ⟨⟨hg, hd, hall⟩, hb⟩ := hb
    cases hb
    refine ⟨hg, hd, rfl, ?_⟩
    cases ha : allocator s.log g with
    | none => exact .inl rfl
    | some u =>
      rw [ha] at hall
      exact .inr (congrArg some (hV u (by simpa using hall)))
  cases h with
  | read hc hb hk _ =>
    rw [hc]
    obtain ⟨hg, hd, hs, -⟩ := seen hb
    exact ⟨hg, hs ▸ hk, hd⟩
  | write hc hrw hb hk _ =>
    rw [hc]
    obtain ⟨hg, hd, hs, -⟩ := seen hb
    exact ⟨hro.trans hrw, hg, hs ▸ hk, hd⟩
  | alloc hc hrw _ _ =>
    rw [hc]
    exact hro.trans hrw
  | free hc hrw hb _ =>
    rw [hc]
    obtain ⟨hg, hd, -, ho⟩ := seen hb
    exact ⟨hro.trans hrw, hg, hd, ho⟩
  | ret hc _ =>
    rw [hc]
    trivial

/-- An attempt has run alone on the memory that the epoch began with. -/
theorem Told.attempt (h : Told f P a₀ size x y) (hf : Implements ι f P a₀ permit)
    (hw : x.thread w = .inside tx j c) (ha : tx ∈ x.tm.active) :
    ∃ Q V, (∀ u ∈ V, u = tx) ∧
      Ensures f j.isRo Q c (view x.tm.log x.tm.region (freedBefore x.tm) V) := by
  obtain ⟨hi, hs⟩ := reachable_consistent h.reach
  have hplaced := h.placed w
  rw [hw] at hplaced
  obtain ⟨hro, ⟨-, hpre, htrace, -⟩ | ⟨hwait, -⟩⟩ := hplaced
  · have hstand := (hi.crew.running tx ha).2
    cases hj : j.isRo with
    | true =>
      rw [hj] at hro
      refine ⟨_, ∅, by simp, (hf.reads y.base _ j h.base hpre hj).trace htrace ?_⟩
      rw [committed_eq_view]
      exact hs.serial.readers tx hro hstand
    | false =>
      rw [hj] at hro
      refine ⟨_, {tx}, by simp, (hf.writes y.base _ j h.base hpre hj).trace htrace ?_⟩
      rw [committed_eq_view]
      exact hs.serial.writers ∅ tx (by simp) ⟨hro, hstand⟩ (by simp)
  · exact (hi.crew.roster.apart tx ha hwait).elim

theorem Told.client (h : Told f P a₀ size x y) (hf : Implements ι f P a₀ permit) (ok : Bool)
    (hw : x.thread w = .inside tx j c) (ha : tx ∈ x.tm.active) :
    Client x.tm (asked tx ok (f.call c)) := by
  obtain ⟨Q, V, hV, hens⟩ := h.attempt hf hw ha
  have hplaced := h.placed w
  rw [hw] at hplaced
  exact client_of hV hplaced.1 hens

/-! ### What a step does to the story -/

theorem Told.submit (h : Told f P a₀ size x y) (hf : Implements ι f P a₀ permit)
    (hw : x.thread w = .idle) (hp : permit w (x.results w) j) :
    Told f P a₀ size (x.put w x.tm (.pending j)) y where
  reach := h.reach
  once := h.once
  tale := h.tale
  base := h.base
  cur := h.cur
  results := h.results
  quiet := h.quiet
  placed v := by
    by_cases hv : v = w
    · subst v
      simp only [Session.put, Function.update_self]
      exact hf.submit y.jobs y.cur w j h.tale.jobs (h.results w ▸ hp)
    · simp only [Session.put, Function.update_of_ne hv]
      exact h.placed v
  alone := h.alone.update (by simp)
  owned := h.owned.update fun u hu => .inr ⟨hu, by simp [hw]⟩

theorem Told.begin (h : Told f P a₀ size x y) (hw : x.thread w = .pending j)
    (hc : x.tm.transCounter.toNat < 2 ^ 31) :
    Told f P a₀ size
      (x.put w (tmBegin x.tm j.isRo) (.inside (txId x.tm.transCounter j.isRo) j j.start)) y := by
  obtain ⟨hi, hs⟩ := reachable_consistent h.reach
  have hfresh : txId x.tm.transCounter j.isRo ∉ x.tm.used :=
    (hs.numbered.lawful hi (e := .begin j.isRo) hc).2.1
  have hpre : P.pre y.cur j := by
    have hplaced := h.placed w
    rwa [hw] at hplaced
  have hro := txId_readonly hc j.isRo
  have hbegun := begin_begun hi j.isRo
  have hbooks : SameBooks x.tm (tmBegin x.tm j.isRo) := ⟨rfl, rfl, rfl⟩
  refine ⟨h.reach.next (.begin j.isRo) rfl hc, h.once, h.tale, ?_, ?_, h.results, ?_,
    fun v => ?_, ?_, ?_⟩
  · exact h.base
  · exact h.cur
  · intro hidle
    cases hbegun with
    | admitted _ _ _ ha =>
      simp only [Session.put] at hidle
      simp [ha] at hidle
    | parked hbusy _ _ ha =>
      simp only [Session.put] at hidle
      exact absurd (ha ▸ hidle) hbusy.ne_empty
  · by_cases hv : v = w
    · subst v
      simp only [Session.put, Function.update_self]
      refine ⟨hro, ?_⟩
      cases hbegun with
      | admitted hidle _ _ ha =>
        obtain ⟨hreaders, hwriters⟩ := h.quiet hidle
        have hsame : y.base = y.cur := by
          have hran := h.tale.writers
          rw [hwriters] at hran
          exact (ran_nil hran).symm
        have hlog : x.tm.log = [] := (reachable_recorded h.reach).owned hidle
        refine .inl ⟨by simp [ha], hsame ▸ hpre, ?_, by simp [hreaders, hwriters]⟩
        rw [show (tmBegin x.tm j.isRo).log = [] from hlog]
        exact .nil
      | parked _ _ _ _ hwait => exact .inr ⟨by simp [hwait], hpre, rfl⟩
    · simp only [Session.put, Function.update_of_ne hv]
      have hplaced := h.placed v
      cases hth : x.thread v with
      | idle => trivial
      | pending j' => rwa [hth] at hplaced
      | inside tx' j' c' =>
        rw [hth] at hplaced
        obtain ⟨hro', ⟨hact, hpre', htrace, hothers⟩ | ⟨hwait', hpre', hstart⟩⟩ := hplaced
        · refine ⟨hro', .inl ⟨?_, hpre', htrace, hothers⟩⟩
          cases hbegun with
          | admitted hidle => simp [hidle] at hact
          | parked _ _ _ ha => rwa [ha]
        · refine ⟨hro', .inr ⟨?_, hpre', hstart⟩⟩
          cases hbegun with
          | admitted hidle =>
            have hcount := hi.crew.roster.counts
            rw [hidle, Finset.card_empty] at hcount
            simp [waiters, hcount.waiters_empty] at hwait'
          | parked _ _ _ _ hwait => exact hwait ▸ Finset.mem_insert_of_mem hwait'
  · refine h.alone.update fun tx j₁ c₁ heq v j' c' hv hin => hfresh ?_
    cases heq
    have hplaced := h.placed v
    rw [hin] at hplaced
    rcases hplaced.2 with ⟨hact, -⟩ | ⟨hwait, -⟩
    · exact hi.crew.member _ hact
    · exact hi.crew.waiter _ hwait
  · refine h.owned.update fun u hu => ?_
    change u ∈ (tmBegin x.tm j.isRo).active ∨ u ∈ waiters (tmBegin x.tm j.isRo) at hu
    cases hbegun with
    | admitted _ _ _ ha hwait =>
      rw [ha, hwait, Finset.mem_singleton] at hu
      rcases hu with rfl | hu
      · exact .inl ⟨_, _, rfl⟩
      · simp at hu
    | parked _ _ _ ha hwait =>
      rw [ha, hwait, Finset.mem_insert] at hu
      rcases hu with hu | rfl | hu
      · exact .inr ⟨.inl hu, by simp [hw]⟩
      · exact .inl ⟨_, _, rfl⟩
      · exact .inr ⟨.inr hu, by simp [hw]⟩

omit [DecidableEq W] [DecidableEq ι] [Zero W] in
/-- For `Owned.update`, when a worker goes on. -/
theorem still {s : State W} {u : Tx} {c' : C} (hw : x.thread w = .inside tx j c)
    (hu : u ∈ s.active ∨ u ∈ waiters s) : (∃ j₁ c₁, Thread.inside tx j c' = .inside u j₁ c₁) ∨
      ((u ∈ s.active ∨ u ∈ waiters s) ∧ ∀ j c, x.thread w ≠ .inside u j c) := by
  by_cases he : u = tx
  · exact .inl ⟨j, c', by rw [he]⟩
  · refine .inr ⟨hu, fun j₁ c₁ heq => he ?_⟩
    rw [hw] at heq
    cases heq
    rfl

theorem Told.called (h : Told f P a₀ size x y) {t : State W} {e : Entry W} {c' : C}
    (hr : Reachable (AtomicCalls.system W size) Client t)
    (hw : x.thread w = .inside tx j c) (hl : Logged x.tm t tx e) (hne : e ≠ .commit)
    (hcrew : SameCrew x.tm t) (hc : Makes f c e c') :
    Told f P a₀ size (x.put w t (.inside tx j c')) y := by
  obtain ⟨hi, hs⟩ := reachable_consistent h.reach
  obtain ⟨hcommit, -⟩ := hi.crew.running tx hl.active
  refine ⟨hr, ?_, h.tale, ?_, ?_, h.results, fun hidle => ?_, fun v => ?_, ?_, ?_⟩
  · simp only [Session.put]
    rw [hl.log, commits_other hne]
    exact h.once
  · simp only [Session.put]
    rw [hl.committed]
    exact h.base
  · simp only [Session.put]
    rw [hl.log, hl.committed, progress_other hcommit (.inl hne)]
    exact h.cur
  · simp only [Session.put, hcrew.active] at hidle
    exact h.quiet hidle
  · by_cases hv : v = w
    · subst v
      have hplaced := h.placed w
      rw [hw] at hplaced
      simp only [Session.put, Function.update_self]
      obtain ⟨hro, ⟨hact, hpre, htrace, hothers⟩ | ⟨hwait, -⟩⟩ := hplaced
      · refine ⟨hro, .inl ⟨hcrew.active ▸ hact, hpre, ?_, hothers⟩⟩
        rw [hl.log, calls_snoc, if_pos rfl]
        exact htrace.call hc
      · exact (hi.crew.roster.apart tx hl.active hwait).elim
    · have hplaced := h.placed v
      simp only [Session.put, Function.update_of_ne hv]
      cases hth : x.thread v with
      | idle => trivial
      | pending j' => rwa [hth] at hplaced
      | inside tx' j' c₁ =>
        have hne' : tx ≠ tx' := by
          rintro rfl
          exact hv (h.alone v w tx j' c₁ j c hth hw)
        rw [hth] at hplaced
        rw [Placed, hl.log, calls_snoc, if_neg hne', hcrew.active, hcrew.waiters]
        exact hplaced
  · refine h.alone.update fun tx' j₁ c₁ heq v j' c₂ hv hin => hv ?_
    cases heq
    exact h.alone v w tx j' c₂ j c hin hw
  · refine h.owned.update fun u hu => ?_
    change u ∈ t.active ∨ u ∈ waiters t at hu
    rw [hcrew.active, hcrew.waiters] at hu
    exact still hw hu

/-- An allocation finds no memory. -/
theorem Told.nomem (h : Told f P a₀ size x y) {n : ℕ} {next : Option SegId → C}
    (hw : x.thread w = .inside tx j c) (ha : tx ∈ x.tm.active) (hc : f.call c = .alloc n next) :
    Told f P a₀ size (x.put w x.tm (.inside tx j (next none))) y := by
  obtain ⟨hi, hs⟩ := reachable_consistent h.reach
  refine ⟨h.reach, h.once, h.tale, h.base, h.cur, h.results, h.quiet, fun v => ?_, ?_,
    h.owned.update fun u hu => still hw hu⟩
  · by_cases hv : v = w
    · subst v
      have hplaced := h.placed w
      rw [hw] at hplaced
      simp only [Session.put, Function.update_self]
      obtain ⟨hro, ⟨hact, hpre, htrace, hothers⟩ | ⟨hwait, -⟩⟩ := hplaced
      · exact ⟨hro, .inl ⟨hact, hpre, htrace.nomem hc, hothers⟩⟩
      · exact (hi.crew.roster.apart tx ha hwait).elim
    · simp only [Session.put, Function.update_of_ne hv]
      exact h.placed v
  · refine h.alone.update fun tx' j₁ c₁ heq v j' c₂ hv hin => hv ?_
    cases heq
    exact h.alone v w tx j' c₂ j c hin hw

/-- The story after the end of a transaction, before the epoch closes if it was the last. -/
structure Goes (P : Spec W R C A) (a₀ : A) (x : Session ι W R C) (y y' : Story ι A (Job C) R)
    (w : ι) (tx : Tx) (e : Entry W) (th : Thread C) (results : ι → List (Job C × R)) : Prop where
  tale : Tale P a₀ y'
  base : y'.base = y.base
  cur : ∃ m, progress (x.tm.log ++ [(tx, e)]) (committed x.tm) = some m ∧ P.rep y'.cur m
  pre : ∀ j, P.pre y.cur j → P.pre y'.cur j
  new : ∀ z ∈ y'.readers ++ y'.writers, z ∈ y.readers ++ y.writers ∨ z.1 = w
  results : ∀ v, results v = ofWorker v y'.jobs
  thread : th = .idle ∨ ∃ j, th = .pending j ∧ P.pre y'.cur j

theorem Goes.placed {e : Entry W} {y' z : Story ι A (Job C) R} {th : Thread C}
    {results : ι → List (Job C × R)} (h : Goes P a₀ x y y' w tx e th results)
    (hz : z.cur = y'.cur) {t : State W} : Placed f P t z w th := by
  rcases h.thread with rfl | ⟨j, rfl, hpre⟩
  · trivial
  · show P.pre z.cur j
    rwa [hz]

theorem Told.ended (h : Told f P a₀ size x y) (hf : Implements ι f P a₀ permit) {t : State W}
    {e : Entry W} {y' : Story ι A (Job C) R} {th : Thread C} {results : ι → List (Job C × R)}
    (hr : Reachable (AtomicCalls.system W size) Client t)
    (hw : x.thread w = .inside tx j c) (ha : tx ∈ x.tm.active) (he : Ended x.tm t tx e)
    (hg : Goes P a₀ x y y' w tx e th results) :
    ∃ y', Told f P a₀ size { x.put w t th with results } y' := by
  obtain ⟨hi, hs⟩ := reachable_consistent h.reach
  have hth : ∀ tx j c, th ≠ .inside tx j c := by
    intro tx j c hin
    rcases hg.thread with hth | ⟨j', hth, -⟩ <;> rw [hth] at hin <;> cases hin
  have halone : Alone (Function.update x.thread w th) :=
    h.alone.update fun tx j c hin => (hth tx j c hin).elim
  have other : ∀ v, v ≠ w → ∀ tx' j' c', x.thread v = .inside tx' j' c' → tx' ≠ tx := by
    rintro v hv tx' j' c' hin rfl
    exact hv (h.alone v w tx' j' c' j c hin hw)
  have gone : ∀ {u}, u ≠ tx → ∀ j c, x.thread w ≠ .inside u j c := by
    intro u hu j' c' hin
    rw [hw] at hin
    cases hin
    exact hu rfl
  cases he with
  | left hl hmore _ hact hwait =>
    refine ⟨y', hr, ?_, hg.tale, ?_, ?_, hg.results, fun hidle => ?_, fun v => ?_, halone,
      h.owned.update fun u hu => .inr ?_⟩
    · simp only [Session.put]
      rw [hl.log]
      exact commits_nodup hi h.once ha e
    · simp only [Session.put]
      rw [hl.committed, hg.base]
      exact h.base
    · simp only [Session.put]
      rw [hl.log, hl.committed]
      exact hg.cur
    · simp only [Session.put, hact] at hidle
      exact absurd hidle hmore.ne_empty
    · by_cases hv : v = w
      · subst v
        simp only [Session.put, Function.update_self]
        exact hg.placed rfl
      · have hplaced := h.placed v
        simp only [Session.put, Function.update_of_ne hv]
        cases hin : x.thread v with
        | idle => trivial
        | pending j' =>
          rw [hin] at hplaced
          exact hg.pre _ hplaced
        | inside tx' j' c' =>
          have hne := other v hv tx' j' c' hin
          rw [hin] at hplaced
          obtain ⟨hro, ⟨hrun, hpre, htrace, hothers⟩ | ⟨hpark, hpre, hstart⟩⟩ := hplaced
          · refine ⟨hro, .inl ⟨hact ▸ Finset.mem_erase.mpr ⟨hne, hrun⟩, hg.base ▸ hpre, ?_, ?_⟩⟩
            · rwa [hl.log, calls_snoc, if_neg hne.symm]
            · intro z hz
              rcases hg.new z hz with hz | hz
              · exact hothers z hz
              · exact hz ▸ Ne.symm hv
          · exact ⟨hro, .inr ⟨hwait ▸ hpark, hg.pre _ hpre, hstart⟩⟩
    · change u ∈ t.active ∨ u ∈ waiters t at hu
      rw [hact, hwait] at hu
      rcases hu with hu | hu
      · exact ⟨.inl (Finset.mem_of_mem_erase hu), gone (Finset.ne_of_mem_erase hu)⟩
      · exact ⟨.inr hu, gone fun hx => hi.crew.roster.apart tx ha (hx ▸ hu)⟩
  | closed hsole _ hact hwait hlog hclosed =>
    obtain ⟨m, hm, hend⟩ := closed_progress hs (reachable_consistent hr).2 hi h.once ha hclosed
    obtain ⟨m', hm', hrep⟩ := hg.cur
    obtain rfl : m = m' := by
      rw [hm] at hm'
      exact Option.some.inj hm'
    have hrep' := hf.endEpoch _ _ hrep
    refine ⟨y'.close, hr, ?_, hg.tale.close, ?_, ?_, ?_, fun _ => ⟨rfl, rfl⟩, fun v => ?_,
      halone, h.owned.update fun u hu => .inr ?_⟩
    · simp only [Session.put]
      rw [hlog]
      exact List.nodup_nil
    · simp only [Session.put]
      rw [hend]
      exact hrep'
    · simp only [Session.put]
      rw [hlog, hend]
      exact ⟨_, rfl, hrep'⟩
    · intro v
      rw [Story.jobs, Story.close, List.append_nil, List.append_nil]
      exact hg.results v
    · by_cases hv : v = w
      · subst v
        simp only [Session.put, Function.update_self]
        exact hg.placed (z := y'.close) rfl
      · have hplaced := h.placed v
        simp only [Session.put, Function.update_of_ne hv]
        cases hin : x.thread v with
        | idle => trivial
        | pending j' =>
          rw [hin] at hplaced
          exact hg.pre _ hplaced
        | inside tx' j' c' =>
          have hne := other v hv tx' j' c' hin
          rw [hin] at hplaced
          obtain ⟨hro, ⟨hrun, -⟩ | ⟨hpark, hpre, hstart⟩⟩ := hplaced
          · rw [hsole, Finset.mem_singleton] at hrun
            exact (hne hrun).elim
          · -- the epoch opens for those who waited
            refine ⟨hro, .inl ⟨hact ▸ hpark, hg.pre _ hpre, ?_, by simp [Story.close]⟩⟩
            rw [hlog, hstart]
            exact .nil
    · change u ∈ t.active ∨ u ∈ waiters t at hu
      rw [hact, hwait] at hu
      rcases hu with hu | hu
      · exact ⟨.inr hu, gone fun hx => hi.crew.roster.apart tx ha (hx ▸ hu)⟩
      · simp at hu

/-- An attempt that fails starts again with what it has left in its captured variables. -/
theorem Told.aborted (h : Told f P a₀ size x y) (hf : Implements ι f P a₀ permit)
    (hw : x.thread w = .inside tx j c) (ha : tx ∈ x.tm.active) :
    Goes P a₀ x y y w tx .abort (.pending { j with start := f.again c }) x.results := by
  obtain ⟨hi, hs⟩ := reachable_consistent h.reach
  have hplaced := h.placed w
  rw [hw] at hplaced
  obtain ⟨hro, ⟨-, hpre, htrace, -⟩ | ⟨hwait, -⟩⟩ := hplaced
  · obtain ⟨m', hm'⟩ := standing_replays hs (hi.crew.running tx ha).2
    have hagain := hf.retried _ _ _ _ _ _ h.base hpre htrace hm'
    refine ⟨h.tale, rfl, ?_, fun _ hp => hp, fun z hz => .inl hz, h.results, .inr ⟨_, rfl, ?_⟩⟩
    · rw [progress_other (hi.crew.running tx ha).1 (.inl (by simp))]
      exact h.cur
    · exact h.tale.writers.stable (P := fun a => P.pre a _) (fun a j' r a' => hf.stable a _ j' r a')
        hagain
  · exact (hi.crew.roster.apart tx ha hwait).elim

/-- A reader is done on the memory that the epoch began with, a writer on what the writers
that committed before it have left. -/
theorem Told.returned (h : Told f P a₀ size x y) (hf : Implements ι f P a₀ permit) {value : R}
    (hw : x.thread w = .inside tx j c) (ha : tx ∈ x.tm.active) (hc : f.call c = .ret value) :
    ∃ y', Goes P a₀ x y y' w tx .commit .idle
      (Function.update x.results w (x.results w ++ [(j, value)])) := by
  obtain ⟨hi, hs⟩ := reachable_consistent h.reach
  obtain ⟨hcommit, hstand⟩ := hi.crew.running tx ha
  have hplaced := h.placed w
  rw [hw] at hplaced
  obtain ⟨hro, ⟨-, hpre, htrace, hothers⟩ | ⟨hwait, -⟩⟩ := hplaced
  · have habsent : ofWorker w y.writers = [] :=
      ofWorker_absent fun z hz => hothers z (List.mem_append_right _ hz)
    cases hj : j.isRo with
    | true =>
      rw [hj] at hro
      have hrun : runTransaction x.tm.log (committed x.tm) tx = some (committed x.tm) := by
        rw [committed_eq_view]
        exact hs.serial.readers tx hro hstand
      have hnext : P.next y.base j value y.base :=
        ((hf.reads y.base _ j h.base hpre hj).trace htrace hrun).result hc
      refine ⟨{ y with readers := y.readers ++ [(w, j, value)] }, ⟨h.tale.past, ?_,
        h.tale.writers⟩, rfl, ?_, fun _ hp => hp, ?_, ?_, .inl rfl⟩
      · intro z hz
        rcases List.mem_append.mp hz with hz | hz
        · exact h.tale.readers z hz
        · cases List.mem_singleton.mp hz
          exact hnext
      · rw [progress_other hcommit (.inr hro)]
        exact h.cur
      · simp only [List.mem_append, List.mem_singleton]
        rintro z ((hz | rfl) | hz)
        · exact .inl (.inl hz)
        · exact .inr rfl
        · exact .inl (.inr hz)
      · intro v
        by_cases hv : v = w
        · subst v
          rw [Function.update_self, h.results w]
          simp [Story.jobs, habsent, ofWorker_cons]
        · rw [Function.update_of_ne hv, h.results v]
          simp [Story.jobs, ofWorker_cons, Ne.symm hv]
    | false =>
      rw [hj] at hro
      obtain ⟨m, hm, hrep⟩ := h.cur
      obtain ⟨m', hm'⟩ := progress_running hs hi h.once ha hro hm
      have hcur : P.pre y.cur j :=
        h.tale.writers.stable (P := fun a => P.pre a j)
          (fun a j' r a' => hf.stable a j j' r a') hpre
      obtain ⟨a', hnext, hrep'⟩ :=
        ((hf.writes y.cur m j hrep hcur hj).trace htrace hm').result hc
      refine ⟨{ y with writers := y.writers ++ [(w, j, value)], cur := a' }, ⟨h.tale.past,
        h.tale.readers, h.tale.writers.snoc hnext⟩, rfl, ⟨m', ?_, hrep'⟩,
        fun j' hp => hf.stable _ _ _ _ _ hp hnext, ?_, ?_, .inl rfl⟩
      · rw [progress_commit hcommit hro, hm, Option.bind_some, hm']
      · simp only [List.mem_append, List.mem_singleton]
        rintro z (hz | hz | rfl)
        · exact .inl (.inl hz)
        · exact .inl (.inr hz)
        · exact .inr rfl
      · intro v
        by_cases hv : v = w
        · subst v
          rw [Function.update_self, h.results w]
          simp [Story.jobs, ofWorker_cons]
        · rw [Function.update_of_ne hv, h.results v]
          simp [Story.jobs, ofWorker_cons, Ne.symm hv]
  · exact (hi.crew.roster.apart tx ha hwait).elim

/-! ### Runs -/

omit [DecidableEq ι] [DecidableEq W] in
theorem step_asked {s t : State W} {ok : Bool} {call : Call W R C}
    (h : AtomicCalls.step s (asked tx ok call) = some t) :
    tx ∈ s.active ∧ t = AtomicCalls.call s (asked tx ok call) := by
  have hcaller : (asked (W := W) tx ok call).caller = some tx := by cases call <;> rfl
  rw [AtomicCalls.step, hcaller] at h
  simp only [Option.ite_none_right_eq_some, Option.some.injEq] at h
  exact ⟨h.1, h.2.symm⟩

theorem Told.turn (h : Told f P a₀ size x y) (hf : Implements ι f P a₀ permit) {ok : Bool}
    {t : State W} (hw : x.thread w = .inside tx j c)
    (ht : AtomicCalls.step x.tm (asked tx ok (f.call c)) = some t) :
    ∃ y', Told f P a₀ size (x.after f w ok tx j c t) y' := by
  obtain ⟨hi, hs⟩ := reachable_consistent h.reach
  obtain ⟨ha, heq⟩ := step_asked ht
  have hclient := h.client hf ok hw ha
  have hr : Reachable (AtomicCalls.system W size) Client t := .step h.reach hclient ht
  have hturn := step_turn hi hs hclient ht
  have goesOn : ∀ {e c' r}, t = x.tm.record tx e r → e ≠ .commit → e ≠ .abort →
      Makes f c e c' → ∃ y', Told f P a₀ size (x.put w t (.inside tx j c')) y' := by
    intro e c' r htm hne hna hmakes
    obtain ⟨hl, hcrew⟩ := hturn.called_of (htm ▸ history_record ..) hne hna
    exact ⟨y, h.called hr hw hl hne hcrew hmakes⟩
  have thrown : ∀ {r}, t = x.tm.leave tx .abort r →
      ∃ y', Told f P a₀ size (x.put w t (.pending { j with start := f.again c })) y' := by
    intro r htm
    have hend := hturn.ended_of (htm ▸ history_leave ..) (.inr rfl)
    exact h.ended hf hr hw ha hend (h.aborted hf hw ha)
  cases hc : f.call c with
  | read g k n next =>
    rw [hc] at heq
    rcases hread : tmRead x.tm.region tx g k n with ⟨_ | target, r⟩
    · simp only [asked, AtomicCalls.call, hread] at heq
      simpa only [Session.after, hc, answer, hread, Option.map_none] using thrown heq
    · simp only [asked, AtomicCalls.call, hread] at heq
      simpa only [Session.after, hc, answer, hread, Option.map_some] using
        goesOn heq (by simp) (by simp) (.read target hc (tmRead_length hread))
  | write g k src next =>
    rw [hc] at heq
    rcases hwrite : tmWrite x.tm.region tx g k src with ⟨_ | _, r⟩
    · simp only [asked, AtomicCalls.call, hwrite] at heq
      simpa [Session.after, hc, answer, hwrite] using thrown heq
    · simp only [asked, AtomicCalls.call, hwrite] at heq
      simpa [Session.after, hc, answer, hwrite] using
        goesOn heq (by simp) (by simp) (.write hc)
  | alloc n next =>
    rw [hc] at heq
    cases ok with
    | true =>
      simp only [asked, AtomicCalls.call] at heq
      simpa [Session.after, hc, answer] using
        goesOn heq (by simp) (by simp) (.alloc x.tm.region.nextSeg hc)
    | false =>
      simp only [asked, AtomicCalls.call] at heq
      subst t
      exact ⟨y, by simpa [Session.after, hc, answer] using h.nomem hw ha hc⟩
  | free g next =>
    rw [hc] at heq
    simp only [asked, AtomicCalls.call] at heq
    simpa [Session.after, hc, answer] using goesOn heq (by simp) (by simp) (.free hc)
  | ret value =>
    rw [hc] at heq
    simp only [asked, AtomicCalls.call] at heq
    have hend := hturn.ended_of (heq ▸ history_leave ..) (.inl rfl)
    obtain ⟨y', hg⟩ := h.returned hf hw ha hc
    simpa [Session.after, hc, Session.finish] using h.ended hf hr hw ha hend hg

theorem Told.step (h : Told f P a₀ size x y) (hf : Implements ι f P a₀ permit)
    {ev : Event ι C} {x' : Session ι W R C} (hc : Contract permit x ev)
    (ht : ClosureRuns.step f x ev = some x') : ∃ y', Told f P a₀ size x' y' := by
  cases ev with
  | submit w j =>
    simp only [ClosureRuns.step] at ht
    cases hw : x.thread w with
    | idle =>
      simp only [hw, Option.some.injEq] at ht
      subst x'
      exact ⟨y, h.submit hf hw hc⟩
    | _ => simp [hw] at ht
  | turn w ok =>
    simp only [ClosureRuns.step] at ht
    cases hw : x.thread w with
    | idle => simp [hw] at ht
    | pending j =>
      simp only [Contract, hw] at hc
      simp only [hw, AtomicCalls.step, AtomicCalls.Event.caller, AtomicCalls.call,
        Option.map_some, Option.some.injEq] at ht
      subst x'
      exact ⟨y, h.begin hw hc⟩
    | inside tx j c =>
      simp only [hw] at ht
      obtain ⟨t, hcall, rfl⟩ := Option.map_eq_some_iff.mp ht
      exact h.turn hf hw hcall

omit [DecidableEq ι] in
theorem committed_initial (size : ℕ) :
    committed (AtomicCalls.initial size : State W) = initialMemory size := by
  have hinit : Consistent size (AtomicCalls.initial size : State W) := Consistent.init
  rw [committed_eq_view]
  exact (Option.some.inj (hinit.replay [] .nil)).symm

/-- Nobody is in the library when the workers start. -/
theorem Told.init {tm : State W} (hr : Reachable (AtomicCalls.system W size) Client tm)
    (hidle : tm.active = ∅) (hrep : P.rep a₀ (committed tm)) :
    Told f P a₀ size (ClosureRuns.initial tm : Session ι W R C) ⟨[], [], [], a₀, a₀⟩ := by
  obtain ⟨hi, hs⟩ := reachable_consistent hr
  have hlog : tm.log = [] := (reachable_recorded hr).owned hidle
  have hcount := hi.crew.roster.counts
  rw [hidle, Finset.card_empty] at hcount
  refine ⟨hr, ?_, ⟨.nil, by simp, .nil⟩, hrep, ?_, fun _ => rfl, fun _ => ⟨rfl, rfl⟩,
    fun _ => trivial, ?_, fun u hu => ?_⟩
  · simp only [ClosureRuns.initial]
    rw [hlog]
    exact List.nodup_nil
  · simp only [ClosureRuns.initial]
    rw [hlog]
    exact ⟨_, rfl, hrep⟩
  · intro w v tx j c j' c' hin
    cases hin
  · simp [ClosureRuns.initial, hidle, waiters, hcount.waiters_empty] at hu

theorem reachable_told {tm : State W} (hf : Implements ι f P a₀ permit)
    (hr : Reachable (AtomicCalls.system W size) Client tm) (hidle : tm.active = ∅)
    (hrep : P.rep a₀ (committed tm))
    (h : Reachable (ClosureRuns.system ι f tm) (Contract permit) x) :
    ∃ y, Told f P a₀ size x y := by
  refine h.invariant (I := fun x => ∃ y, Told f P a₀ size x y) ?_ ?_
  · rintro x rfl
    exact ⟨_, Told.init hr hidle hrep⟩
  · rintro x ev x' ⟨y, hy⟩ hc ht
    exact hy.step hf hc ht

/-- What is known of a session, without the story that led there. -/
structure Atomic (P : Spec W R C A) (a₀ : A) (x : Session ι W R C)
    (hist : List (ι × Job C × R)) (a : A) : Prop where
  ran : Ran P.next a₀ hist a
  results : ∀ w, x.results w = ofWorker w hist
  memory : ∃ m, progress x.tm.log (committed x.tm) = some m ∧ P.rep a m
  idle : (∀ w, x.thread w = .idle) → x.tm.active = ∅ ∧ P.rep a (committed x.tm)

theorem Told.atomic (h : Told f P a₀ size x y) : Atomic P a₀ x y.jobs y.cur where
  ran := h.tale.jobs
  results := h.results
  memory := h.cur
  idle hall := by
    have hidle : x.tm.active = ∅ := by
      rw [Finset.eq_empty_iff_forall_notMem]
      intro u hu
      obtain ⟨w, j, c, hw⟩ := h.owned u (.inl hu)
      rw [hall w] at hw
      cases hw
    refine ⟨hidle, ?_⟩
    obtain ⟨m, hm, hrep⟩ := h.cur
    rw [(reachable_recorded h.reach).owned hidle] at hm
    cases hm
    exact hrep

end AtomicClosures
