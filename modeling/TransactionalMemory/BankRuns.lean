import TransactionalMemory.BankSessions

/-! # The phases `init` and `run` of the bank

All workers call `init`, then all of them `run`, any number of times: whatever the order of
their steps, no worker finds an inconsistency. -/
namespace BankRuns

open TransitionSystem
open RegionState (SegId)
open AtomicCalls
open CommittedPointers
open PlainMemory (initialMemory Block)
open Serializability
open AtomicHistories
open AtomicClosures
open ClosureRuns hiding Event Contract system step
open ClosureCode
open BankClosures hiding deallocate allocate allocNext freeNext transfer
open BankSessions
open BankWorkload hiding Event step system init
open BankRefinement

variable {ι : Type*} [DecidableEq ι] (k : Constants) (nbtxperwrk : ℕ)

/-! ## The phase `init` -/

/-- The segments that `init` leaves. -/
def bank : Memory SegId := (create 0).put 0 (some (filled k.nbaccounts k.initBalance))

def initPhase : Phase (Memory SegId) where
  rep := Rep k
  ready a c :=
    match c with
    | .fill => a = create 0 ∨ a = bank k
    | .filled => a = bank k
    | _ => False
  does a c r a' :=
    match c with
    | .fill => r = .void ∧ ∃ t, a.write a.start (fun s => { s with count := k.nbaccounts }) = .ok t ∧
        BankWorkload.fillAccounts k t k.nbaccounts = .ok a'
    | .filled => a' = a ∧ ∃ balance, readAccount k a (a.start, 0) = .ok balance ∧
        r = .bool (decide (balance = k.initBalance))
    | _ => False

/-- The two calls of `transactional` in `init`. -/
def initAsks (_ : ι) (l : List (Captured × Result)) : Captured → Prop
  | .fill => l = []
  | .filled => l.length = 1
  | _ => False

instance (w : ι) (l : List (Captured × Result)) : ∀ c, Decidable (initAsks w l c)
  | .fill => inferInstanceAs (Decidable (l = []))
  | .filled => inferInstanceAs (Decidable (l.length = 1))
  | .long | .alloc _ | .short .. | .setCounter _ | .counterIs _ | .readCounter | .decrement _ =>
    inferInstanceAs (Decidable False)

def inconsistent : String :=
  "Violated consistency (check that committed writes in shared memory get visible " ++
    "to the following transactions' reads)"

/-- What `init` returns, once it has. -/
def initReturns : List (Captured × Result) → Option (Option String)
  | [_, (_, .bool correct)] => some (if correct then none else some inconsistent)
  | _ => none

variable {k}

theorem fill_eq {a : Memory SegId} (h : a = create 0 ∨ a = bank k) :
    ∃ s, a.seg a.start = some s ∧
      BankWorkload.fillAccounts k (a.put a.start (some { s with count := k.nbaccounts }))
        k.nbaccounts = .ok (bank k) := by
  rcases h with rfl | rfl
  · refine ⟨.zeroed, by simp [create], ?_⟩
    rw [fillAccounts_eq (s := { AccountSegment.zeroed with count := k.nbaccounts })
      put_seg_self le_rfl]
    simp [bank, filled, AccountSegment.zeroed]
  · refine ⟨filled k.nbaccounts k.initBalance, put_seg_self, ?_⟩
    rw [fillAccounts_eq (s := { filled k.nbaccounts k.initBalance with count := k.nbaccounts })
      put_seg_self le_rfl]
    simp only [bank, put_put, put_start, create_start, filled]
    congr 4
    funext i
    split_ifs <;> rfl

theorem rep_create : Rep k (create 0) (initialMemory (AccountSegment.size k.nbaccounts)) where
  start := rfl
  laid g s hs := by
    by_cases hg : g = 0
    · subst g
      simp only [create, Function.update_self, Option.some.injEq] at hs
      subst s
      exact ⟨_, by simp [initialMemory], Laid.zeroed _⟩
    · simp [create, Function.update_of_ne hg] at hs
  room := ⟨1, fun g hg => by simp [initialMemory, Nat.ne_of_gt (Nat.lt_of_succ_le hg)]⟩

theorem next_init {a a' : Memory SegId} {c : Captured} {r : Result}
    (h : (initPhase k).next a c r a') : a' = bank k := by
  obtain ⟨hready, hdoes⟩ := h
  cases c with
  | fill =>
    obtain ⟨-, t, ht, hfill⟩ := hdoes
    obtain ⟨s, hs, heq⟩ := fill_eq hready
    obtain ⟨s', hs', rfl⟩ := write_eq_ok.mp ht
    rw [hs, Option.some.injEq] at hs'
    subst s'
    rw [heq] at hfill
    exact (Except.ok.inj hfill).symm
  | filled => exact hdoes.1.trans hready
  | _ => exact hready.elim

omit [DecidableEq ι] in
theorem ran_init {hist : List (ι × Captured × Result)} {a : Memory SegId}
    (h : Ran (initPhase k).next (create 0) hist a) :
    (hist = [] ∧ a = create 0) ∨ (hist ≠ [] ∧ a = bank k) := by
  cases h with
  | nil => exact .inl ⟨rfl, rfl⟩
  | snoc _ hn => exact .inr ⟨by simp, next_init hn⟩

theorem initPhase_correct (hn : 1 ≤ k.nbaccounts) :
    (initPhase k).Correct k (create 0) (@initAsks ι) where
  endEpoch a m h := h.endEpoch
  kinds a c c' hkind h := by obtain rfl | ⟨s, r, s', r', rfl, rfl⟩ := kind_eq hkind <;> exact h
  asksKinds w l c c' hkind h := by
    obtain rfl | ⟨s, r, s', r', rfl, rfl⟩ := kind_eq hkind <;> exact h
  stable a c c' r a' hc hc' hd := by
    obtain rfl : a' = bank k := next_init ⟨hc', hd⟩
    cases c with
    | fill => exact .inr rfl
    | filled => rfl
    | _ => exact hc.elim
  writes a m c hrep hready hro := by
    cases c with
    | fill =>
      obtain ⟨s, hs, hfill⟩ := fill_eq hready
      refine Runs.goto trivial (hrep.writeCount rfl (hrep.start ▸ hs) fun m₁ h₁ => ?_)
      refine Runs.goto (proper_fillAccounts 0) ?_
      rw [hrep.start] at hfill hs
      have hseg : (a.put 0 (some { s with count := k.nbaccounts })).seg
          (a.put 0 (some { s with count := k.nbaccounts })).start =
            some { s with count := k.nbaccounts } := by
        rw [put_start, hrep.start, put_seg_self]
      refine h₁.fillAccounts hseg (Nat.zero_le _) rfl fun a' m' ha' h' => ?_
      · refine ⟨a', ⟨rfl, _, write_eq_ok.mpr ⟨s, ?_, rfl⟩, ?_⟩, h'⟩
        · rw [hrep.start, hs]
        · rw [hrep.start]
          exact ha'
    | filled => cases hro
    | _ => exact hready.elim
  reads a m c hrep hready hro := by
    cases c with
    | filled =>
      obtain rfl : a = bank k := hready
      have hread : readAccount k (bank k) (0, 0) =
          .ok ((filled k.nbaccounts k.initBalance : AccountSegment SegId).accounts 0) :=
        readAccount_eq put_seg_self hn
      have hrun : Runs (source k) true (fun r _ => (initPhase k).does (bank k) .filled r (bank k))
          .filled (readBalance (0, 0) fun balance =>
            .ret (.bool (decide (balance = k.initBalance)))) m :=
        hrep.readBalance hread (Runs.ret ⟨rfl, _, hread, rfl⟩)
      exact Runs.goto trivial hrun
    | fill => cases hro
    | _ => exact hready.elim
  asked hist a w c hran hasks := by
    rcases ran_init hran with ⟨rfl, rfl⟩ | ⟨-, rfl⟩
    · cases c with
      | fill => exact .inl rfl
      | filled => simp [initAsks] at hasks
      | _ => exact hasks.elim
    · cases c with
      | fill => exact .inr rfl
      | filled => rfl
      | _ => exact hasks.elim

/-! ## The phase `run` -/

/-- Where a worker is in `run`; `again` is in the loop around `short_tx`. -/
inductive Stage where
  | loop
  | again
  | returned (error : Option String)
  | thrown
  deriving DecidableEq, Repr

/-- The variables of `run`. -/
structure Worker where
  cntr : ℕ
  count : ℕ
  stage : Stage
  deriving DecidableEq, Repr

/-- A call has returned; the last long transaction is the one after the loop. -/
def Worker.after (nbtxperwrk : ℕ) (p : Worker) : Captured × Result → Worker
  | (_, .long correct nbaccounts) =>
    if p.cntr < nbtxperwrk then
      if correct then { p with cntr := p.cntr + 1, count := nbaccounts.getD p.count }
      else { p with stage := .returned (some "Violated isolation or atomicity") }
    else if correct then { p with stage := .returned none }
    else { p with stage := .returned (some "Violated isolation or atomicity") }
  | (_, .void) => { p with cntr := p.cntr + 1 }
  | (_, .bool true) => { p with cntr := p.cntr + 1, stage := .loop }
  | (_, .bool false) => { p with stage := .again }
  | (_, _) => { p with stage := .thrown }

def worker (k : Constants) (nbtxperwrk : ℕ) (l : List (Captured × Result)) : Worker :=
  l.foldl (Worker.after nbtxperwrk) ⟨0, k.nbaccounts, .loop⟩

/-- The calls of `run`, whatever is drawn. -/
def runAsks (k : Constants) (nbtxperwrk : ℕ) (_ : ι) (l : List (Captured × Result)) :
    Captured → Prop
  | .long => (worker k nbtxperwrk l).stage = .loop
  | .alloc _ =>
    (worker k nbtxperwrk l).stage = .loop ∧ (worker k nbtxperwrk l).cntr < nbtxperwrk
  | .short .. =>
    ((worker k nbtxperwrk l).stage = .loop ∨ (worker k nbtxperwrk l).stage = .again) ∧
      (worker k nbtxperwrk l).cntr < nbtxperwrk
  | _ => False

instance (w : ι) (l : List (Captured × Result)) : ∀ c, Decidable (runAsks k nbtxperwrk w l c)
  | .long => inferInstanceAs (Decidable (_ = _))
  | .alloc _ => inferInstanceAs (Decidable (_ ∧ _))
  | .short .. => inferInstanceAs (Decidable ((_ ∨ _) ∧ _))
  | .fill | .filled | .setCounter _ | .counterIs _ | .readCounter | .decrement _ =>
    inferInstanceAs (Decidable False)

def runPhase (k : Constants) : Phase (Memory SegId) where
  rep := Rep k
  ready a c :=
    match c with
    | .long | .alloc _ | .short .. => ∃ l, Sound k a l 0
    | _ => False
  does a c r a' :=
    match c with
    | .long => a' = a ∧ ∃ fuel correct nbaccounts,
        longTx k fuel a = .ok (correct, nbaccounts) ∧ r = .long correct nbaccounts
    | .alloc trigger => (r = .nomem ∧ a' = a) ∨ (r = .void ∧ ∃ fresh fuel, a.seg fresh = none ∧
        allocTx k trigger fresh fuel a = .ok a')
    | .short sendId recvId => ∃ fuel found,
        shortTx k sendId recvId fuel a = .ok (found, a') ∧ r = .bool found
    | _ => False

variable {a a' : Memory SegId} {c : Captured} {r : Result}

theorem ready_sound (h : (runPhase k).ready a c) : ∃ l, Sound k a l 0 := by
  cases c with
  | long | alloc trigger | short sendId recvId => exact h
  | _ => exact h.elim

/-- A transaction keeps the books. -/
theorem next_sound (hn : 1 ≤ k.nbaccounts) (hb : 0 ≤ k.initBalance)
    (h : (runPhase k).next a c r a') : ∃ l, Sound k a' l 0 := by
  obtain ⟨hready, hdoes⟩ := h
  obtain ⟨l, hl⟩ := ready_sound hready
  cases c with
  | long => exact hdoes.1 ▸ ⟨l, hl⟩
  | alloc trigger =>
    rcases hdoes with ⟨-, rfl⟩ | ⟨-, fresh, fuel, hfresh, ha⟩
    · exact ⟨l, hl⟩
    · have hstep : BankWorkload.step k a (.alloc trigger fresh fuel) = some a' :=
        toOption_eq_some.mpr ha
      have hfree : Allocator a (.alloc trigger fresh fuel) := Option.isNone_iff_eq_none.mpr hfresh
      exact hl.step hn hb hfree hstep
  | short sendId recvId =>
    obtain ⟨fuel, found, hs, -⟩ := hdoes
    have hstep : BankWorkload.step k a (.short sendId recvId fuel) = some a' := by
      rw [BankWorkload.step, hs]
      rfl
    have hfree : Allocator a (.short sendId recvId fuel) := trivial
    exact hl.step hn hb hfree hstep
  | _ => exact hready.elim

/-- What a call in `run` can return. -/
inductive Fine : Result → Prop where
  | void : Fine .void
  | nomem : Fine .nomem
  | bool (found : Bool) : Fine (.bool found)
  | long {count : ℕ} : 1 ≤ count → Fine (.long true (some count))

omit [DecidableEq ι] in
theorem ran_sound {a₀ : Memory SegId} {l₀ : List (SegId × AccountSegment SegId)}
    {hist : List (ι × Captured × Result)} (hn : 1 ≤ k.nbaccounts) (hb : 0 ≤ k.initBalance)
    (h₀ : Sound k a₀ l₀ 0) (h : Ran (runPhase k).next a₀ hist a) : ∃ l, Sound k a l 0 :=
  h.stable (P := fun a => ∃ l, Sound k a l 0) (fun _ _ _ _ _ hnext => next_sound hn hb hnext)
    ⟨l₀, h₀⟩

theorem runPhase_correct {a₀ : Memory SegId} {l₀ : List (SegId × AccountSegment SegId)}
    (hn : 1 ≤ k.nbaccounts) (hb : 0 ≤ k.initBalance) (h₀ : Sound k a₀ l₀ 0) :
    (runPhase k).Correct k a₀ (@runAsks ι k nbtxperwrk) where
  endEpoch a m h := h.endEpoch
  kinds a c c' hkind h := by obtain rfl | ⟨s, r, s', r', rfl, rfl⟩ := kind_eq hkind <;> exact h
  asksKinds w l c c' hkind h := by
    obtain rfl | ⟨s, r, s', r', rfl, rfl⟩ := kind_eq hkind <;> exact h
  stable a c c' r a' hc hc' hd := by
    have hsound := next_sound hn hb ⟨hc', hd⟩
    cases c with
    | long | alloc trigger | short sendId recvId => exact hsound
    | _ => exact hc.elim
  writes a m c hrep hready hro := by
    obtain ⟨l, hl⟩ := ready_sound hready
    cases c with
    | alloc trigger =>
      have hs : Runs (source k) false (fun r m' => ∃ a', (runPhase k).does a (.alloc trigger) r a' ∧
          Rep k a' m') (.alloc trigger) (allocRound k trigger 0 none a.start) m :=
        hrep.allocTx hn (fun fresh hf => hl.allocTx_ok trigger hn hb hf)
          (fun fresh a' m' hf ha' h' => ⟨a', .inr ⟨rfl, fresh, _, hf, ha'⟩, h'⟩)
          ⟨a, .inl ⟨rfl, rfl⟩, hrep⟩
      rw [hrep.start] at hs
      exact Runs.goto trivial hs
    | short sendId recvId =>
      obtain ⟨found, a', -, ⟨n, hrun⟩, -⟩ := hl.shortTx sendId recvId
      have hs : Runs (source k) false (fun r m' => ∃ a', (runPhase k).does a (.short sendId recvId) r
          a' ∧ Rep k a' m') (.short sendId recvId)
            (shortRound ⟨none, sendId⟩ ⟨none, recvId⟩ a.start) m :=
        hrep.shortTx (hrun n le_rfl) fun m' h' => ⟨a', ⟨n, found, hrun n le_rfl, rfl⟩, h'⟩
      rw [hrep.start] at hs
      exact Runs.goto trivial hs
    | long => cases hro
    | _ => exact hready.elim
  reads a m c hrep hready hro := by
    obtain ⟨l, hl⟩ := ready_sound hready
    cases c with
    | long =>
      obtain ⟨n, hrun⟩ := hl.longTx
      have hs : Runs (source k) true (fun r _ => (runPhase k).does a .long r a) .long
          (longRound a.start 0 0) m :=
        hrep.longTx (hrun n le_rfl) ⟨rfl, n, _, _, hrun n le_rfl, rfl⟩
      rw [hrep.start] at hs
      exact Runs.goto trivial hs
    | alloc trigger | short sendId recvId => cases hro
    | _ => exact hready.elim
  asked hist a w c hran hasks := by
    have hsound := ran_sound hn hb h₀ hran
    cases c with
    | long | alloc trigger | short sendId recvId => exact hsound
    | _ => exact hasks.elim

/-- No error, and `count` is never 0, so that there are accounts to draw from. -/
structure Healthy (l : List (Captured × Result)) (p : Worker) : Prop where
  count : 1 ≤ p.count
  error : ∀ e, p.stage = .returned e → e = none
  thrown : p.stage = .thrown → ∃ z ∈ l, z.2 = .nomem

theorem Healthy.after {l : List (Captured × Result)} {p : Worker} (h : Healthy l p)
    (hr : Fine r) : Healthy (l ++ [(c, r)]) (p.after nbtxperwrk (c, r)) := by
  have thrown : p.stage = .thrown → ∃ z ∈ l ++ [(c, r)], z.2 = .nomem := fun ht => by
    obtain ⟨z, hz, heq⟩ := h.thrown ht
    exact ⟨z, by simp [hz], heq⟩
  cases hr with
  | void => exact ⟨h.count, h.error, thrown⟩
  | nomem => exact ⟨h.count, by simp [Worker.after], fun _ => ⟨(c, .nomem), by simp, rfl⟩⟩
  | bool found =>
    cases found with
    | true => exact ⟨h.count, by simp [Worker.after], by simp [Worker.after]⟩
    | false => exact ⟨h.count, by simp [Worker.after], by simp [Worker.after]⟩
  | @long count hcount =>
    by_cases hc : p.cntr < nbtxperwrk
    · simp only [Worker.after, if_pos hc, if_true]
      exact ⟨hcount, h.error, thrown⟩
    · simp only [Worker.after, if_neg hc, if_true]
      exact ⟨h.count, by simp, by simp⟩

/-- The library between two phases of `measure`: no worker has reported an error so far. -/
inductive Measured (k : Constants) (nbtxperwrk : ℕ) (ι : Type*) [DecidableEq ι] :
    State (Word ℤ) → Prop where
  | init {x} : Reachable (BankSessions.system k ι (AtomicCalls.initial
        (AccountSegment.size k.nbaccounts))) (Contract initAsks) x →
      (∀ w, x.thread w = .idle ∧ initReturns (outcomes x w) = some none) →
      Measured k nbtxperwrk ι x.tm
  | run {tm x} : Measured k nbtxperwrk ι tm →
      Reachable (BankSessions.system k ι tm) (Contract (runAsks k nbtxperwrk)) x →
      (∀ w, x.thread w = .idle ∧ (worker k nbtxperwrk (outcomes x w)).stage = .returned none) →
      Measured k nbtxperwrk ι x.tm

variable {x : BankSession ι} {tm : State (Word ℤ)}

theorem accounted_init (hn : 1 ≤ k.nbaccounts)
    (h : Reachable (BankSessions.system k ι (AtomicCalls.initial
      (AccountSegment.size k.nbaccounts))) (Contract initAsks) x) :
    Reachable (AtomicCalls.system (Word ℤ) (AccountSegment.size k.nbaccounts)) Client x.tm ∧
      ∃ hist a, (initPhase k).Accounted (create 0) initAsks x hist a := by
  refine (initPhase_correct hn).accounted (.init rfl) rfl ?_ h
  rw [committed_initial]
  exact rep_create

/-- The library is idle and the segments of the bank are sound. -/
structure Sane (k : Constants) (tm : State (Word ℤ)) (a : Memory SegId)
    (l : List (SegId × AccountSegment SegId)) : Prop where
  reach : Reachable (AtomicCalls.system (Word ℤ) (AccountSegment.size k.nbaccounts)) Client tm
  idle : tm.active = ∅
  rep : Rep k a (committed tm)
  sound : Sound k a l 0

theorem measured_sane [Nonempty ι] (hn : 1 ≤ k.nbaccounts) (hb : 0 ≤ k.initBalance)
    (h : Measured k nbtxperwrk ι tm) : ∃ a l, Sane k tm a l := by
  induction h with
  | @init x hx hall =>
    obtain ⟨hr, hist, a, hacc⟩ := accounted_init hn hx
    obtain ⟨hidle, hrep⟩ := hacc.idle fun w => (hall w).1
    rcases ran_init hacc.ran with ⟨rfl, -⟩ | ⟨-, rfl⟩
    · obtain ⟨w⟩ : Nonempty ι := inferInstance
      have hw := (hall w).2
      rw [hacc.outcomes w] at hw
      simp [initReturns] at hw
    · exact ⟨_, _, hr, hidle, hrep, sound_init hn hb⟩
  | @run tm x _ hx hall ih =>
    obtain ⟨a₀, l₀, h₀⟩ := ih
    obtain ⟨hr, hist, a, hacc⟩ :=
      (runPhase_correct nbtxperwrk hn hb h₀.sound).accounted h₀.reach h₀.idle h₀.rep hx
    obtain ⟨hidle, hrep⟩ := hacc.idle fun w => (hall w).1
    obtain ⟨l, hl⟩ := ran_sound hn hb h₀.sound hacc.ran
    exact ⟨a, l, hr, hidle, hrep, hl⟩

theorem init_correct (hn : 1 ≤ k.nbaccounts) {correct : Bool}
    (h : (initPhase k).next a c (.bool correct) a') : correct = true := by
  obtain ⟨hready, hdoes⟩ := h
  cases c with
  | filled =>
    obtain rfl : a = bank k := hready
    obtain ⟨-, balance, hread, hr⟩ := hdoes
    have heq : readAccount k (bank k) (0, 0) =
        .ok ((filled k.nbaccounts k.initBalance : AccountSegment SegId).accounts 0) :=
      readAccount_eq put_seg_self hn
    rw [show (bank k).start = 0 from rfl, heq] at hread
    cases hread
    simpa [filled, Nat.pos_iff_ne_zero.mp hn] using hr
  | fill => cases hdoes.1
  | _ => exact hready.elim

/-- Workers that fill the first segment at the same time, and read from it, never find
another balance in it. -/
theorem init_consistent (hn : 1 ≤ k.nbaccounts)
    (h : Reachable (BankSessions.system k ι (AtomicCalls.initial
      (AccountSegment.size k.nbaccounts))) (Contract initAsks) x) :
    (∀ w e, initReturns (outcomes x w) = some e → e = none) ∧
      ((∀ w, x.thread w = .idle) → (∃ w, outcomes x w ≠ []) →
        x.tm.active = ∅ ∧ Rep k (bank k) (committed x.tm)) := by
  obtain ⟨-, hist, a, hacc⟩ := accounted_init hn h
  refine ⟨fun w e he => ?_, fun hall ⟨w, hw⟩ => ?_⟩
  · rw [hacc.outcomes w] at he
    obtain ⟨y, c, correct, hl, rfl⟩ : ∃ y c correct, ofWorker w hist = [y, (c, .bool correct)] ∧
        e = if correct then none else some inconsistent := by
      unfold initReturns at he
      split at he
      · rename_i y c correct hl
        exact ⟨y, c, correct, hl, (Option.some.inj he).symm⟩
      · cases he
    have hmem : (c, Result.bool correct) ∈ ofWorker w hist := by simp [hl]
    obtain ⟨b, d, hnext⟩ := hacc.ran.mem (mem_ofWorker.mp hmem)
    rw [init_correct hn hnext, if_pos rfl]
  · obtain ⟨hidle, hrep⟩ := hacc.idle hall
    rcases ran_init hacc.ran with ⟨rfl, -⟩ | ⟨-, rfl⟩
    · rw [hacc.outcomes w] at hw
      simp at hw
    · exact ⟨hidle, hrep⟩

/-- A worker that does all of `init` on two accounts. -/
def filling (w : ι) : List (BankSessions.Event ι) :=
  .call w .fill :: List.replicate 5 (.turn w true) ++ .call w .filled ::
    List.replicate 3 (.turn w true)

theorem init_consistent_three :
    ∃ x, TransitionSystem.run (BankSessions.system ⟨2, 5, true⟩ (Fin 3) (AtomicCalls.initial 5))
        (ClosureRuns.initial (AtomicCalls.initial 5)) ((List.finRange 3).flatMap filling) = some x ∧
      (∀ w, initReturns (outcomes x w) = some none) ∧
      Rep ⟨2, 5, true⟩ (bank ⟨2, 5, true⟩) (committed x.tm) := by
  let M := BankSessions.system ⟨2, 5, true⟩ (Fin 3) (AtomicCalls.initial 5)
  let s : BankSession (Fin 3) := ClosureRuns.initial (AtomicCalls.initial 5)
  let es := (List.finRange 3).flatMap filling
  have hdone : (TransitionSystem.run M s es).all (fun x => decide (∀ w, x.thread w = .idle ∧
      initReturns (outcomes x w) = some none)) = true := by decide +kernel
  obtain ⟨x, hx⟩ : ∃ x, TransitionSystem.run M s es = some x :=
    Option.isSome_iff_exists.mp (by decide +kernel)
  rw [hx, Option.all_some, decide_eq_true_eq] at hdone
  have hreach : Reachable M (Contract initAsks) x :=
    Reachable.run (.init rfl) es (by decide +kernel) hx
  refine ⟨x, hx, fun w => (hdone w).2, ?_⟩
  refine ((init_consistent (k := ⟨2, 5, true⟩) (by decide) hreach).2 (fun w => (hdone w).1)
    ⟨0, fun h => ?_⟩).2
  have hreturns := (hdone 0).2
  rw [h] at hreturns
  cases hreturns

/-- The library after the three workers of `filling`. -/
theorem measured_filling {x : BankSession (Fin 3)}
    (hx : TransitionSystem.run (BankSessions.system ⟨2, 5, true⟩ (Fin 3) (AtomicCalls.initial 5))
      (ClosureRuns.initial (AtomicCalls.initial 5)) ((List.finRange 3).flatMap filling) = some x) :
    Measured ⟨2, 5, true⟩ nbtxperwrk (Fin 3) x.tm := by
  have hdone : (TransitionSystem.run (BankSessions.system ⟨2, 5, true⟩ (Fin 3)
      (AtomicCalls.initial 5)) (ClosureRuns.initial (AtomicCalls.initial 5))
      ((List.finRange 3).flatMap filling)).all (fun x => decide (∀ w, x.thread w = .idle ∧
        initReturns (outcomes x w) = some none)) = true := by decide +kernel
  rw [hx, Option.all_some] at hdone
  exact .init (Reachable.run (.init rfl) _ (by decide +kernel) hx) (of_decide_eq_true hdone)

end BankRuns
