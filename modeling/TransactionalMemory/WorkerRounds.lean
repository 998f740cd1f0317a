import TransactionalMemory.Tally
import TransactionalMemory.TransitionSystem

/-! # Rounds of a master and its workers

The class `Sync`, one atomic operation at a time. One status word and one counter serve the
start and the end of every round. A critical section of the latch is one operation. -/
namespace WorkerRounds

open TransitionSystem
open Tally

inductive Status where
  | wait
  | run
  | abort
  | done
  | fail
  | quit
  deriving DecidableEq, Repr

/-- The next operation of a worker. In `worker_wait`: the load that waits for `wait` or `quit`,
`fetch_add`, the stores of the last one, the load that waits for `run` or `abort`. In
`worker_notify`: the stores for an error, `fetch_add`, and what the last one does. -/
inductive Place (M : Type*) where
  | polling
  | enlisting
  | clearing
  | launching
  | holding
  | working
  | reporting (error : M)
  | aborting
  | arriving
  | resetting
  | judging
  | settling (failed : Bool)
  | raising
  | stopped
  deriving DecidableEq, Repr

/-- The next operation of the master: `master_notify` or `master_join`, the wait for the latch,
the load of the status, the load of the message; after a failed round only `master_join`. -/
inductive Master where
  | ready
  | waiting
  | loading
  | reading
  | failed
  | joined
  | unreachable
  deriving DecidableEq, Repr

/-- The last five fields are history that no operation reads: the calls of `master_notify`, the
returns of `true` from `worker_wait`, the calls of `worker_notify`, what was passed to them
(with its round and worker), and what `master_wait` returned: a message, or `none` for a
time. -/
structure State (n : ℕ) (M : Type*) where
  nbready : ℕ
  status : Status
  errmsg : Option M
  raised : Bool
  master : Master
  worker : Fin n → Place M
  rounds : ℕ
  started : Fin n → ℕ
  notified : Fin n → ℕ
  passed : List (ℕ × Fin n × Option M)
  results : List (Option (Option M))

inductive Event (n : ℕ) (M : Type*) where
  | notify
  | join
  | master
  | work (i : Fin n) (error : Option M)
  | worker (i : Fin n)

variable {n : ℕ} {M : Type*}

def initial : State n M :=
  ⟨0, .done, none, false, .ready, fun _ => .polling, 0, fun _ => 0, fun _ => 0, [], []⟩

def State.move (s : State n M) (i : Fin n) (p : Place M) : State n M :=
  { s with worker := Function.update s.worker i p }

/-- `worker_wait` returns `true`. -/
def State.start (s : State n M) (i : Fin n) : State n M :=
  { s.move i .working with started := Function.update s.started i (s.started i + 1) }

def masterNotify (s : State n M) : Option (State n M) :=
  if s.master = .ready then
    some { s with status := .wait, master := .waiting, rounds := s.rounds + 1 }
  else none

def masterJoin (s : State n M) : Option (State n M) :=
  if s.master = .ready ∨ s.master = .failed then
    some { s with status := .quit, master := .joined }
  else none

/-- The next operation of `master_wait`. -/
def masterWait (s : State n M) : Option (State n M) :=
  match s.master with
  | .waiting => some (if s.raised then { s with raised := false, master := .loading } else s)
  | .loading =>
    match s.status with
    | .done => some { s with master := .ready, results := s.results ++ [none] }
    | .fail => some { s with master := .reading }
    | _ => some { s with master := .unreachable }
  | .reading => some { s with master := .failed, results := s.results ++ [some s.errmsg] }
  | _ => none

/-- The call of `worker_notify`. -/
def workerNotify (s : State n M) (i : Fin n) (error : Option M) : Option (State n M) :=
  match s.worker i with
  | .working => some { s.move i (error.elim .arriving .reporting) with
      notified := Function.update s.notified i (s.notified i + 1)
      passed := (s.notified i, i, error) :: s.passed }
  | _ => none

/-- The next operation of a worker in `worker_wait` or `worker_notify`. -/
def workerStep (s : State n M) (i : Fin n) : Option (State n M) :=
  match s.worker i with
  | .polling =>
    match s.status with
    | .wait => some (s.move i .enlisting)
    | .quit => some (s.move i .stopped)
    | _ => some s
  | .enlisting => some { s.move i (if s.nbready + 1 = n then .clearing else .holding) with
      nbready := s.nbready + 1 }
  | .clearing => some { s.move i .launching with nbready := 0 }
  | .launching => some { s.start i with status := .run }
  | .holding => some (if s.status = .run ∨ s.status = .abort then s.start i else s)
  | .working => none
  | .reporting error => some { s.move i .aborting with errmsg := some error }
  | .aborting => some { s.move i .arriving with status := .abort }
  | .arriving => some { s.move i (if s.nbready + 1 = n then .resetting else .polling) with
      nbready := s.nbready + 1 }
  | .resetting => some { s.move i .judging with nbready := 0 }
  | .judging => some (s.move i (.settling (decide (s.status = .abort))))
  | .settling failed => some { s.move i .raising with
      status := if failed then .fail else .done }
  | .raising => some { s.move i .polling with raised := true }
  | .stopped => none

def step (s : State n M) : Event n M → Option (State n M)
  | .notify => masterNotify s
  | .join => masterJoin s
  | .master => masterWait s
  | .work i error => workerNotify s i error
  | .worker i => workerStep s i

abbrev system (n : ℕ) (M : Type*) : System (State n M) (Event n M) :=
  ⟨fun s => s = initial, step⟩

/-! ### The invariant -/

/-- Some worker passed an error in the round. -/
def Failing (s : State n M) (k : ℕ) : Prop := ∃ i e, (k, i, some e) ∈ s.passed

/-- The message is one that was passed in the round. -/
def Named (s : State n M) (k : ℕ) : Prop := ∃ i m, s.errmsg = some m ∧ (k, i, some m) ∈ s.passed

/-- `f` tells whether the round fails, and then there is a message. -/
structure Heard (s : State n M) (k : ℕ) (f : Prop) : Prop where
  failing : f ↔ Failing s k
  named : f → Named s k

/-- What `master_wait` may return for the round. -/
structure Verdict (s : State n M) (k : ℕ) (r : Option (Option M)) : Prop where
  failing : r.isSome ↔ Failing s k
  message : ∀ e, r = some e → ∃ i m, e = some m ∧ (k, i, some m) ∈ s.passed

/-- Every worker has been in `k` rounds. -/
def Counted (s : State n M) (k : ℕ) : Prop := ∀ i, s.started i = k ∧ s.notified i = k

/-- The master waits for the end of the round. -/
structure InRound (s : State n M) (k : ℕ) : Prop where
  master : s.master = .waiting
  raised : s.raised = false
  rounds : s.rounds = k + 1
  results : s.results.length = k

/-- A worker in the round: not started, at work, or done with it. -/
def Busy (k : ℕ) (s : State n M) (i : Fin n) : Prop :=
  (s.worker i = .holding ∧ s.started i = k ∧ s.notified i = k) ∨
    (s.worker i = .working ∧ s.started i = k + 1 ∧ s.notified i = k) ∨
      (((∃ e, s.worker i = .reporting e) ∨ s.worker i = .aborting ∨ s.worker i = .arriving ∨
        s.worker i = .polling) ∧ s.started i = k + 1 ∧ s.notified i = k + 1)

/-- What has become of the errors of the round while workers are busy. -/
structure Reports (s : State n M) (k : ℕ) : Prop where
  status : s.status = .run ∨ s.status = .abort
  passed : ∀ i e, (k, i, some e) ∈ s.passed →
    s.worker i = .reporting e ∨ s.worker i = .aborting ∨ s.status = .abort
  reporting : ∀ i e, s.worker i = .reporting e → (k, i, some e) ∈ s.passed
  named : (s.status = .abort ∨ ∃ i, s.worker i = .aborting) → Named s k

/-- The last worker to arrive, at the operation `p`. -/
def Finishing (s : State n M) (k : ℕ) : Place M → Prop
  | .resetting => s.nbready = n ∧ (s.status = .run ∨ s.status = .abort) ∧
    Heard s k (s.status = .abort)
  | .judging => s.nbready = 0 ∧ (s.status = .run ∨ s.status = .abort) ∧
    Heard s k (s.status = .abort)
  | .settling failed => s.nbready = 0 ∧ (s.status = .run ∨ s.status = .abort) ∧
    Heard s k (failed = true)
  | .raising => s.nbready = 0 ∧ (s.status = .done ∨ s.status = .fail) ∧
    Heard s k (s.status = .fail)
  | _ => False

/-- The master on its way out of `master_wait`. -/
def Deciding (s : State n M) (k : ℕ) : Master → Prop
  | .waiting => s.raised = true ∧ (s.status = .done ∨ s.status = .fail) ∧
    Heard s k (s.status = .fail)
  | .loading => s.raised = false ∧ (s.status = .done ∨ s.status = .fail) ∧
    Heard s k (s.status = .fail)
  | .reading => s.raised = false ∧ s.status = .fail ∧ Heard s k True
  | _ => False

/-- Between two rounds the master may have come to its end. -/
def Between (s : State n M) : Master → Prop
  | .ready | .failed => (s.status = .done ∨ s.status = .fail) ∧ ∀ i, s.worker i = .polling
  | .joined => s.status = .quit ∧ ∀ i, s.worker i = .polling ∨ s.worker i = .stopped
  | _ => False

variable [DecidableEq M]

/-- The situations that follow one another in every round. -/
inductive Phase (s : State n M) (k : ℕ) : Prop where
  | between : Between s s.master → s.raised = false → s.rounds = k → s.results.length = k →
      Counted s k → s.nbready = 0 → Phase s k
  | gathering : InRound s k → s.status = .wait → Counted s k →
      (∀ i, s.worker i = .polling ∨ s.worker i = .enlisting ∨ s.worker i = .holding) →
      s.nbready = tally (· = .holding) s.worker → s.nbready < n → Phase s k
  | clearing (i : Fin n) : InRound s k → s.status = .wait → Counted s k →
      Solo s.worker i .clearing .holding → s.nbready = n → Phase s k
  | launching (i : Fin n) : InRound s k → s.status = .wait → Counted s k →
      Solo s.worker i .launching .holding → s.nbready = 0 → Phase s k
  | busy : InRound s k → (∀ i, Busy k s i) → Reports s k →
      s.nbready = tally (· = .polling) s.worker → s.nbready < n → Phase s k
  | finishing (i : Fin n) (p : Place M) : InRound s k → Counted s (k + 1) →
      Solo s.worker i p .polling → Finishing s k p → Phase s k
  | deciding : Deciding s k s.master → s.rounds = k + 1 → s.results.length = k →
      Counted s (k + 1) → s.nbready = 0 → (∀ i, s.worker i = .polling) → Phase s k

/-- The calls of `worker_notify` are numbered, and the results so far are right. -/
structure History (s : State n M) : Prop where
  numbered : ∀ k i e, (k, i, e) ∈ s.passed → k < s.notified i
  verdicts : ∀ k r, s.results[k]? = some r → Verdict s k r

structure Invariant (s : State n M) : Prop where
  history : History s
  phase : ∃ k, Phase s k

/-! ### The workers, phase by phase -/

section Workers

variable {s t : State n M} {k : ℕ} {i j : Fin n}

omit [DecidableEq M] in
theorem InRound.keep (hr : InRound s k)
    (h : (t.master, t.raised, t.rounds, t.results) = (s.master, s.raised, s.rounds, s.results)) :
    InRound t k := by
  simp only [Prod.mk.injEq] at h
  obtain ⟨hm, hf, hn, hl⟩ := h
  exact ⟨hm.trans hr.master, hf.trans hr.raised, hn.trans hr.rounds, hl ▸ hr.results⟩

theorem phase_gathering (hr : InRound s k) (hs : s.status = .wait) (hc : Counted s k)
    (hw : ∀ i, s.worker i = .polling ∨ s.worker i = .enlisting ∨ s.worker i = .holding)
    (hb : s.nbready = tally (· = .holding) s.worker) (hn : s.nbready < n)
    (ht : workerStep s i = some t) : Phase t k := by
  have others : ∀ p : Place M, p = .polling ∨ p = .enlisting ∨ p = .holding → ∀ j,
      Function.update s.worker i p j = .polling ∨ Function.update s.worker i p j = .enlisting ∨
        Function.update s.worker i p j = .holding := by
    intro p hp j
    by_cases hj : j = i
    · subst j
      simpa using hp
    · simpa [hj] using hw j
  rcases hw i with hp | hp | hp
  · simp only [workerStep, hp, hs, Option.some.injEq] at ht
    subst t
    apply Phase.gathering
    · exact hr.keep rfl
    · exact hs
    · exact hc
    · exact others .enlisting (by simp)
    · simp only [State.move]
      rw [hb, tally_stay (by simp [hp])]
    · exact hn
  · simp only [workerStep, hp, Option.some.injEq] at ht
    subst t
    by_cases hlast : s.nbready + 1 = n
    · have ho : ∀ j ≠ i, s.worker j = .holding := by
        intro j hj
        refine others_in (p := (· = Place.holding)) (by simp [hp]) ?_ hj
        rw [Fintype.card_fin]
        omega
      apply Phase.clearing i
      · exact hr.keep rfl
      · exact hs
      · exact hc
      · simpa [State.move, hlast] using Solo.update ho _
      · exact hlast
    · have hjoin := tally_join (p := (· = Place.holding)) (f := s.worker) (i := i)
        (a := .holding) (by simp [hp]) rfl
      apply Phase.gathering
      · exact hr.keep rfl
      · exact hs
      · exact hc
      · simpa [State.move, hlast] using others .holding (by simp)
      · simp only [State.move, if_neg hlast]
        omega
      · simp only
        omega
  · simp only [workerStep, hp, hs] at ht
    cases ht
    exact .gathering hr hs hc hw hb hn

theorem phase_clearing (hr : InRound s k) (hs : s.status = .wait) (hc : Counted s k)
    (hj : Solo s.worker j .clearing .holding) (hb : s.nbready = n)
    (ht : workerStep s i = some t) : Phase t k := by
  rcases hj.value i with hp | ⟨rfl, hp⟩
  · simp only [workerStep, hp, hs] at ht
    cases ht
    exact .clearing j hr hs hc hj hb
  · simp only [workerStep, hp, Option.some.injEq] at ht
    subst t
    apply Phase.launching i
    · exact hr.keep rfl
    · exact hs
    · exact hc
    · exact Solo.update hj.at_others _
    · rfl

/-- The store of `run` lets all the workers go. -/
theorem phase_launching (h : History s) (hr : InRound s k) (hs : s.status = .wait)
    (hc : Counted s k) (hj : Solo s.worker j .launching .holding) (hb : s.nbready = 0)
    (ht : workerStep s i = some t) : Phase t k := by
  rcases hj.value i with hp | ⟨rfl, hp⟩
  · simp only [workerStep, hp, hs] at ht
    cases ht
    exact .launching j hr hs hc hj hb
  · simp only [workerStep, hp, Option.some.injEq] at ht
    subst t
    have hsolo := Solo.update hj.at_others .working
    have hnone : tally (· = Place.polling) (Function.update s.worker i .working) = 0 := by
      apply tally_eq_zero
      intro l
      rcases hsolo.value l with hv | ⟨-, hv⟩ <;> simp [hv]
    apply Phase.busy
    · exact hr.keep rfl
    · intro l
      have hl := hc l
      by_cases he : l = i
      · subst l
        exact .inr (.inl (by simp [State.start, State.move, hl]))
      · exact .inl (by simp [State.start, State.move, he, hj.at_others l he, hl])
    · constructor
      · exact .inl rfl
      · intro l e hin
        have := h.numbered k l _ hin
        rw [(hc l).2] at this
        exact (Nat.lt_irrefl _ this).elim
      · intro l e hl
        rcases hsolo.value l with hv | ⟨-, hv⟩
        · exact absurd (hl.symm.trans hv) (by simp)
        · exact absurd (hl.symm.trans hv) (by simp)
      · rintro (hs | ⟨l, hl⟩)
        · cases hs
        · rcases hsolo.value l with hv | ⟨-, hv⟩
          · exact absurd (hl.symm.trans hv) (by simp)
          · exact absurd (hl.symm.trans hv) (by simp)
    · simp only [State.start, State.move]
      rw [hnone, hb]
    · simp only [State.start, State.move, hb]
      exact i.pos

omit [DecidableEq M] in
theorem busy_update (h : ∀ j, Busy k s j) (hi : Busy k t i)
    (hj : ∀ j ≠ i, t.worker j = s.worker j ∧ t.started j = s.started j ∧
      t.notified j = s.notified j) : ∀ j, Busy k t j := by
  intro j
  by_cases he : j = i
  · subst j
    exact hi
  · obtain ⟨hp, hs, hn⟩ := hj j he
    have := h j
    rwa [Busy, ← hp, ← hs, ← hn] at this

omit [DecidableEq M] in
/-- A worker moves between operations that have nothing to do with an error. -/
theorem Reports.move (h : Reports s k) {p : Place M}
    (hi : (∀ e, s.worker i ≠ .reporting e) ∧ s.worker i ≠ .aborting)
    (hp : (∀ e, p ≠ .reporting e) ∧ p ≠ .aborting)
    (ht : t.worker = Function.update s.worker i p) (hs : t.status = s.status)
    (he : t.errmsg = s.errmsg) (hl : t.passed = s.passed) : Reports t k := by
  have same : ∀ j q, (∃ e, q = .reporting e) ∨ q = .aborting →
      (t.worker j = q ↔ s.worker j = q) := by
    intro j q hq
    by_cases hj : j = i
    · subst j
      rw [ht, Function.update_self]
      rcases hq with ⟨e, rfl⟩ | rfl
      · exact iff_of_false (hp.1 e) (hi.1 e)
      · exact iff_of_false hp.2 hi.2
    · rw [ht, Function.update_of_ne hj]
  constructor
  · rw [hs]
    exact h.status
  · intro j e hin
    rw [hl] at hin
    rw [same j _ (.inl ⟨e, rfl⟩), same j _ (.inr rfl), hs]
    exact h.passed j e hin
  · intro j e hj
    rw [hl]
    exact h.reporting j e ((same j _ (.inl ⟨e, rfl⟩)).mp hj)
  · intro hj
    rw [Named, he, hl]
    apply h.named
    rw [hs] at hj
    exact hj.imp_right fun ⟨j, hj⟩ => ⟨j, (same j _ (.inr rfl)).mp hj⟩

omit [DecidableEq M] in
theorem Reports.report (h : Reports s k) {error : M} (hi : s.worker i = .reporting error) :
    Reports { s.move i .aborting with errmsg := some error } k := by
  constructor
  · exact h.status
  · intro j e hin
    by_cases hj : j = i
    · subst j
      exact .inr (.inl (by simp [State.move]))
    · simpa [State.move, hj] using h.passed j e hin
  · intro j e hje
    by_cases hj : j = i
    · subst j
      simp [State.move] at hje
    · exact h.reporting j e (by simpa [State.move, hj] using hje)
  · intro _
    exact ⟨i, error, rfl, h.reporting i error hi⟩

omit [DecidableEq M] in
theorem Reports.abort (h : Reports s k) (hi : s.worker i = .aborting) :
    Reports { s.move i .arriving with status := .abort } k := by
  constructor
  · exact .inr rfl
  · intro j e hin
    exact .inr (.inr rfl)
  · intro j e hje
    by_cases hj : j = i
    · subst j
      simp [State.move] at hje
    · exact h.reporting j e (by simpa [State.move, hj] using hje)
  · intro _
    exact h.named (.inr ⟨i, hi⟩)

omit [DecidableEq M] in
/-- When all have arrived, the status tells about the round. -/
theorem Reports.heard (h : Reports s k)
    (hw : ∀ j, s.worker j = .polling ∨ s.worker j = .arriving) :
    Heard s k (s.status = .abort) := by
  constructor
  · constructor
    · intro hs
      obtain ⟨i, m, -, hin⟩ := h.named (.inl hs)
      exact ⟨i, m, hin⟩
    · rintro ⟨i, e, hin⟩
      rcases h.passed i e hin with hp | hp | hs
      · rcases hw i with hv | hv <;> simp [hp] at hv
      · rcases hw i with hv | hv <;> simp [hp] at hv
      · exact hs
  · intro hs
    exact h.named (.inl hs)

omit [DecidableEq M] in
theorem Busy.arrived (h : Busy k s i) (hp : s.worker i = .polling ∨ s.worker i = .arriving) :
    s.started i = k + 1 ∧ s.notified i = k + 1 := by
  rcases hp with hp | hp <;> simpa [Busy, hp] using h

theorem phase_arriving (hr : InRound s k) (hw : ∀ i, Busy k s i) (hp : Reports s k)
    (hb : s.nbready = tally (· = .polling) s.worker) (hn : s.nbready < n)
    (hi : s.worker i = .arriving) (ht : workerStep s i = some t) : Phase t k := by
  simp only [workerStep, hi, Option.some.injEq] at ht
  subst t
  have hk := (hw i).arrived (.inr hi)
  by_cases hlast : s.nbready + 1 = n
  · have ho : ∀ j ≠ i, s.worker j = .polling := by
      intro j hj
      refine others_in (p := (· = Place.polling)) (by simp [hi]) ?_ hj
      rw [Fintype.card_fin]
      omega
    have hall : ∀ j, s.worker j = .polling ∨ s.worker j = .arriving := by
      intro j
      by_cases hj : j = i
      · subst j
        exact .inr hi
      · exact .inl (ho j hj)
    have hheard := hp.heard hall
    apply Phase.finishing i .resetting
    · exact hr.keep rfl
    · intro j
      exact (hw j).arrived (hall j)
    · simpa [State.move, hlast] using Solo.update ho _
    · exact ⟨hlast, hp.status, ⟨hheard.failing, hheard.named⟩⟩
  · have hjoin := tally_join (p := (· = Place.polling)) (f := s.worker) (i := i)
      (a := .polling) (by simp [hi]) rfl
    apply Phase.busy
    · exact hr.keep rfl
    · refine busy_update (i := i) hw ?_ ?_
      · exact .inr (.inr (by simp [State.move, hlast, hk]))
      · intro j hj
        simp [State.move, hj]
    · refine hp.move (i := i) (p := .polling) (by simp [hi]) (by simp) ?_ rfl rfl rfl
      simp [State.move, hlast]
    · simp only [State.move, if_neg hlast]
      omega
    · simp only
      omega

theorem phase_busy (hr : InRound s k) (hw : ∀ i, Busy k s i) (hp : Reports s k)
    (hb : s.nbready = tally (· = .polling) s.worker) (hn : s.nbready < n)
    (ht : workerStep s i = some t) : Phase t k := by
  have hi := hw i
  cases hpl : s.worker i with
  | holding =>
    simp only [workerStep, hpl, if_pos hp.status, Option.some.injEq] at ht
    subst t
    have hk : s.started i = k ∧ s.notified i = k := by simpa [Busy, hpl] using hi
    apply Phase.busy
    · exact hr.keep rfl
    · refine busy_update (i := i) hw ?_ ?_
      · exact .inr (.inl (by simp [State.start, State.move, hk]))
      · intro j hj
        simp [State.start, State.move, hj]
    · exact hp.move (i := i) (p := .working) (by simp [hpl]) (by simp) rfl rfl rfl rfl
    · simp only [State.start, State.move]
      rw [hb, tally_stay (by simp [hpl])]
    · exact hn
  | polling =>
    have hstay : workerStep s i = some s := by
      rcases hp.status with hs | hs <;> simp [workerStep, hpl, hs]
    rw [hstay] at ht
    cases ht
    exact .busy hr hw hp hb hn
  | reporting error =>
    simp only [workerStep, hpl, Option.some.injEq] at ht
    subst t
    have hk : s.started i = k + 1 ∧ s.notified i = k + 1 := by simpa [Busy, hpl] using hi
    apply Phase.busy
    · exact hr.keep rfl
    · refine busy_update (i := i) hw ?_ ?_
      · exact .inr (.inr (by simp [State.move, hk]))
      · intro j hj
        simp [State.move, hj]
    · exact hp.report hpl
    · simp only [State.move]
      rw [hb, tally_stay (by simp [hpl])]
    · exact hn
  | aborting =>
    simp only [workerStep, hpl, Option.some.injEq] at ht
    subst t
    have hk : s.started i = k + 1 ∧ s.notified i = k + 1 := by simpa [Busy, hpl] using hi
    apply Phase.busy
    · exact hr.keep rfl
    · refine busy_update (i := i) hw ?_ ?_
      · exact .inr (.inr (by simp [State.move, hk]))
      · intro j hj
        simp [State.move, hj]
    · exact hp.abort hpl
    · simp only [State.move]
      rw [hb, tally_stay (by simp [hpl])]
    · exact hn
  | arriving => exact phase_arriving hr hw hp hb hn hpl ht
  | working => simp [workerStep, hpl] at ht
  | _ => simp [Busy, hpl] at hi

/-- The last worker to arrive closes the round. -/
theorem phase_finishing {p : Place M} (hr : InRound s k) (hc : Counted s (k + 1))
    (hj : Solo s.worker j p .polling) (hf : Finishing s k p) (ht : workerStep s i = some t) :
    Phase t k := by
  rcases hj.value i with hp | ⟨rfl, hp⟩
  · have hstay : workerStep s i = some s := by
      cases p with
      | resetting => rcases hf.2.1 with hs | hs <;> simp [workerStep, hp, hs]
      | judging => rcases hf.2.1 with hs | hs <;> simp [workerStep, hp, hs]
      | settling failed => rcases hf.2.1 with hs | hs <;> simp [workerStep, hp, hs]
      | raising => rcases hf.2.1 with hs | hs <;> simp [workerStep, hp, hs]
      | _ => exact hf.elim
    rw [hstay] at ht
    cases ht
    exact .finishing j p hr hc hj hf
  · cases p with
    | resetting =>
      simp only [workerStep, hp, Option.some.injEq] at ht
      subst t
      obtain ⟨-, hs, hh⟩ := hf
      exact .finishing i .judging (hr.keep rfl) hc (Solo.update hj.at_others _)
        ⟨rfl, hs, ⟨hh.failing, hh.named⟩⟩
    | judging =>
      simp only [workerStep, hp, Option.some.injEq] at ht
      subst t
      obtain ⟨hb, hs, hh⟩ := hf
      apply Phase.finishing i (.settling (decide (s.status = .abort)))
      · exact hr.keep rfl
      · exact hc
      · exact Solo.update hj.at_others _
      · exact ⟨hb, hs, ⟨decide_eq_true_iff.trans hh.failing, fun hd => hh.named (by simpa using hd)⟩⟩
    | settling failed =>
      simp only [workerStep, hp, Option.some.injEq] at ht
      subst t
      obtain ⟨hb, -, hh⟩ := hf
      apply Phase.finishing i .raising
      · exact hr.keep rfl
      · exact hc
      · exact Solo.update hj.at_others _
      · cases failed with
        | true => exact ⟨hb, .inr rfl, ⟨iff_of_true rfl (hh.failing.mp rfl), fun _ => hh.named rfl⟩⟩
        | false =>
          refine ⟨hb, .inl rfl, ⟨iff_of_false (by simp) fun hf => ?_, fun hd => by cases hd⟩⟩
          cases hh.failing.mpr hf
    | raising =>
      simp only [workerStep, hp, Option.some.injEq] at ht
      subst t
      obtain ⟨hb, hs, hh⟩ := hf
      have hpoll : ∀ l, Function.update s.worker i .polling l = .polling := by
        intro l
        rcases (Solo.update hj.at_others .polling).value l with hv | ⟨-, hv⟩
        · exact hv
        · exact hv
      apply Phase.deciding
      · simp only [State.move, hr.master]
        exact ⟨rfl, hs, ⟨hh.failing, hh.named⟩⟩
      · exact hr.rounds
      · exact hr.results
      · exact hc
      · exact hb
      · exact hpoll
    | _ => exact hf.elim

theorem phase_between (hm : Between s s.master) (hf : s.raised = false) (hr : s.rounds = k)
    (hl : s.results.length = k) (hc : Counted s k) (hb : s.nbready = 0)
    (ht : workerStep s i = some t) : Phase t k := by
  have idle : (s.status = .done ∨ s.status = .fail) → (∀ i, s.worker i = .polling) → t = s := by
    intro hs hw
    rcases hs with hs | hs <;> simpa [workerStep, hw i, hs, eq_comm] using ht
  cases hma : s.master with
  | joined =>
    rw [hma] at hm
    rcases hm.2 i with hp | hp
    · simp only [workerStep, hp, hm.1, Option.some.injEq] at ht
      subst t
      apply Phase.between
      · simp only [State.move, hma]
        refine ⟨hm.1, fun j => ?_⟩
        by_cases hj : j = i
        · subst j
          exact .inr (by simp)
        · simpa [hj] using hm.2 j
      · exact hf
      · exact hr
      · exact hl
      · exact hc
      · exact hb
    · simp [workerStep, hp] at ht
  | ready =>
    have hm' := hm
    rw [hma] at hm'
    rw [idle hm'.1 hm'.2]
    exact .between hm hf hr hl hc hb
  | failed =>
    have hm' := hm
    rw [hma] at hm'
    rw [idle hm'.1 hm'.2]
    exact .between hm hf hr hl hc hb
  | _ =>
    rw [hma] at hm
    exact hm.elim

omit [DecidableEq M] in
theorem Deciding.settled {m : Master} (h : Deciding s k m) :
    s.status = .done ∨ s.status = .fail := by
  cases m with
  | waiting => exact h.2.1
  | loading => exact h.2.1
  | reading => exact .inr h.2.1
  | _ => exact h.elim

theorem phase_workerStep (h : History s) (hp : Phase s k) (ht : workerStep s i = some t) :
    Phase t k := by
  cases hp with
  | between hm hf hr hl hc hb => exact phase_between hm hf hr hl hc hb ht
  | gathering hr hs hc hw hb hn => exact phase_gathering hr hs hc hw hb hn ht
  | clearing j hr hs hc hj hb => exact phase_clearing hr hs hc hj hb ht
  | launching j hr hs hc hj hb => exact phase_launching h hr hs hc hj hb ht
  | busy hr hw hp hb hn => exact phase_busy hr hw hp hb hn ht
  | finishing j p hr hc hj hf => exact phase_finishing hr hc hj hf ht
  | deciding hd hr hl hc hb hw =>
    have hs := hd.settled
    have hstay : t = s := by
      rcases hs with hs | hs <;> simpa [workerStep, hw i, hs, eq_comm] using ht
    subst t
    exact .deciding hd hr hl hc hb hw

/-- A worker is at work only while the round is on. -/
theorem Phase.at_work (hp : Phase s k) (hi : s.worker i = .working) :
    InRound s k ∧ (∀ j, Busy k s j) ∧ Reports s k ∧
      s.nbready = tally (· = .polling) s.worker ∧ s.nbready < n := by
  cases hp with
  | between hm =>
    exfalso
    cases hma : s.master with
    | ready => exact absurd (hi.symm.trans ((hma ▸ hm : Between s .ready).2 i)) (by simp)
    | failed => exact absurd (hi.symm.trans ((hma ▸ hm : Between s .failed).2 i)) (by simp)
    | joined => simpa [hi] using (hma ▸ hm : Between s .joined).2 i
    | _ => exact (hma ▸ hm : Between s _)
  | gathering _ _ _ hw => simpa [hi] using hw i
  | clearing j _ _ _ hj => rcases hj.value i with hv | ⟨-, hv⟩ <;> simp [hi] at hv
  | launching j _ _ _ hj => rcases hj.value i with hv | ⟨-, hv⟩ <;> simp [hi] at hv
  | busy hr hw hp hb hn => exact ⟨hr, hw, hp, hb, hn⟩
  | finishing j p _ _ hj hf =>
    rcases hj.value i with hv | ⟨-, hv⟩
    · simp [hi] at hv
    · rw [hi] at hv
      subst p
      exact hf.elim
  | deciding _ _ _ _ _ hw => exact absurd (hi.symm.trans (hw i)) (by simp)

theorem phase_workerNotify {error : Option M} (hp : Phase s k)
    (ht : workerNotify s i error = some t) : Phase t k ∧ s.notified i = k ∧ InRound s k ∧
      t.results = s.results ∧ t.passed = (k, i, error) :: s.passed ∧
      t.notified = Function.update s.notified i (k + 1) := by
  cases hi : s.worker i with
  | working =>
    obtain ⟨hr, hw, hp, hb, hn⟩ := hp.at_work hi
    simp only [workerNotify, hi, Option.some.injEq] at ht
    subst t
    have hk : s.started i = k + 1 ∧ s.notified i = k := by simpa [Busy, hi] using hw i
    refine ⟨?_, hk.2, hr, rfl, by rw [hk.2], by rw [hk.2]⟩
    apply Phase.busy
    · exact hr.keep rfl
    · refine busy_update (i := i) hw ?_ ?_
      · refine .inr (.inr ?_)
        cases error <;> simp [State.move, hk]
      · intro j hj
        simp [State.move, hj]
    · constructor
      · exact hp.status
      · intro j e hje
        by_cases hj : j = i
        · subst j
          rw [hk.2, List.mem_cons] at hje
          rcases hje with hje | hje
          · cases hje
            exact .inl (by simp [State.move])
          · rcases hp.passed i e hje with hv | hv | hs
            · simp [hi] at hv
            · simp [hi] at hv
            · exact .inr (.inr hs)
        · have hin : (k, j, some e) ∈ s.passed := by simpa [hj] using hje
          simpa [State.move, hj] using hp.passed j e hin
      · intro j e hje
        by_cases hj : j = i
        · subst j
          cases error with
          | none => simp [State.move] at hje
          | some m =>
            have hme : m = e := by simpa [State.move] using hje
            simp [hk.2, hme]
        · exact List.mem_cons_of_mem _ (hp.reporting j e (by simpa [State.move, hj] using hje))
      · intro hj
        have hold : s.status = .abort ∨ ∃ j, s.worker j = .aborting := by
          refine hj.imp_right fun ⟨j, hj⟩ => ⟨j, ?_⟩
          by_cases hji : j = i
          · subst j
            cases error <;> simp [State.move] at hj
          · simpa [State.move, hji] using hj
        obtain ⟨l, m, herr, hin⟩ := hp.named hold
        exact ⟨l, m, herr, List.mem_cons_of_mem _ hin⟩
    · simp only [State.move]
      rw [hb, tally_stay]
      cases error <;> simp [hi]
    · exact hn
  | _ => simp [workerNotify, hi] at ht

end Workers

/-! ### The master -/

section Masters

variable {s t : State n M} {k : ℕ}

/-- A master that does not wait is between two rounds or settles one. -/
theorem Phase.aside (hp : Phase s k) (hm : s.master ≠ .waiting) :
    (Between s s.master ∧ s.raised = false ∧ s.rounds = k ∧ s.results.length = k ∧
      Counted s k ∧ s.nbready = 0) ∨ Deciding s k s.master := by
  cases hp with
  | between hb hf hr hl hc hz => exact .inl ⟨hb, hf, hr, hl, hc, hz⟩
  | gathering hr => exact (hm hr.master).elim
  | clearing _ hr => exact (hm hr.master).elim
  | launching _ hr => exact (hm hr.master).elim
  | busy hr => exact (hm hr.master).elim
  | finishing _ _ hr => exact (hm hr.master).elim
  | deciding hd => exact .inr hd

theorem phase_masterNotify (hn : 0 < n) (hp : Phase s k) (ht : masterNotify s = some t) :
    Phase t k := by
  rw [masterNotify] at ht
  split_ifs at ht with hm
  cases ht
  rcases hp.aside (by simp [hm]) with ⟨hb, hf, hr, hl, hc, hz⟩ | hd
  · have hw : ∀ i, s.worker i = .polling := (hm ▸ hb : Between s .ready).2
    have hnone : tally (· = Place.holding) s.worker = 0 := by
      apply tally_eq_zero
      intro i
      simp [hw i]
    apply Phase.gathering
    · exact ⟨rfl, hf, by simp [hr], hl⟩
    · rfl
    · exact hc
    · exact fun i => .inl (hw i)
    · exact hz.trans hnone.symm
    · simpa [hz] using hn
  · exact (hm ▸ hd : Deciding s k .ready).elim

theorem phase_masterJoin (hp : Phase s k) (ht : masterJoin s = some t) : Phase t k := by
  rw [masterJoin] at ht
  split_ifs at ht with hm
  cases ht
  rcases hp.aside (by rcases hm with hm | hm <;> simp [hm]) with ⟨hb, hf, hr, hl, hc, hz⟩ | hd
  · have hw : ∀ i, s.worker i = .polling := by
      rcases hm with hm | hm
      · exact (hm ▸ hb : Between s .ready).2
      · exact (hm ▸ hb : Between s .failed).2
    apply Phase.between
    · exact ⟨rfl, fun i => .inl (hw i)⟩
    · exact hf
    · exact hr
    · exact hl
    · exact hc
    · exact hz
  · rcases hm with hm | hm
    · exact (hm ▸ hd : Deciding s k .ready).elim
    · exact (hm ▸ hd : Deciding s k .failed).elim

omit [DecidableEq M] in
/-- The latch is not raised before the end of the round. -/
theorem InRound.stays (hr : InRound s k) : masterWait s = some s := by
  simp [masterWait, hr.master, hr.raised]

/-- What `master_wait` adds to the results, if anything. -/
inductive Returned (s t : State n M) (k : ℕ) : Prop where
  | nothing : Phase t k → t.results = s.results → Returned s t k
  | result (r : Option (Option M)) : Phase t (k + 1) → s.results.length = k →
      t.results = s.results ++ [r] → Verdict s k r → Returned s t k

theorem phase_deciding (hd : Deciding s k s.master) (hr : s.rounds = k + 1)
    (hl : s.results.length = k) (hc : Counted s (k + 1)) (hb : s.nbready = 0)
    (hw : ∀ i, s.worker i = .polling) (ht : masterWait s = some t) : Returned s t k := by
  cases hm : s.master with
  | waiting =>
    rw [hm] at hd
    obtain ⟨hf, hs, hh⟩ := hd
    simp only [masterWait, hm, hf, if_true, Option.some.injEq] at ht
    subst t
    exact .nothing (.deciding ⟨rfl, hs, ⟨hh.failing, hh.named⟩⟩ hr hl hc hb hw) rfl
  | loading =>
    rw [hm] at hd
    obtain ⟨hf, hs, hh⟩ := hd
    rcases hs with hs | hs
    · simp only [masterWait, hm, hs, Option.some.injEq] at ht
      subst t
      have hno : ¬ Failing s k := fun hfail => by
        have := hh.failing.mpr hfail
        rw [hs] at this
        cases this
      refine .result none (.between ⟨.inl rfl, hw⟩ hf hr (by simp [hl]) hc hb) hl rfl ?_
      exact ⟨iff_of_false (by simp) hno, fun e he => by cases he⟩
    · simp only [masterWait, hm, hs, Option.some.injEq] at ht
      subst t
      have hfail := hh.failing.mp hs
      have hnamed := hh.named hs
      exact .nothing (.deciding ⟨hf, rfl, ⟨iff_of_true trivial hfail, fun _ => hnamed⟩⟩ hr hl hc
        hb hw) rfl
  | reading =>
    rw [hm] at hd
    obtain ⟨hf, hs, hh⟩ := hd
    simp only [masterWait, hm, Option.some.injEq] at ht
    subst t
    obtain ⟨i, m, herr, hin⟩ := hh.named trivial
    refine .result (some s.errmsg) (.between ⟨.inr hs, hw⟩ hf hr (by simp [hl]) hc hb) hl rfl ?_
    refine ⟨iff_of_true rfl (hh.failing.mp trivial), fun e he => ⟨i, m, ?_, hin⟩⟩
    rw [← Option.some.inj he]
    exact herr
  | _ =>
    rw [hm] at hd
    exact hd.elim

theorem phase_masterWait (hp : Phase s k) (ht : masterWait s = some t) : Returned s t k := by
  have stays : InRound s k → Returned s t k := by
    intro hr
    rw [hr.stays] at ht
    cases ht
    exact .nothing hp rfl
  cases hp with
  | between hb =>
    cases hm : s.master with
    | ready => simp [masterWait, hm] at ht
    | failed => simp [masterWait, hm] at ht
    | joined => simp [masterWait, hm] at ht
    | _ =>
      rw [hm] at hb
      exact hb.elim
  | gathering hr => exact stays hr
  | clearing _ hr => exact stays hr
  | launching _ hr => exact stays hr
  | busy hr => exact stays hr
  | finishing _ _ hr => exact stays hr
  | deciding hd hr hl hc hb hw => exact phase_deciding hd hr hl hc hb hw ht

end Masters

/-! ### The history -/

section Histories

variable {s t : State n M} {k : ℕ}

omit [DecidableEq M] in
theorem Verdict.congr {r : Option (Option M)} (h : Verdict s k r)
    (hin : ∀ i e, (k, i, e) ∈ t.passed ↔ (k, i, e) ∈ s.passed) : Verdict t k r := by
  constructor
  · simpa only [Failing, hin] using h.failing
  · simpa only [hin] using h.message

omit [DecidableEq M] in
theorem History.congr (h : History s) (hp : t.passed = s.passed) (hn : t.notified = s.notified)
    (hr : t.results = s.results) : History t := by
  constructor
  · rw [hp, hn]
    exact h.numbered
  · rw [hr]
    intro k r hk
    exact (h.verdicts k r hk).congr fun i e => by rw [hp]

omit [DecidableEq M] in
theorem masterWait_history (ht : masterWait s = some t) :
    t.passed = s.passed ∧ t.notified = s.notified := by
  rw [masterWait] at ht
  split at ht
  · cases ht
    split_ifs <;> exact ⟨rfl, rfl⟩
  · split at ht <;> cases ht <;> exact ⟨rfl, rfl⟩
  · cases ht
    exact ⟨rfl, rfl⟩
  · cases ht

omit [DecidableEq M] in
theorem workerStep_history {i : Fin n} (ht : workerStep s i = some t) :
    t.passed = s.passed ∧ t.notified = s.notified ∧ t.results = s.results := by
  cases hp : s.worker i with
  | polling =>
    cases hs : s.status <;> simp only [workerStep, hp, hs, Option.some.injEq] at ht <;> subst t <;>
      exact ⟨rfl, rfl, rfl⟩
  | holding =>
    simp only [workerStep, hp, Option.some.injEq] at ht
    subst t
    split_ifs <;> exact ⟨rfl, rfl, rfl⟩
  | working => simp [workerStep, hp] at ht
  | stopped => simp [workerStep, hp] at ht
  | _ =>
    simp only [workerStep, hp, Option.some.injEq] at ht
    subst t
    exact ⟨rfl, rfl, rfl⟩

theorem history_masterWait (h : History s) (hr : Returned s t k)
    (ht : masterWait s = some t) : History t := by
  obtain ⟨hp, hn⟩ := masterWait_history ht
  cases hr with
  | nothing _ hres => exact h.congr hp hn hres
  | result r _ hl hres hv =>
    constructor
    · rw [hp, hn]
      exact h.numbered
    · intro j q hj
      rw [hres] at hj
      by_cases hlt : j < s.results.length
      · rw [List.getElem?_append_left hlt] at hj
        exact (h.verdicts j q hj).congr fun i e => by rw [hp]
      · have hjk : j = k := by
          obtain ⟨hlen, -⟩ := List.getElem?_eq_some_iff.mp hj
          rw [List.length_append, List.length_singleton] at hlen
          omega
        subst j
        rw [← hl, List.getElem?_concat_length, Option.some.injEq] at hj
        subst q
        exact hv.congr fun i e => by rw [hp]

omit [DecidableEq M] in
theorem history_workerNotify {i : Fin n} {error : Option M} (h : History s) (hr : InRound s k)
    (hk : s.notified i = k) (hres : t.results = s.results)
    (hp : t.passed = (k, i, error) :: s.passed)
    (hn : t.notified = Function.update s.notified i (k + 1)) : History t := by
  constructor
  · intro j l e hin
    rw [hp, List.mem_cons] at hin
    rw [hn]
    by_cases hl : l = i
    · subst l
      rw [Function.update_self]
      rcases hin with hin | hin
      · cases hin
        exact Nat.lt_succ_self k
      · exact Nat.lt_succ_of_lt (hk ▸ h.numbered j i e hin)
    · rw [Function.update_of_ne hl]
      rcases hin with hin | hin
      · cases hin
        exact (hl rfl).elim
      · exact h.numbered j l e hin
  · intro j r hj
    rw [hres] at hj
    have hjk : j ≠ k := by
      obtain ⟨hlen, -⟩ := List.getElem?_eq_some_iff.mp hj
      rw [hr.results] at hlen
      exact Nat.ne_of_lt hlen
    exact (h.verdicts j r hj).congr fun l e => by simp [hp, hjk]

end Histories

theorem step_preserves {s t : State n M} {e : Event n M} (hn : 0 < n) (h : Invariant s)
    (ht : step s e = some t) : Invariant t := by
  obtain ⟨hh, k, hp⟩ := h
  cases e with
  | notify =>
    have hphase := phase_masterNotify hn hp ht
    rw [step, masterNotify] at ht
    split_ifs at ht
    cases ht
    exact ⟨hh.congr rfl rfl rfl, k, hphase⟩
  | join =>
    have hphase := phase_masterJoin hp ht
    rw [step, masterJoin] at ht
    split_ifs at ht
    cases ht
    exact ⟨hh.congr rfl rfl rfl, k, hphase⟩
  | master =>
    have hr := phase_masterWait hp ht
    refine ⟨history_masterWait hh hr ht, ?_⟩
    cases hr with
    | nothing hphase => exact ⟨k, hphase⟩
    | result _ hphase => exact ⟨k + 1, hphase⟩
  | work i error =>
    obtain ⟨hphase, hk, hr, hres, hpassed, hnotified⟩ := phase_workerNotify hp ht
    exact ⟨history_workerNotify hh hr hk hres hpassed hnotified, k, hphase⟩
  | worker i =>
    obtain ⟨hpassed, hnotified, hres⟩ := workerStep_history ht
    exact ⟨hh.congr hpassed hnotified hres, k, phase_workerStep hh hp ht⟩

theorem reachable_invariant {s : State n M} (hn : 0 < n)
    (h : Reachable (system n M) Unrestricted s) : Invariant s := by
  refine h.invariant (I := Invariant) ?_ fun _ _ _ hs _ ht => step_preserves hn hs ht
  rintro _ rfl
  refine ⟨⟨by simp [initial], by simp [initial]⟩, 0, .between ?_ rfl rfl rfl ?_ rfl⟩
  · exact ⟨.inl rfl, fun _ => rfl⟩
  · exact fun _ => ⟨rfl, rfl⟩

/-! ### What the rounds are good for -/

/-- The rounds keep their order. -/
structure Orderly (s : State n M) : Prop where
  ended : ∀ i, s.results.length ≤ s.notified i
  verdicts : ∀ k r, s.results[k]? = some r → Verdict s k r
  expected : s.master ≠ .unreachable
  started : ∀ i, s.started i ≤ s.rounds ∧ ∀ j, s.started i ≤ s.notified j + 1
  joined : s.master = .joined → ∀ i, s.worker i = .stopped ∨
    workerStep s i = some (s.move i .stopped)

/-- How many rounds each worker has been in, in the round `k`. -/
theorem Phase.counts {s : State n M} {k : ℕ} (h : Phase s k) (i : Fin n) :
    s.results.length = k ∧ k ≤ s.notified i ∧ s.started i ≤ k + 1 ∧ s.started i ≤ s.rounds := by
  cases h with
  | between _ _ hr hl hc _ => simp [hr, hl, hc i]
  | gathering hr _ hc => simp [hr.rounds, hr.results, hc i]
  | clearing _ hr _ hc => simp [hr.rounds, hr.results, hc i]
  | launching _ hr _ hc => simp [hr.rounds, hr.results, hc i]
  | busy hr hw =>
    have hi := hw i
    have hrounds := hr.rounds
    refine ⟨hr.results, ?_⟩
    simp only [Busy] at hi
    omega
  | finishing _ _ hr hc => simp [hr.rounds, hr.results, hc i]
  | deciding _ hr hl hc => simp [hr, hl, hc i]

theorem Phase.expected {s : State n M} {k : ℕ} (h : Phase s k) : s.master ≠ .unreachable := by
  intro hm
  rcases h.aside (by simp [hm]) with ⟨hb, -⟩ | hd
  · exact (hm ▸ hb : Between s .unreachable)
  · exact (hm ▸ hd : Deciding s k .unreachable)

theorem Phase.joined {s : State n M} {k : ℕ} (h : Phase s k) (hm : s.master = .joined)
    (i : Fin n) : s.worker i = .stopped ∨ workerStep s i = some (s.move i .stopped) := by
  rcases h.aside (by simp [hm]) with ⟨hb, -⟩ | hd
  · rw [hm] at hb
    rcases hb.2 i with hp | hp
    · exact .inr (by simp [workerStep, hp, hb.1])
    · exact .inl hp
  · exact (hm ▸ hd : Deciding s k .joined).elim

/-- In every interleaving `master_wait` returns after all workers have notified, it tells
whether one of them passed an error, and which; no worker starts before all have ended the
round before it; and when the master has joined, `worker_wait` returns `false`. -/
theorem master_worker_rounds {s : State n M} (hn : 0 < n)
    (h : Reachable (system n M) Unrestricted s) : Orderly s := by
  obtain ⟨hh, k, hk⟩ := reachable_invariant hn h
  constructor
  · intro i
    have := hk.counts i
    omega
  · exact hh.verdicts
  · exact hk.expected
  · intro i
    refine ⟨(hk.counts i).2.2.2, fun j => ?_⟩
    have hi := hk.counts i
    have hj := hk.counts j
    omega
  · exact hk.joined

def hasty : Fin 2 := ⟨0, Nat.zero_lt_two⟩
def late : Fin 2 := ⟨1, Nat.one_lt_two⟩

/-- One worker fails before the other has seen that the round is on. -/
def earlyFailure : List (Event 2 String) :=
  [.notify, .worker hasty, .worker late, .worker late, .worker hasty, .worker hasty,
    .worker hasty, .work hasty (some "x"), .worker hasty, .worker hasty, .worker hasty,
    .worker late, .work late none, .worker late, .worker late, .worker late, .worker late,
    .worker late, .master, .master, .master, .join, .worker hasty]

def afterFailure : State 2 String := (run (system 2 String) initial earlyFailure).getD initial

theorem master_worker_rounds_failure : afterFailure.results = [some (some "x")] ∧
    Orderly afterFailure := by
  have hr : Reachable (system 2 String) Unrestricted afterFailure :=
    .run (.init rfl) earlyFailure (by decide) rfl
  exact ⟨by decide, master_worker_rounds (by decide) hr⟩

end WorkerRounds
