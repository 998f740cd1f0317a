import Mathlib.Data.Fintype.Basic
import Mathlib.Data.Fintype.Card
import TransactionalMemory.BatcherState
import TransactionalMemory.TransitionSystem

/-! # Threads in the batcher

Any number of threads, each repeating `enter_batcher` and `leave_batcher`. A thread in
`pthread_cond_wait` is parked; a broadcast takes it off the condition variable, and it
returns at some later step, when it has the mutex again. POSIX also lets it return
while it is still on the condition variable: that is the event `spurious`. -/
namespace BatcherEpochs

open TransitionSystem
open BatcherState

/-- `parked e` waits since epoch `e`; `inside e` has returned from `enter_batcher` in
epoch `e`; `leaving e` has called `leave_batcher` and does not have the mutex yet. -/
inductive Place where
  | outside
  | calling
  | parked (e : ℕ)
  | inside (e : ℕ)
  | leaving (e : ℕ)
  deriving DecidableEq, Repr

/-- One completed pass of a thread, with the times of its call and of its departure. -/
structure Visit where
  epoch : ℕ
  calledAt : ℕ
  leftAt : ℕ

/-- The batcher and the threads; `epoch` counts the closed epochs, and the last three
fields are history that no step reads. -/
structure State (n : ℕ) where
  b : Batcher (Fin n)
  place : Fin n → Place
  epoch : ℕ
  clock : ℕ
  calledAt : Fin n → ℕ
  visits : List Visit

inductive Event (n : ℕ) where
  | call (i : Fin n)
  | enter (i : Fin n)
  | wake (i : Fin n)
  | spurious (i : Fin n)
  | release (i : Fin n)
  | leave (i : Fin n)
  deriving DecidableEq, Repr

variable {n : ℕ}

def initial : State n := ⟨initBatcher, fun _ => .outside, 0, 0, fun _ => 0, []⟩

def State.move (s : State n) (i : Fin n) (p : Place) : State n :=
  { s with place := Function.update s.place i p, clock := s.clock + 1 }

def step (s : State n) : Event n → Option (State n)
  | .call i =>
    match s.place i with
    | .outside => some { s.move i .calling with
        calledAt := Function.update s.calledAt i s.clock }
    | _ => none
  | .enter i =>
    match s.place i with
    | .calling =>
      let p := if s.b.remaining = 0 then Place.inside s.epoch else .parked s.epoch
      some { s.move i p with b := enterBatcher s.b i }
    | _ => none
  | .wake i =>
    match s.place i with
    | .parked e => if i ∈ s.b.waiters then none else some (s.move i (.inside (e + 1)))
    | _ => none
  | .spurious i =>
    match s.place i with
    | .parked e =>
      if i ∈ s.b.waiters then
        some { s.move i (.inside e) with b := { s.b with waiters := s.b.waiters.erase i } }
      else none
    | _ => none
  | .release i =>
    match s.place i with
    | .inside e => some (s.move i (.leaving e))
    | _ => none
  | .leave i =>
    match s.place i with
    | .leaving e => some { s.move i .outside with
        b := leaveBatcher s.b
        epoch := if lastToLeave s.b then s.epoch + 1 else s.epoch
        visits := ⟨e, s.calledAt i, s.clock⟩ :: s.visits }
    | _ => none

abbrev system (n : ℕ) : System (State n) (Event n) := ⟨fun s => s = initial, step⟩

/-- `pthread_cond_wait` returns only because of a broadcast issued after the wait began. -/
def NoSpurious (_ : State n) : Event n → Prop
  | .spurious _ => False
  | _ => True

instance (s : State n) (e : Event n) : Decidable (NoSpurious s e) := by
  cases e <;> simp only [NoSpurious] <;> infer_instance

/-- The epoch that a place stands for, for a thread on the condition variable or off it. -/
def Place.admission (waits : Bool) : Place → Option ℕ
  | .parked e => if waits then none else some (e + 1)
  | .inside e | .leaving e => some e
  | .outside | .calling => none

/-- The epoch a thread is admitted to. A broadcast admits the parked threads at once,
before they have the mutex again. -/
def State.admission (s : State n) (i : Fin n) : Option ℕ :=
  (s.place i).admission (decide (i ∈ s.b.waiters))

def State.waitingSince (s : State n) (i : Fin n) : Option ℕ :=
  match s.place i with
  | .parked e => if i ∈ s.b.waiters then some e else none
  | _ => none

def State.admitted (s : State n) : Finset (Fin n) :=
  Finset.univ.filter fun i => s.admission i = some s.epoch
def State.waiting (s : State n) : Finset (Fin n) :=
  Finset.univ.filter fun i => (s.waitingSince i).isSome

@[simp] theorem mem_admitted {s : State n} {i : Fin n} :
    i ∈ s.admitted ↔ s.admission i = some s.epoch := by simp [State.admitted]

theorem admission_eq {s t : State n} {i : Fin n} (hp : t.place i = s.place i)
    (hw : i ∈ t.b.waiters ↔ i ∈ s.b.waiters) : t.admission i = s.admission i := by
  simp [State.admission, hp, hw]

structure Invariant (s : State n) : Prop where
  counts : Counts s.b s.admitted.card
  parked : ∀ i ∈ s.b.waiters, s.place i = .parked s.epoch
  current : ∀ i e, s.admission i = some e → e = s.epoch
  counter : s.b.counter = toInt s.epoch

private theorem initial_invariant : Invariant (initial : State n) := by
  have hnone : ∀ i, (initial : State n).admission i = none := fun i => rfl
  have hempty : (initial : State n).admitted = ∅ := by
    ext i
    rw [mem_admitted, hnone i]
    simp
  refine ⟨by rw [hempty]; exact Counts.init, ?_, ?_, ?_⟩
  · simp [initial, initBatcher]
  · simp [hnone]
  · simp [initial, initBatcher, toInt]

/-- A step that moves one thread without changing who is admitted. -/
theorem Invariant.relabel {s t : State n} (h : Invariant s) (hb : t.b = s.b)
    (he : t.epoch = s.epoch) (ha : ∀ j, t.admission j = s.admission j)
    (hp : ∀ j ∈ s.b.waiters, t.place j = s.place j) : Invariant t := by
  have hset : t.admitted = s.admitted := by
    ext j
    rw [mem_admitted, mem_admitted, ha, he]
  refine ⟨by rw [hset, hb]; exact h.counts, ?_, ?_, by rw [hb, he]; exact h.counter⟩
  · intro j hj
    rw [hb] at hj
    rw [hp j hj, he]
    exact h.parked j hj
  · intro j e hj
    rw [he]
    exact h.current j e (ha j ▸ hj)

/-- What moving thread `i` to `p` leaves alone. -/
structure Moved (s t : State n) (i : Fin n) (p : Place) : Prop where
  here : t.place i = p
  elsewhere : ∀ j, j ≠ i → t.place j = s.place j

theorem moved_update {s : State n} {t : State n} {i : Fin n} {p : Place}
    (h : t.place = Function.update s.place i p) : Moved s t i p :=
  ⟨by rw [h, Function.update_self], fun j hj => by rw [h, Function.update_of_ne hj]⟩

theorem call_cases {s t : State n} {i : Fin n} (hs : step s (.call i) = some t) :
    s.place i = .outside ∧ Moved s t i .calling ∧ t.b = s.b ∧ t.epoch = s.epoch ∧
      t.calledAt = Function.update s.calledAt i s.clock ∧ t.visits = s.visits ∧
      t.clock = s.clock + 1 := by
  simp only [step] at hs
  split at hs
  case h_1 hp => cases hs; exact ⟨hp, moved_update rfl, rfl, rfl, rfl, rfl, rfl⟩
  case h_2 => cases hs

theorem enter_cases {s t : State n} {i : Fin n} (hs : step s (.enter i) = some t) :
    s.place i = .calling ∧
      Moved s t i (if s.b.remaining = 0 then .inside s.epoch else .parked s.epoch) ∧
      t.b = enterBatcher s.b i ∧ t.epoch = s.epoch ∧
      t.calledAt = s.calledAt ∧ t.visits = s.visits ∧ t.clock = s.clock + 1 := by
  simp only [step] at hs
  split at hs
  case h_1 hp => cases hs; exact ⟨hp, moved_update rfl, rfl, rfl, rfl, rfl, rfl⟩
  case h_2 => cases hs

theorem wake_cases {s t : State n} {i : Fin n} (hs : step s (.wake i) = some t) :
    ∃ e, s.place i = .parked e ∧ i ∉ s.b.waiters ∧ Moved s t i (.inside (e + 1)) ∧
      t.b = s.b ∧ t.epoch = s.epoch ∧
      t.calledAt = s.calledAt ∧ t.visits = s.visits ∧ t.clock = s.clock + 1 := by
  simp only [step] at hs
  split at hs
  case h_1 e hp =>
    split at hs
    case isTrue => cases hs
    case isFalse hw => cases hs; exact ⟨e, hp, hw, moved_update rfl, rfl, rfl, rfl, rfl, rfl⟩
  case h_2 => cases hs

theorem spurious_cases {s t : State n} {i : Fin n} (hs : step s (.spurious i) = some t) :
    ∃ e, s.place i = .parked e ∧ i ∈ s.b.waiters ∧ Moved s t i (.inside e) ∧
      t.b = { s.b with waiters := s.b.waiters.erase i } := by
  simp only [step] at hs
  split at hs
  case h_1 e hp =>
    split at hs
    case isTrue hw => cases hs; exact ⟨e, hp, hw, moved_update rfl, rfl⟩
    case isFalse => cases hs
  case h_2 => cases hs

theorem release_cases {s t : State n} {i : Fin n} (hs : step s (.release i) = some t) :
    ∃ e, s.place i = .inside e ∧ Moved s t i (.leaving e) ∧ t.b = s.b ∧ t.epoch = s.epoch ∧
      t.calledAt = s.calledAt ∧ t.visits = s.visits ∧ t.clock = s.clock + 1 := by
  simp only [step] at hs
  split at hs
  case h_1 e hp => cases hs; exact ⟨e, hp, moved_update rfl, rfl, rfl, rfl, rfl, rfl⟩
  case h_2 => cases hs

theorem leave_cases {s t : State n} {i : Fin n} (hs : step s (.leave i) = some t) :
    ∃ e, s.place i = .leaving e ∧ Moved s t i .outside ∧ t.b = leaveBatcher s.b ∧
      t.epoch = (if lastToLeave s.b then s.epoch + 1 else s.epoch) ∧
      t.calledAt = s.calledAt ∧ t.visits = ⟨e, s.calledAt i, s.clock⟩ :: s.visits ∧
      t.clock = s.clock + 1 := by
  simp only [step] at hs
  split at hs
  case h_1 e hp => cases hs; exact ⟨e, hp, moved_update rfl, rfl, rfl, rfl, rfl, rfl⟩
  case h_2 => cases hs

/-- A thread moves between two places that stand for the same epoch. -/
theorem Moved.admission {s t : State n} {i : Fin n} {p : Place} (h : Moved s t i p)
    (hb : t.b = s.b) (hp : p.admission (decide (i ∈ s.b.waiters)) = s.admission i) (j : Fin n) :
    t.admission j = s.admission j := by
  by_cases hj : j = i
  · subst j
    rw [← hp, State.admission, h.here, hb]
  · exact admission_eq (h.elsewhere j hj) (by rw [hb])

theorem call_admission {s t : State n} {i : Fin n} (hs : step s (.call i) = some t) (j : Fin n) :
    t.admission j = s.admission j := by
  obtain ⟨hp, hm, hb, -⟩ := call_cases hs
  exact hm.admission hb (by simp [State.admission, hp, Place.admission]) j

theorem wake_admission {s t : State n} {i : Fin n} (hs : step s (.wake i) = some t) (j : Fin n) :
    t.admission j = s.admission j := by
  obtain ⟨e, hp, hw, hm, hb, -⟩ := wake_cases hs
  exact hm.admission hb (by simp [State.admission, hp, Place.admission, hw]) j

theorem release_admission {s t : State n} {i : Fin n} (hs : step s (.release i) = some t)
    (j : Fin n) : t.admission j = s.admission j := by
  obtain ⟨e, hp, hm, hb, -⟩ := release_cases hs
  exact hm.admission hb (by simp [State.admission, hp, Place.admission]) j

theorem Invariant.not_waiting {s : State n} (h : Invariant s) {i : Fin n}
    (hn : ∀ e, s.place i ≠ .parked e) : i ∉ s.b.waiters :=
  fun hi => hn _ (h.parked i hi)

theorem Invariant.none_admitted {s : State n} (h : Invariant s) (h0 : s.admitted.card = 0)
    (i : Fin n) : s.admission i = none := by
  cases hi : s.admission i with
  | none => rfl
  | some e =>
    have hm : i ∈ s.admitted := by rw [mem_admitted, hi, h.current i e hi]
    rw [Finset.card_eq_zero.mp h0] at hm
    exact (Finset.notMem_empty i hm).elim

/-- Every thread is counted at most once, so no counter reaches `2 ^ 31`. -/
theorem Invariant.room {s : State n} (h : Invariant s) (hn : n < 2 ^ 31) {i : Fin n}
    (ha : s.admission i = none) (hw : i ∉ s.b.waiters) :
    s.admitted.card + s.b.waiters.card + 1 < 2 ^ 31 := by
  have hd : Disjoint s.admitted s.b.waiters := by
    rw [Finset.disjoint_left]
    intro j hj hjw
    rw [mem_admitted, State.admission, h.parked j hjw] at hj
    simp [Place.admission, hjw] at hj
  have hi : i ∉ s.admitted ∪ s.b.waiters := by
    simp [ha, hw]
  have hc : (insert i (s.admitted ∪ s.b.waiters)).card ≤ n := by
    simpa using Finset.card_le_univ (insert i (s.admitted ∪ s.b.waiters))
  rw [Finset.card_insert_of_notMem hi, Finset.card_union_of_disjoint hd] at hc
  omega

/-- The first thread of an epoch: nobody is admitted, so nobody waits either. -/
theorem enter_first_preserves {s t : State n} {i : Fin n} (h : Invariant s)
    (hs : step s (.enter i) = some t) (h0 : s.b.remaining = 0) : Invariant t := by
  obtain ⟨-, hm, hb, he, -⟩ := enter_cases hs
  rw [if_pos h0] at hm
  have hk : s.admitted.card = 0 := by
    have := h.counts.remaining
    omega
  obtain ⟨hcount, hempty⟩ := (hk ▸ h.counts).enter_first i
  have hws : s.b.waiters = ∅ := (hk ▸ h.counts).waiters_empty
  have hself : t.admission i = some t.epoch := by
    simp [State.admission, hm.here, Place.admission, he]
  have hother : ∀ j, j ≠ i → t.admission j = none := fun j hj =>
    (admission_eq (hm.elsewhere j hj) (by rw [hb, hempty, hws])).trans (h.none_admitted hk j)
  have hset : t.admitted = {i} := by
    ext j
    by_cases hj : j = i
    · simp [hj, hself]
    · simp [hother j hj, hj]
  refine ⟨by rw [hset, hb]; simpa using hcount, ?_, ?_, ?_⟩
  · rw [hb, hempty]
    simp
  · intro j e hj
    by_cases hji : j = i
    · rw [hji, hself] at hj
      exact (Option.some.inj hj).symm
    · rw [hother j hji] at hj
      cases hj
  · rw [hb, he, enterBatcher, if_pos h0]
    exact h.counter

/-- A thread that waits for the next epoch. -/
theorem enter_wait_preserves {s t : State n} {i : Fin n} (hn : n < 2 ^ 31) (h : Invariant s)
    (hs : step s (.enter i) = some t) (h0 : s.b.remaining ≠ 0) : Invariant t := by
  obtain ⟨hc, hm, hb, he, -⟩ := enter_cases hs
  have hw : i ∉ s.b.waiters := h.not_waiting (by simp [hc])
  have hi : s.admission i = none := by simp [State.admission, hc, Place.admission]
  rw [if_neg h0] at hm
  have hk : 0 < s.admitted.card := by
    have := h.counts.remaining
    omega
  obtain ⟨hcount, hwait⟩ := h.counts.enter_wait hk hw (h.room hn hi hw)
  have hself : t.admission i = none := by
    simp [State.admission, hm.here, Place.admission, hb, hwait]
  have hall : ∀ j, t.admission j = s.admission j := by
    intro j
    by_cases hj : j = i
    · rw [hj, hself, hi]
    · exact admission_eq (hm.elsewhere j hj) (by simp [hb, hwait, hj])
  have hset : t.admitted = s.admitted := by
    ext j
    rw [mem_admitted, mem_admitted, hall, he]
  refine ⟨by rw [hset, hb]; exact hcount, ?_, ?_, ?_⟩
  · intro j hj
    rw [hb, hwait] at hj
    rcases Finset.mem_insert.mp hj with rfl | hj
    · rw [hm.here, he]
    · rw [hm.elsewhere j (fun hji => hw (hji ▸ hj)), he]
      exact h.parked j hj
  · intro j e hj
    rw [he]
    exact h.current j e (hall j ▸ hj)
  · rw [hb, he, enterBatcher, if_neg h0]
    exact h.counter

theorem enter_preserves {s t : State n} {i : Fin n} (hn : n < 2 ^ 31) (h : Invariant s)
    (hs : step s (.enter i) = some t) : Invariant t := by
  by_cases h0 : s.b.remaining = 0
  · exact enter_first_preserves h hs h0
  · exact enter_wait_preserves hn h hs h0

/-- Who leaves was admitted to the epoch, and is not any more. -/
theorem leave_admitted {s t : State n} {i : Fin n} (h : Invariant s)
    (hs : step s (.leave i) = some t) :
    i ∈ s.admitted ∧ i ∉ s.b.waiters ∧ t.admission i = none := by
  obtain ⟨e, hl, hm, -⟩ := leave_cases hs
  have hi : s.admission i = some e := by simp [State.admission, hl, Place.admission]
  refine ⟨?_, h.not_waiting (by simp [hl]), ?_⟩
  · rw [mem_admitted, hi, h.current i e hi]
  · simp [State.admission, hm.here, Place.admission]

/-- The epoch closes and its waiters make up the next one. -/
theorem leave_last_preserves {s t : State n} {i : Fin n} (h : Invariant s)
    (hs : step s (.leave i) = some t) (h1 : s.admitted.card = 1) : Invariant t := by
  obtain ⟨hmem, hw, hself⟩ := leave_admitted h hs
  obtain ⟨-, -, hm, hb, he, -⟩ := leave_cases hs
  have hlast := (h.counts.last_iff (Finset.card_pos.mpr ⟨i, hmem⟩)).mpr h1
  rw [if_pos hlast] at he
  obtain ⟨hcount, hempty, hcounter⟩ := (h1 ▸ h.counts).leave_last
  have hwaiter : ∀ j ∈ s.b.waiters, t.admission j = some t.epoch := by
    intro j hj
    have hji : j ≠ i := fun hji => hw (hji ▸ hj)
    simp [State.admission, hm.elsewhere j hji, h.parked j hj, Place.admission, hb, hempty, he]
  have hother : ∀ j, j ∉ s.b.waiters → t.admission j = none := by
    intro j hj
    by_cases hji : j = i
    · rw [hji, hself]
    · rw [admission_eq (hm.elsewhere j hji) (by simp [hb, hempty, hj])]
      cases hja : s.admission j with
      | none => rfl
      | some d =>
        have hjm : j ∈ s.admitted := by rw [mem_admitted, hja, h.current j d hja]
        exact (hji (Finset.card_le_one.mp h1.le j hjm i hmem)).elim
  have hset : t.admitted = s.b.waiters := by
    ext j
    by_cases hj : j ∈ s.b.waiters
    · simp [hj, hwaiter j hj]
    · simp [hj, hother j hj]
  refine ⟨by rw [hset, hb]; exact hcount, by rw [hb, hempty]; simp, ?_, ?_⟩
  · intro j d hj
    by_cases hjw : j ∈ s.b.waiters
    · rw [hwaiter j hjw] at hj
      exact (Option.some.inj hj).symm
    · rw [hother j hjw] at hj
      cases hj
  · rw [hb, hcounter, h.counter, toInt_add_one, he]
    push_cast
    rfl

/-- The epoch stays open for the others. -/
theorem leave_more_preserves {s t : State n} {i : Fin n} (h : Invariant s)
    (hs : step s (.leave i) = some t) (h1 : s.admitted.card ≠ 1) : Invariant t := by
  obtain ⟨hmem, hw, hself⟩ := leave_admitted h hs
  obtain ⟨-, -, hm, hb, he, -⟩ := leave_cases hs
  have hpos : 0 < s.admitted.card := Finset.card_pos.mpr ⟨i, hmem⟩
  obtain ⟨k, hk⟩ : ∃ k, s.admitted.card = k + 1 := ⟨s.admitted.card - 1, by omega⟩
  have hlast : lastToLeave s.b = false := by
    rw [Bool.eq_false_iff, ne_eq, h.counts.last_iff hpos]
    exact h1
  rw [hlast] at he
  simp only [Bool.false_eq_true, if_false] at he
  obtain ⟨hcount, hwait, hcounter⟩ := (hk ▸ h.counts).leave_more (by omega)
  have hother : ∀ j, j ≠ i → t.admission j = s.admission j := fun j hj =>
    admission_eq (hm.elsewhere j hj) (by rw [hb, hwait])
  have hset : t.admitted = s.admitted.erase i := by
    ext j
    by_cases hj : j = i
    · simp [hj, hself]
    · simp [hj, hother j hj, he]
  refine ⟨?_, ?_, ?_, ?_⟩
  · rw [hset, hb, Finset.card_erase_of_mem hmem, hk]
    exact hcount
  · intro j hj
    rw [hb, hwait] at hj
    rw [hm.elsewhere j (fun hji => hw (hji ▸ hj)), he]
    exact h.parked j hj
  · intro j d hj
    by_cases hji : j = i
    · rw [hji, hself] at hj
      cases hj
    · rw [he]
      exact h.current j d (hother j hji ▸ hj)
  · rw [hb, hcounter, he]
    exact h.counter

theorem leave_preserves {s t : State n} {i : Fin n} (h : Invariant s)
    (hs : step s (.leave i) = some t) : Invariant t := by
  by_cases h1 : s.admitted.card = 1
  · exact leave_last_preserves h hs h1
  · exact leave_more_preserves h hs h1

theorem step_preserves {s t : State n} {e : Event n} (hn : n < 2 ^ 31) (h : Invariant s)
    (hc : NoSpurious s e) (hs : step s e = some t) : Invariant t := by
  cases e with
  | call i =>
    obtain ⟨hp, hm, hb, he, -⟩ := call_cases hs
    exact h.relabel hb he (call_admission hs) fun j hj =>
      hm.elsewhere j (fun hji => h.not_waiting (by simp [hp]) (hji ▸ hj))
  | enter i => exact enter_preserves hn h hs
  | wake i =>
    obtain ⟨e, hp, hw, hm, hb, he, -⟩ := wake_cases hs
    exact h.relabel hb he (wake_admission hs) fun j hj =>
      hm.elsewhere j (fun hji => hw (hji ▸ hj))
  | spurious i => exact hc.elim
  | release i =>
    obtain ⟨e, hp, hm, hb, he, -⟩ := release_cases hs
    exact h.relabel hb he (release_admission hs) fun j hj =>
      hm.elsewhere j (fun hji => h.not_waiting (by simp [hp]) (hji ▸ hj))
  | leave i => exact leave_preserves h hs

/-- Call and departure times of the passes, completed or not. -/
structure Times (s : State n) : Prop where
  called : ∀ i, s.place i ≠ .outside → s.calledAt i < s.clock
  past : ∀ v ∈ s.visits, v.calledAt < s.clock ∧ v.epoch ≤ s.epoch
  occupied : ∀ v ∈ s.visits, v.epoch = s.epoch → 0 < s.admitted.card
  present : ∀ v ∈ s.visits, ∀ i, s.admission i = some v.epoch → s.calledAt i < v.leftAt
  overlap : ∀ v ∈ s.visits, ∀ w ∈ s.visits, v.epoch = w.epoch → v.calledAt < w.leftAt

private theorem initial_times : Times (initial : State n) := by
  constructor <;> simp [initial]

/-- A step that admits nobody to an epoch from which somebody has left. -/
theorem Times.advance {s t : State n} (h : Times s) (hv : t.visits = s.visits)
    (he : t.epoch = s.epoch) (hc : t.clock = s.clock + 1)
    (hcalled : ∀ j, t.place j ≠ .outside → t.calledAt j < t.clock)
    (hset : s.admitted.card ≤ t.admitted.card)
    (hpresent : ∀ v ∈ s.visits, ∀ j, t.admission j = some v.epoch → t.calledAt j < v.leftAt) :
    Times t where
  called := hcalled
  past := by
    rw [hv, he, hc]
    exact fun v hm => ⟨(h.past v hm).1.trans (Nat.lt_succ_self _), (h.past v hm).2⟩
  occupied := by
    rw [hv, he]
    exact fun v hm hve => (h.occupied v hm hve).trans_le hset
  present := by rw [hv]; exact hpresent
  overlap := by rw [hv]; exact h.overlap

theorem Times.unchanged {s t : State n} {i : Fin n} {p : Place} (h : Times s)
    (hp : s.place i ≠ .outside) (hm : Moved s t i p) (hv : t.visits = s.visits)
    (he : t.epoch = s.epoch) (hc : t.clock = s.clock + 1) (hca : t.calledAt = s.calledAt)
    (ha : ∀ j, t.admission j = s.admission j) : Times t := by
  refine h.advance hv he hc (fun j hj => ?_) (le_of_eq ?_) (fun v hmem j hj => ?_)
  · rw [hca, hc]
    by_cases hji : j = i
    · exact (hji ▸ h.called i hp).trans (Nat.lt_succ_self _)
    · exact (h.called j (hm.elsewhere j hji ▸ hj)).trans (Nat.lt_succ_self _)
  · congr 1
    ext j
    rw [mem_admitted, mem_admitted, ha, he]
  · rw [hca]
    exact h.present v hmem j (ha j ▸ hj)

theorem leave_times {s t : State n} {i : Fin n} (hi : Invariant s) (ht : Invariant t)
    (h : Times s) (hs : step s (.leave i) = some t) : Times t := by
  obtain ⟨e, hl, hm, hb, he, hca, hv, hclock⟩ := leave_cases hs
  have hadm : s.admission i = some e := by simp [State.admission, hl, Place.admission]
  have hie : e = s.epoch := hi.current i e hadm
  have hcalled := h.called i (by simp [hl])
  have hmono : s.epoch ≤ t.epoch := by
    rw [he]
    split <;> omega
  have hopen : t.epoch ≤ s.epoch → lastToLeave s.b = false := by
    intro hle
    by_contra hlast
    rw [if_pos (by simpa using hlast)] at he
    omega
  have hpos : 0 < s.admitted.card := Finset.card_pos.mpr ⟨i, by rw [mem_admitted, hadm, hie]⟩
  refine ⟨?_, ?_, ?_, ?_, ?_⟩
  · intro j hj
    have hji : j ≠ i := fun hji => hj (hji ▸ hm.here)
    rw [hca, hclock]
    exact (h.called j (hm.elsewhere j hji ▸ hj)).trans (Nat.lt_succ_self _)
  · intro v hmem
    rw [hclock]
    rcases List.mem_cons.mp (hv ▸ hmem) with rfl | hmem
    · exact ⟨hcalled.trans (Nat.lt_succ_self _), hie ▸ hmono⟩
    · exact ⟨(h.past v hmem).1.trans (Nat.lt_succ_self _), (h.past v hmem).2.trans hmono⟩
  · intro v hmem hve
    have hle : v.epoch ≤ s.epoch := by
      rcases List.mem_cons.mp (hv ▸ hmem) with rfl | hmem
      · exact hie.le
      · exact (h.past v hmem).2
    have hlast := hopen (hve ▸ hle)
    -- the epoch stays open, so somebody admitted is still there
    have hmore : s.admitted.card ≠ 1 := fun h1 => by
      rw [(hi.counts.last_iff hpos).mpr h1] at hlast
      cases hlast
    have hr : t.b.remaining = toInt (s.b.remaining - 1) := by simp [hb, leaveBatcher, hlast]
    have hsr := hi.counts.remaining
    have hss := hi.counts.small
    have htr := ht.counts.remaining
    rw [toInt_of_lt (by omega) (by omega)] at hr
    omega
  · intro v hmem j hj
    rw [hca]
    rcases List.mem_cons.mp (hv ▸ hmem) with rfl | hmem
    · by_cases hji : j = i
      · exact hji ▸ hcalled
      · by_cases hout : s.place j = .outside
        · have := hm.elsewhere j hji
          simp [State.admission, this, hout, Place.admission] at hj
        · exact h.called j hout
    · have hte := ht.current j _ hj
      have hle := (h.past v hmem).2
      have hji : j ≠ i := fun hji => by
        simp [State.admission, hji, hm.here, Place.admission] at hj
      refine h.present v hmem j ?_
      have hlast := hopen (hte ▸ hle)
      rwa [admission_eq (hm.elsewhere j hji) (by simp [hb, leaveBatcher, hlast])] at hj
  · intro v hmv w hmw heq
    rcases List.mem_cons.mp (hv ▸ hmv) with rfl | hmv <;>
      rcases List.mem_cons.mp (hv ▸ hmw) with rfl | hmw
    · exact hcalled
    · exact h.present w hmw i (hadm.trans (congrArg some heq))
    · exact (h.past v hmv).1
    · exact h.overlap v hmv w hmw heq

theorem enter_times {s t : State n} {i : Fin n} (hi : Invariant s) (ht : Invariant t)
    (h : Times s) (hs : step s (.enter i) = some t) : Times t := by
  obtain ⟨hc, hm, hb, he, hca, hv, hclock⟩ := enter_cases hs
  have hcalled : ∀ j, t.place j ≠ .outside → t.calledAt j < t.clock := by
    intro j hj
    rw [hca, hclock]
    by_cases hji : j = i
    · exact (hji ▸ h.called i (by simp [hc])).trans (Nat.lt_succ_self _)
    · exact (h.called j (hm.elsewhere j hji ▸ hj)).trans (Nat.lt_succ_self _)
  by_cases h0 : s.b.remaining = 0
  · have hk : s.admitted.card = 0 := by
      have := hi.counts.remaining
      omega
    refine h.advance hv he hclock hcalled (hk ▸ Nat.zero_le _) (fun v hmem j hj => ?_)
    have hve : v.epoch = s.epoch := (ht.current j _ hj).trans he
    have := h.occupied v hmem hve
    omega
  · refine h.unchanged (by simp [hc]) hm hv he hclock hca (fun j => ?_)
    have hw : i ∉ s.b.waiters := hi.not_waiting (by simp [hc])
    have hwait : t.b.waiters = insert i s.b.waiters := by rw [hb, enterBatcher, if_neg h0]
    by_cases hj : j = i
    · subst j
      rw [if_neg h0] at hm
      simp [State.admission, hm.here, hc, Place.admission, hwait]
    · exact admission_eq (hm.elsewhere j hj) (by simp [hwait, hj])

theorem step_times {s t : State n} {e : Event n} (hi : Invariant s) (ht : Invariant t)
    (h : Times s) (hc : NoSpurious s e) (hs : step s e = some t) : Times t := by
  cases e with
  | call i =>
    obtain ⟨hp, hm, hb, he, hca, hv, hclock⟩ := call_cases hs
    have hself : t.admission i = none := by simp [State.admission, hm.here, Place.admission]
    have ha := call_admission hs
    have hother : ∀ j, j ≠ i → t.calledAt j = s.calledAt j := fun j hj => by
      rw [hca, Function.update_of_ne hj]
    refine h.advance hv he hclock (fun j hj => ?_) (le_of_eq ?_) (fun v hmem j hj => ?_)
    · by_cases hji : j = i
      · rw [hji, hca, Function.update_self, hclock]
        exact Nat.lt_succ_self _
      · rw [hother j hji, hclock]
        exact (h.called j (hm.elsewhere j hji ▸ hj)).trans (Nat.lt_succ_self _)
    · congr 1
      ext j
      rw [mem_admitted, mem_admitted, ha, he]
    · have hji : j ≠ i := fun hji => by
        rw [hji, hself] at hj
        cases hj
      rw [hother j hji]
      exact h.present v hmem j (ha j ▸ hj)
  | enter i => exact enter_times hi ht h hs
  | wake i =>
    obtain ⟨e, hp, hw, hm, hb, he, hca, hv, hclock⟩ := wake_cases hs
    exact h.unchanged (by simp [hp]) hm hv he hclock hca (wake_admission hs)
  | spurious i => exact hc.elim
  | release i =>
    obtain ⟨e, hp, hm, hb, he, hca, hv, hclock⟩ := release_cases hs
    exact h.unchanged (by simp [hp]) hm hv he hclock hca (release_admission hs)
  | leave i => exact leave_times hi ht h hs

theorem reachable_times {s : State n} (hn : n < 2 ^ 31)
    (h : Reachable (system n) NoSpurious s) : Invariant s ∧ Times s := by
  refine h.invariant (I := fun s => Invariant s ∧ Times s) ?_ ?_
  · rintro s rfl
    exact ⟨initial_invariant, initial_times⟩
  · intro s e t hs hc ht
    have hi := step_preserves hn hs.1 hc ht
    exact ⟨hi, step_times hs.1 hi hs.2 hc ht⟩

theorem waitingSince_eq_some {s : State n} {i : Fin n} {e : ℕ} :
    s.waitingSince i = some e ↔ s.place i = .parked e ∧ i ∈ s.b.waiters := by
  cases hp : s.place i <;> by_cases hw : i ∈ s.b.waiters <;>
    simp [State.waitingSince, hp, hw]

theorem Invariant.waiting_eq {s : State n} (h : Invariant s) : s.waiting = s.b.waiters := by
  ext i
  simp only [State.waiting, Finset.mem_filter, Finset.mem_univ, true_and,
    Option.isSome_iff_exists, waitingSince_eq_some]
  exact ⟨fun ⟨e, he⟩ => he.2, fun hi => ⟨s.epoch, h.parked i hi, hi⟩⟩

/-- A waiting thread is admitted by the step that closes its epoch, and by no other. -/
theorem waiting_admitted {s t : State n} {i : Fin n} {e : ℕ} {ev : Event n} (h : Invariant s)
    (hw : s.waitingSince i = some e) (hc : NoSpurious s ev) (hs : step s ev = some t) :
    t.admission i = if t.epoch = e + 1 then some (e + 1) else none := by
  obtain ⟨hp, hin⟩ := waitingSince_eq_some.mp hw
  have hee : e = s.epoch := by
    have := h.parked i hin
    simp_all
  have still : t.place i = .parked e → t.epoch = s.epoch → i ∈ t.b.waiters →
      t.admission i = if t.epoch = e + 1 then some (e + 1) else none := by
    intro hp' he' hin'
    rw [if_neg (by omega), State.admission, hp']
    simp [Place.admission, hin']
  cases ev with
  | call j =>
    obtain ⟨hj, hm, hb, he, -⟩ := call_cases hs
    exact still (hm.elsewhere i (fun hij => by simp_all) ▸ hp) he (hb ▸ hin)
  | enter j =>
    obtain ⟨hj, hm, hb, he, -⟩ := enter_cases hs
    refine still (hm.elsewhere i (fun hij => by simp_all) ▸ hp) he ?_
    rw [hb, enterBatcher]
    split
    · exact hin
    · exact Finset.mem_insert_of_mem hin
  | wake j =>
    obtain ⟨d, hj, hjw, hm, hb, he, -⟩ := wake_cases hs
    exact still (hm.elsewhere i (fun hij => hjw (hij ▸ hin)) ▸ hp) he (hb ▸ hin)
  | spurious j => exact hc.elim
  | release j =>
    obtain ⟨d, hj, hm, hb, he, -⟩ := release_cases hs
    exact still (hm.elsewhere i (fun hij => by simp_all) ▸ hp) he (hb ▸ hin)
  | leave j =>
    obtain ⟨d, hj, hm, hb, he, -⟩ := leave_cases hs
    have hp' : t.place i = .parked e := hm.elsewhere i (fun hij => by simp_all) ▸ hp
    cases hlast : lastToLeave s.b with
    | true =>
      have hte : t.epoch = e + 1 := by simp [he, hlast, hee]
      rw [if_pos hte, State.admission, hp']
      simp [Place.admission, hb, leaveBatcher, hlast]
    | false =>
      exact still hp' (by simp [he, hlast]) (by simpa [hb, leaveBatcher, hlast] using hin)

structure Guarantees (s : State n) : Prop where
  remaining : s.b.remaining = s.admitted.card
  blocked : s.b.blocked = s.waiting.card
  nobody_stranded : 0 < s.b.blocked → 0 < s.b.remaining
  counter : s.b.counter = toInt s.epoch ∧ (s.epoch < 2 ^ 31 → s.b.counter = s.epoch)
  cleanup_alone : ∀ i t, step s (.leave i) = some t → lastToLeave s.b = true →
    ∀ j, j ≠ i → s.admission j = none
  admission : ∀ i e, s.waitingSince i = some e → e = s.epoch ∧
    ∀ ev t, NoSpurious s ev → step s ev = some t →
      t.admission i = if t.epoch = e + 1 then some (e + 1) else none
  overlap : ∀ v ∈ s.visits, ∀ w ∈ s.visits, v.epoch = w.epoch → v.calledAt < w.leftAt
  overlap_present : ∀ v ∈ s.visits, ∀ i, s.admission i = some v.epoch → s.calledAt i < v.leftAt

theorem batcher_epochs (hn : n < 2 ^ 31) {s : State n}
    (h : Reachable (system n) NoSpurious s) : Guarantees s := by
  obtain ⟨hi, ht⟩ := reachable_times hn h
  refine ⟨hi.counts.remaining, by rw [hi.waiting_eq]; exact hi.counts.blocked, ?_,
    ⟨hi.counter, fun he => ?_⟩, ?_, ?_, ht.overlap, ht.present⟩
  · have hb := hi.counts.blocked
    have hr := hi.counts.remaining
    have hp := hi.counts.stranded
    omega
  · rw [hi.counter]
    exact toInt_of_lt (by omega) (by omega)
  · intro i t hs hlast j hj
    obtain ⟨e, hl, -⟩ := leave_cases hs
    have ha : s.admission i = some e := by simp [State.admission, hl, Place.admission]
    have hmem : i ∈ s.admitted := by rw [mem_admitted, ha, hi.current i e ha]
    have h1 := (hi.counts.last_iff (Finset.card_pos.mpr ⟨i, hmem⟩)).mp hlast
    cases hja : s.admission j with
    | none => rfl
    | some d =>
      have hjm : j ∈ s.admitted := by rw [mem_admitted, hja, hi.current j d hja]
      exact (hj (Finset.card_le_one.mp h1.le j hjm i hmem)).elim
  · intro i e hw
    refine ⟨?_, fun ev t hc hs => waiting_admitted hi hw hc hs⟩
    obtain ⟨hp, hin⟩ := waitingSince_eq_some.mp hw
    have := hi.parked i hin
    simp_all

/-- One thread alone closes an epoch with every pass. -/
theorem solo_pass {s : State 1} (h : Reachable (system 1) NoSpurious s)
    (hp : s.place 0 = .outside) (hr : s.b.remaining = 0) (hb : s.b.blocked = 0) :
    ∃ t, Reachable (system 1) NoSpurious t ∧ t.place 0 = .outside ∧ t.b.remaining = 0 ∧
      t.b.blocked = 0 ∧ t.epoch = s.epoch + 1 := by
  obtain ⟨a, ha⟩ : ∃ a, step s (.call 0) = some a := ⟨_, by simp only [step, hp]; rfl⟩
  obtain ⟨-, ma, ba, ea, -⟩ := call_cases ha
  obtain ⟨b, hb'⟩ : ∃ b, step a (.enter 0) = some b := ⟨_, by simp only [step, ma.here]; rfl⟩
  obtain ⟨-, mb, bb, eb, -⟩ := enter_cases hb'
  rw [if_pos (by rw [ba, hr])] at mb
  obtain ⟨c, hc⟩ : ∃ c, step b (.release 0) = some c := ⟨_, by simp only [step, mb.here]; rfl⟩
  obtain ⟨d, hd, mc, bc, ec, -⟩ := release_cases hc
  obtain ⟨t, ht⟩ : ∃ t, step c (.leave 0) = some t := ⟨_, by simp only [step, mc.here]; rfl⟩
  obtain ⟨f, hf, mt, bt, et, -⟩ := leave_cases ht
  have hcb : c.b = { s.b with remaining := 1 } := by
    rw [bc, bb, ba, enterBatcher, if_pos hr]
  have hlast : lastToLeave c.b = true := by simp [hcb, lastToLeave, toInt]
  have reach := (((h.next (.call 0) ha trivial).next (.enter 0) hb' trivial).next
    (.release 0) hc trivial).next (.leave 0) ht trivial
  refine ⟨t, reach, mt.here, ?_, ?_, ?_⟩
  · rw [bt, leaveBatcher, if_pos hlast, hcb, hb]
  · rw [bt, leaveBatcher, if_pos hlast]
  · rw [et, if_pos hlast, ec, eb, ea]

theorem solo_epochs (k : ℕ) : ∃ s : State 1, Reachable (system 1) NoSpurious s ∧
    s.place 0 = .outside ∧ s.b.remaining = 0 ∧ s.b.blocked = 0 ∧ s.epoch = k := by
  induction k with
  | zero => exact ⟨initial, .init rfl, rfl, rfl, rfl, rfl⟩
  | succ k ih =>
    obtain ⟨s, h, hp, hr, hb, he⟩ := ih
    obtain ⟨t, ht, hp', hr', hb', he'⟩ := solo_pass h hp hr hb
    exact ⟨t, ht, hp', hr', hb', by rw [he', he]⟩

/-- After `2 ^ 31` epochs the C int has wrapped. -/
theorem counter_wraps :
    ¬ ∀ s : State 1, Reachable (system 1) NoSpurious s → s.b.counter = s.epoch := by
  intro hall
  obtain ⟨s, h, -, -, -, he⟩ := solo_epochs (2 ^ 31)
  have hw := (batcher_epochs (by decide) h).counter.1
  rw [hall s h, he] at hw
  exact absurd hw (by decide)

/-- Two threads, the second parked behind the first. -/
def queue : List (Event 2) := [.call 0, .enter 0, .call 1, .enter 1]
def queued : State 2 := (run (system 2) initial queue).getD initial

theorem queued_reachable : Reachable (system 2) NoSpurious queued :=
  Reachable.run (.init rfl) queue (by decide) rfl

theorem batcher_epochs_queued : Guarantees queued :=
  batcher_epochs (by decide) queued_reachable

/-- When `epoch_cleanup` runs, no other thread is between `enter_batcher` and `leave_batcher`. -/
def CleanupAlone (s : State n) : Prop :=
  ∀ i t, step s (.leave i) = some t → lastToLeave s.b = true →
    ∀ j, j ≠ i → ∀ e, s.place j ≠ .inside e

/-- The second thread returns spuriously, and the first leaves: `epoch_cleanup` runs while
the second is inside. -/
def intrusion : List (Event 2) :=
  [.call 0, .enter 0, .call 1, .enter 1, .spurious 1, .release 0]
def intruded : State 2 := (run (system 2) initial intrusion).getD initial

theorem cleanup_with_intruder :
    ¬ ∀ s : State 2, Reachable (system 2) Unrestricted s → CleanupAlone s := by
  intro hall
  have hr : Reachable (system 2) Unrestricted intruded :=
    Reachable.run (.init rfl) intrusion (by decide) rfl
  obtain ⟨t, ht⟩ : ∃ t, step intruded (.leave 0) = some t := ⟨_, rfl⟩
  exact hall intruded hr 0 t ht (by decide) 1 (by decide) 0 (by decide)

/-- Threads that are in the batcher's count, spuriously returned ones included. -/
def Place.entered : Place → Bool
  | .outside | .calling => false
  | .parked _ | .inside _ | .leaving _ => true

def State.entered (s : State n) : Finset (Fin n) :=
  Finset.univ.filter fun i => (s.place i).entered

@[simp] theorem mem_entered {s : State n} {i : Fin n} :
    i ∈ s.entered ↔ (s.place i).entered = true := by simp [State.entered]

/-- What survives spurious returns: every thread inside was counted once, in one of the
two counters, and nobody is blocked while nobody remains. -/
structure Conserved (s : State n) : Prop where
  sum : s.b.remaining + s.b.blocked = s.entered.card
  remaining : 0 ≤ s.b.remaining
  blocked : 0 ≤ s.b.blocked
  stranded : s.b.remaining = 0 → s.b.blocked = 0

theorem Moved.entered_eq {s t : State n} {i : Fin n} {p : Place} (h : Moved s t i p)
    (hp : p.entered = (s.place i).entered) : t.entered = s.entered := by
  ext j
  by_cases hj : j = i
  · subst j
    simp [h.here, hp]
  · simp [h.elsewhere j hj]

theorem Conserved.relabel {s t : State n} {i : Fin n} {p : Place} (h : Conserved s)
    (hm : Moved s t i p) (hp : p.entered = (s.place i).entered)
    (hr : t.b.remaining = s.b.remaining) (hb : t.b.blocked = s.b.blocked) : Conserved t := by
  refine ⟨?_, hr ▸ h.remaining, hb ▸ h.blocked, by rw [hr, hb]; exact h.stranded⟩
  rw [hr, hb, hm.entered_eq hp]
  exact h.sum

theorem enter_conserved {s t : State n} {i : Fin n} (hn : n < 2 ^ 31) (h : Conserved s)
    (hs : step s (.enter i) = some t) : Conserved t := by
  obtain ⟨hc, hm, hb, -⟩ := enter_cases hs
  have hset : t.entered = insert i s.entered := by
    ext j
    by_cases hj : j = i
    · subst j
      simp only [mem_entered, hm.here, Finset.mem_insert, true_or, iff_true]
      split <;> rfl
    · simp [hm.elsewhere j hj, hj]
  have hi : i ∉ s.entered := by simp [hc, Place.entered]
  have hcard : t.entered.card = s.entered.card + 1 := by
    rw [hset, Finset.card_insert_of_notMem hi]
  have hle : t.entered.card ≤ n := by simpa using Finset.card_le_univ t.entered
  have hsum := h.sum
  have hr := h.remaining
  by_cases h0 : s.b.remaining = 0
  · have hb0 := h.stranded h0
    rw [enterBatcher, if_pos h0] at hb
    refine ⟨?_, ?_, ?_, ?_⟩ <;> rw [hb] <;> simp only <;> omega
  · have hk := h.blocked
    rw [enterBatcher, if_neg h0, toInt_of_lt (by omega) (by omega)] at hb
    refine ⟨?_, ?_, ?_, ?_⟩ <;> rw [hb] <;> simp only <;> omega

theorem leave_conserved {s t : State n} {i : Fin n} (hn : n < 2 ^ 31) (h : Conserved s)
    (hs : step s (.leave i) = some t) : Conserved t ∧ 0 ≤ s.b.remaining - 1 := by
  obtain ⟨e, hl, hm, hb, -⟩ := leave_cases hs
  have hi : i ∈ s.entered := by simp [hl, Place.entered]
  have hset : t.entered = s.entered.erase i := by
    ext j
    by_cases hj : j = i
    · simp [hj, hm.here, Place.entered]
    · simp [hm.elsewhere j hj, hj]
  have hcard : t.entered.card + 1 = s.entered.card := by
    rw [hset, Finset.card_erase_add_one hi]
  have hle : s.entered.card ≤ n := by simpa using Finset.card_le_univ s.entered
  have hsum := h.sum
  have hr := h.remaining
  have hk := h.blocked
  have hst := h.stranded
  have hpos : 0 ≤ s.b.remaining - 1 := by omega
  refine ⟨?_, hpos⟩
  have hwrap : toInt (s.b.remaining - 1) = s.b.remaining - 1 :=
    toInt_of_lt (by omega) (by omega)
  cases hlast : lastToLeave s.b with
  | true =>
    have h1 : s.b.remaining - 1 = 0 := by
      simpa [lastToLeave, hwrap] using hlast
    rw [leaveBatcher, if_pos hlast] at hb
    refine ⟨?_, hb ▸ hk, by rw [hb], fun _ => by rw [hb]⟩
    rw [hb]
    simp only
    omega
  | false =>
    have h1 : s.b.remaining - 1 ≠ 0 := by
      simpa [lastToLeave, hwrap] using hlast
    rw [leaveBatcher, if_neg (by simp [hlast]), hwrap] at hb
    refine ⟨?_, ?_, ?_, ?_⟩ <;> rw [hb] <;> simp only <;> omega

theorem step_conserved {s t : State n} {e : Event n} (hn : n < 2 ^ 31) (h : Conserved s)
    (hs : step s e = some t) : Conserved t := by
  cases e with
  | call i =>
    obtain ⟨hp, hm, hb, -⟩ := call_cases hs
    exact h.relabel hm (by simp [hp, Place.entered]) (by rw [hb]) (by rw [hb])
  | enter i => exact enter_conserved hn h hs
  | wake i =>
    obtain ⟨e, hp, -, hm, hb, -⟩ := wake_cases hs
    exact h.relabel hm (by simp [hp, Place.entered]) (by rw [hb]) (by rw [hb])
  | spurious i =>
    obtain ⟨e, hp, -, hm, hb⟩ := spurious_cases hs
    exact h.relabel hm (by simp [hp, Place.entered]) (by rw [hb]) (by rw [hb])
  | release i =>
    obtain ⟨e, hp, hm, hb, -⟩ := release_cases hs
    exact h.relabel hm (by simp [hp, Place.entered]) (by rw [hb]) (by rw [hb])
  | leave i => exact (leave_conserved hn h hs).1

theorem reachable_conserved {s : State n} (hn : n < 2 ^ 31)
    (h : Reachable (system n) Unrestricted s) : Conserved s := by
  refine h.invariant (I := Conserved) ?_ (fun s e t hs _ ht => step_conserved hn hs ht)
  rintro s rfl
  have hempty : (initial : State n).entered = ∅ := by simp [State.entered, initial, Place.entered]
  exact ⟨by rw [hempty]; rfl, le_rfl, le_rfl, fun _ => rfl⟩

/-- Without spurious returns `epoch_cleanup` runs alone; with or without them `remaining`
stays non-negative, also between the decrement and the compare-and-swap. -/
theorem cleanup_alone_without_spurious (hn : n < 2 ^ 31) :
    (∀ s, Reachable (system n) NoSpurious s → CleanupAlone s) ∧
    (∀ s, Reachable (system n) Unrestricted s → 0 ≤ s.b.remaining ∧
      ∀ i t, step s (.leave i) = some t → 0 ≤ s.b.remaining - 1) := by
  refine ⟨fun s h i t hs hlast j hj e hp => ?_, fun s h => ?_⟩
  · have hg := (batcher_epochs hn h).cleanup_alone i t hs hlast j hj
    simp [State.admission, hp, Place.admission] at hg
  · have hc := reachable_conserved hn h
    exact ⟨hc.remaining, fun i t hs => (leave_conserved hn hc hs).2⟩

/-- The first thread is about to leave and to close the epoch; the second still waits. -/
def departure : List (Event 2) := queue ++ [.release 0]
def departing : State 2 := (run (system 2) initial departure).getD initial

theorem departing_reachable : Reachable (system 2) NoSpurious departing :=
  Reachable.run (.init rfl) departure (by decide) rfl

theorem cleanup_alone_two_threads : CleanupAlone departing ∧
    (step departing (.leave 0)).isSome ∧ lastToLeave departing.b = true ∧
    departing.place 1 = .parked 0 ∧ 0 ≤ departing.b.remaining - 1 := by
  obtain ⟨halone, hcount⟩ := cleanup_alone_without_spurious (n := 2) (by decide)
  have hany : Reachable (system 2) Unrestricted departing :=
    departing_reachable.mono fun _ _ _ => trivial
  refine ⟨halone departing departing_reachable, rfl, rfl, rfl, ?_⟩
  exact (hcount departing hany).2 0 _ rfl

end BatcherEpochs
