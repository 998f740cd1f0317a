import Mathlib.Algebra.Order.Ring.Int
import TransactionalMemory.Tally
import TransactionalMemory.TransitionSystem

/-! # The spin barrier

`Barrier::sync` by any number of threads, one atomic operation at a time. The counter is an
integer here; that it stays in the range of the threads is part of the result. -/
namespace SpinBarrier

open TransitionSystem
open Tally

inductive Mode where
  | enter
  | leave
  deriving DecidableEq, Repr

/-- The next operation of a thread: `fetch_add`, the store of `leave`, the load in the loop for
`leave`, `fetch_sub`, the store of `enter`, the load in the loop for `enter`. -/
inductive Place where
  | outside
  | entering
  | opening
  | awaitLeave
  | leaving
  | closing
  | awaitEnter
  deriving DecidableEq, Repr

/-- `called` and `returned` count the calls of `sync` by each thread; no operation reads them. -/
structure State (n : ℕ) where
  step : ℤ
  mode : Mode
  place : Fin n → Place
  called : Fin n → ℕ
  returned : Fin n → ℕ

inductive Event (n : ℕ) where
  | call (i : Fin n)
  | sync (i : Fin n)
  deriving DecidableEq, Repr

variable {n : ℕ}

def initial : State n := ⟨0, .enter, fun _ => .outside, fun _ => 0, fun _ => 0⟩

def State.move (s : State n) (i : Fin n) (p : Place) : State n :=
  { s with place := Function.update s.place i p }

def State.return (s : State n) (i : Fin n) : State n :=
  { s.move i .outside with returned := Function.update s.returned i (s.returned i + 1) }

/-- The next operation of thread `i` in `sync`. -/
def sync (s : State n) (i : Fin n) : Option (State n) :=
  match s.place i with
  | .outside => none
  | .entering =>
    some { s.move i (if s.step + 1 = n then .opening else .awaitLeave) with step := s.step + 1 }
  | .opening => some { s.move i .leaving with mode := .leave }
  | .awaitLeave => some (if s.mode = .leave then s.move i .leaving else s)
  | .leaving =>
    some { s.move i (if s.step - 1 = 0 then .closing else .awaitEnter) with step := s.step - 1 }
  | .closing => some { s.return i with mode := .enter }
  | .awaitEnter => some (if s.mode = .enter then s.return i else s)

def next (s : State n) : Event n → Option (State n)
  | .call i =>
    match s.place i with
    | .outside => some { s.move i .entering with
        called := Function.update s.called i (s.called i + 1) }
    | _ => none
  | .sync i => sync s i

abbrev system (n : ℕ) : System (State n) (Event n) := ⟨fun s => s = initial, next⟩

/-- A thread while the mode is `enter`, after `k` rounds: it has not come back yet, is between
two calls, or has called for the next round. -/
def Early (k : ℕ) (s : State n) (i : Fin n) : Prop :=
  (s.place i = .awaitEnter ∧ s.called i = k ∧ s.returned i + 1 = k) ∨
    (s.place i = .outside ∧ s.called i = k ∧ s.returned i = k) ∨
      ((s.place i = .entering ∨ s.place i = .awaitLeave) ∧ s.called i = k + 1 ∧
        s.returned i = k)

/-- All threads are in their call of one round. -/
def Together (k : ℕ) (s : State n) : Prop := ∀ i, s.called i = k + 1 ∧ s.returned i = k

/-- The four situations that follow one another in every round. -/
inductive Phase (s : State n) (k : ℕ) : Prop where
  | gathering : s.mode = .enter → (∀ i, Early k s i) →
      s.step = tally (· = .awaitLeave) s.place → s.step < n → Phase s k
  | opening (i : Fin n) : s.mode = .enter → Solo s.place i .opening .awaitLeave →
      Together k s → s.step = n → Phase s k
  | leaving : s.mode = .leave →
      (∀ i, s.place i = .awaitLeave ∨ s.place i = .leaving ∨ s.place i = .awaitEnter) →
      Together k s → s.step = tally (· ≠ .awaitEnter) s.place → 0 < s.step → Phase s k
  | closing (i : Fin n) : s.mode = .leave → Solo s.place i .closing .awaitEnter →
      Together k s → s.step = 0 → Phase s k

theorem phase_initial (h : 0 < n) : Phase (initial : State n) 0 := by
  have hnone : tally (· = .awaitLeave) (initial : State n).place = 0 :=
    tally_eq_zero (by simp [initial])
  apply Phase.gathering
  · rfl
  · intro i
    exact .inr (.inl ⟨rfl, rfl, rfl⟩)
  · rw [hnone]
    rfl
  · simpa [initial] using h

/-- A change of one thread keeps the others early. -/
theorem early_update {s t : State n} {k : ℕ} {i : Fin n} (h : ∀ j, Early k s j)
    (hi : Early k t i) (hj : ∀ j ≠ i, t.place j = s.place j ∧ t.called j = s.called j ∧
      t.returned j = s.returned j) : ∀ j, Early k t j := by
  intro j
  by_cases he : j = i
  · subst j
    exact hi
  · obtain ⟨hp, hc, hr⟩ := hj j he
    have := h j
    rwa [Early, ← hp, ← hc, ← hr] at this

theorem phase_call {s t : State n} {k : ℕ} {i : Fin n} (h : Phase s k)
    (ht : next s (.call i) = some t) : Phase t k := by
  cases hp : s.place i with
  | outside =>
    simp only [next, hp, Option.some.injEq] at ht
    subst t
    cases h with
    | gathering hm he hs hn =>
      have hi := he i
      have hk : s.called i = k ∧ s.returned i = k := by simpa [Early, hp] using hi
      refine .gathering hm (early_update (i := i) he ?_ ?_) ?_ hn
      · exact .inr (.inr (by simp [State.move, hk]))
      · intro j hj
        simp [State.move, hj]
      · simp only [State.move]
        rw [hs, tally_stay (by simp [hp])]
    | opening j _ hj _ _ => rcases hj.value i with hv | ⟨-, hv⟩ <;> simp [hp] at hv
    | leaving _ hl _ _ _ => simpa [hp] using hl i
    | closing j _ hj _ _ => rcases hj.value i with hv | ⟨-, hv⟩ <;> simp [hp] at hv
  | _ => simp [next, hp] at ht

/-- The threads that have not called for the round when the last one does. -/
theorem all_called {s : State n} {k : ℕ} (he : ∀ i, Early k s i) {i : Fin n}
    (hi : s.place i = .entering) (ho : ∀ j ≠ i, s.place j = .awaitLeave) : Together k s := by
  intro j
  have hj := he j
  by_cases hji : j = i
  · subst j
    simpa [Early, hi] using hj
  · simpa [Early, ho j hji] using hj

theorem phase_gathering {s t : State n} {k : ℕ} {i : Fin n} (hm : s.mode = .enter)
    (he : ∀ i, Early k s i) (hs : s.step = tally (· = .awaitLeave) s.place) (hn : s.step < n)
    (ht : sync s i = some t) : Phase t k := by
  have hi := he i
  cases hp : s.place i with
  | outside => simp [sync, hp] at ht
  | entering =>
    simp only [sync, hp, Option.some.injEq] at ht
    subst t
    have hk : s.called i = k + 1 ∧ s.returned i = k := by simpa [Early, hp] using hi
    by_cases hlast : s.step + 1 = n
    · have ho : ∀ j ≠ i, s.place j = .awaitLeave := by
        intro j hj
        refine others_in (p := (· = Place.awaitLeave)) (by simp [hp]) ?_ hj
        rw [Fintype.card_fin]
        omega
      have hall := all_called he hp ho
      apply Phase.opening i
      · exact hm
      · simpa [State.move, hlast] using Solo.update ho _
      · exact hall
      · exact hlast
    · apply Phase.gathering
      · exact hm
      · refine early_update (i := i) he ?_ ?_
        · exact .inr (.inr (by simp [State.move, hlast, hk]))
        · intro j hj
          simp [State.move, hj]
      · have hjoin := tally_join (p := (· = Place.awaitLeave)) (f := s.place) (i := i)
          (a := .awaitLeave) (by simp [hp]) rfl
        simp only [State.move, if_neg hlast]
        omega
      · have hle : s.step + 1 ≤ n := hn
        exact lt_of_le_of_ne hle hlast
  | awaitLeave =>
    simp only [sync, hp, hm] at ht
    cases ht
    exact .gathering hm he hs hn
  | awaitEnter =>
    simp only [sync, hp, hm, if_true, Option.some.injEq] at ht
    subst t
    have hk : s.called i = k ∧ s.returned i + 1 = k := by simpa [Early, hp] using hi
    refine .gathering hm (early_update (i := i) he ?_ ?_) ?_ hn
    · exact .inr (.inl (by simp [State.return, State.move, hk]))
    · intro j hj
      simp [State.return, State.move, hj]
    · simp only [State.return, State.move]
      rw [hs, tally_stay (by simp [hp])]
  | _ => simp [Early, hp] at hi

theorem phase_opening {s t : State n} {k : ℕ} {i j : Fin n} (hm : s.mode = .enter)
    (hj : Solo s.place j .opening .awaitLeave) (hk : Together k s) (hs : s.step = n)
    (ht : sync s i = some t) : Phase t k := by
  rcases hj.value i with hp | ⟨rfl, hp⟩
  · simp only [sync, hp, hm] at ht
    cases ht
    exact .opening j hm hj hk hs
  · simp only [sync, hp, Option.some.injEq] at ht
    subst t
    have hsolo := Solo.update hj.at_others .leaving
    apply Phase.leaving
    · rfl
    · intro l
      rcases hsolo.value l with hv | ⟨-, hv⟩
      · exact .inl hv
      · exact .inr (.inl hv)
    · exact hk
    · have hall : tally (· ≠ Place.awaitEnter) (Function.update s.place i .leaving) = n := by
        rw [tally_eq_card, Fintype.card_fin]
        intro l
        rcases hsolo.value l with hv | ⟨-, hv⟩ <;> simp [hv]
      rw [State.move, hall]
      exact hs
    · have := i.pos
      simp only [State.move]
      omega

theorem phase_leaving {s t : State n} {k : ℕ} {i : Fin n} (hm : s.mode = .leave)
    (hl : ∀ i, s.place i = .awaitLeave ∨ s.place i = .leaving ∨ s.place i = .awaitEnter)
    (hk : Together k s) (hs : s.step = tally (· ≠ .awaitEnter) s.place) (h0 : 0 < s.step)
    (ht : sync s i = some t) : Phase t k := by
  have others : ∀ p, p = .awaitLeave ∨ p = .leaving ∨ p = .awaitEnter → ∀ j,
      Function.update s.place i p j = .awaitLeave ∨ Function.update s.place i p j = .leaving ∨
        Function.update s.place i p j = .awaitEnter := by
    intro p hp j
    by_cases hj : j = i
    · subst j
      simpa using hp
    · simpa [hj] using hl j
  rcases hl i with hp | hp | hp
  · simp only [sync, hp, hm, if_true, Option.some.injEq] at ht
    subst t
    apply Phase.leaving
    · exact hm
    · exact others .leaving (by simp)
    · exact hk
    · simp only [State.move]
      rw [hs, tally_stay (by simp [hp])]
    · exact h0
  · simp only [sync, hp, Option.some.injEq] at ht
    subst t
    by_cases hlast : s.step - 1 = 0
    · have ho : ∀ j ≠ i, s.place j = .awaitEnter := by
        intro j hj
        refine not_not.mp (others_out (p := (· ≠ Place.awaitEnter)) (by simp [hp]) ?_ hj)
        omega
      apply Phase.closing i
      · exact hm
      · simpa [State.move, hlast] using Solo.update ho _
      · exact hk
      · exact hlast
    · apply Phase.leaving
      · exact hm
      · simpa [State.move, hlast] using others .awaitEnter (by simp)
      · exact hk
      · have hout := tally_leave (p := (· ≠ Place.awaitEnter)) (f := s.place) (i := i)
          (a := .awaitEnter) (by simp [hp]) (by simp)
        simp only [State.move, if_neg hlast]
        omega
      · simp only
        omega
  · simp only [sync, hp, hm] at ht
    cases ht
    exact .leaving hm hl hk hs h0

/-- The last thread to leave begins the next round. -/
theorem phase_closing {s t : State n} {k : ℕ} {i j : Fin n} (hm : s.mode = .leave)
    (hj : Solo s.place j .closing .awaitEnter) (hk : Together k s) (hs : s.step = 0)
    (ht : sync s i = some t) : Phase t k ∨ Phase t (k + 1) := by
  rcases hj.value i with hp | ⟨rfl, hp⟩
  · simp only [sync, hp, hm] at ht
    cases ht
    exact .inl (.closing j hm hj hk hs)
  · simp only [sync, hp, Option.some.injEq] at ht
    subst t
    have hsolo := Solo.update hj.at_others .outside
    right
    apply Phase.gathering
    · rfl
    · intro l
      have hkl := hk l
      by_cases hl : l = i
      · subst l
        exact .inr (.inl (by simp [State.return, State.move, hkl]))
      · exact .inl (by simp [State.return, State.move, hl, hj.at_others l hl, hkl])
    · have hnone : tally (· = Place.awaitLeave) (Function.update s.place i .outside) = 0 := by
        apply tally_eq_zero
        intro l
        rcases hsolo.value l with hv | ⟨-, hv⟩ <;> simp [hv]
      rw [State.return, State.move, hnone]
      exact hs
    · have := i.pos
      simp only [State.return, State.move, hs]
      omega

theorem phase_sync {s t : State n} {k : ℕ} {i : Fin n} (h : Phase s k)
    (ht : sync s i = some t) : Phase t k ∨ Phase t (k + 1) := by
  cases h with
  | gathering hm he hs hn => exact .inl (phase_gathering hm he hs hn ht)
  | opening j hm hj hk hs => exact .inl (phase_opening hm hj hk hs ht)
  | leaving hm hl hk hs h0 => exact .inl (phase_leaving hm hl hk hs h0 ht)
  | closing j hm hj hk hs => exact phase_closing hm hj hk hs ht

theorem reachable_phase {s : State n} (hn : 0 < n)
    (h : Reachable (system n) Unrestricted s) : ∃ k, Phase s k := by
  refine h.invariant (I := fun s => ∃ k, Phase s k) ?_ ?_
  · rintro _ rfl
    exact ⟨0, phase_initial hn⟩
  · rintro s e t ⟨k, hk⟩ - ht
    cases e with
    | call i => exact ⟨k, phase_call hk ht⟩
    | sync i => exact (phase_sync hk ht).elim (⟨k, ·⟩) (⟨k + 1, ·⟩)

/-! ### What the threads can rely on -/

theorem Phase.rounds {s : State n} {k : ℕ} (h : Phase s k) (i j : Fin n) :
    s.returned i ≤ s.called j := by
  cases h with
  | gathering _ he _ _ =>
    have hi := he i
    have hj := he j
    simp only [Early] at hi hj
    omega
  | opening _ _ _ hk _ => exact (hk i).2.trans_le (by simp [(hk j).1])
  | leaving _ _ hk _ _ => exact (hk i).2.trans_le (by simp [(hk j).1])
  | closing _ _ _ hk _ => exact (hk i).2.trans_le (by simp [(hk j).1])

theorem Phase.range {s : State n} {k : ℕ} (h : Phase s k) : 0 ≤ s.step ∧ s.step ≤ n := by
  have hle := tally_le (p := (· ≠ Place.awaitEnter)) (f := s.place)
  rw [Fintype.card_fin] at hle
  cases h with
  | gathering _ _ hs hn => omega
  | opening _ _ _ _ hs => omega
  | leaving _ _ _ hs _ => omega
  | closing _ _ _ _ hs => omega

/-- If all threads wait, one of them waits for nothing. -/
theorem Phase.progress {s : State n} {k : ℕ} (h : Phase s k)
    (hin : ∀ i, s.place i ≠ .outside) :
    ∃ i t, sync s i = some t ∧ t.place i ≠ s.place i := by
  cases h with
  | gathering hm he hs hlt =>
    have hsome : ∃ i, s.place i ≠ .awaitLeave := by
      by_contra hno
      have hall := tally_eq_card (p := (· = Place.awaitLeave)) (f := s.place) (by simpa using hno)
      rw [Fintype.card_fin] at hall
      omega
    obtain ⟨i, hi⟩ := hsome
    have hei := he i
    cases hp : s.place i with
    | outside => exact (hin i hp).elim
    | awaitLeave => exact (hi hp).elim
    | entering =>
      refine ⟨i, _, by rw [sync, hp], ?_⟩
      by_cases hlast : s.step + 1 = n <;> simp [State.move, hlast, hp]
    | awaitEnter => exact ⟨i, _, by rw [sync, hp], by simp [hm, State.return, State.move, hp]⟩
    | _ => simp [Early, hp] at hei
  | opening i hm hi _ _ =>
    exact ⟨i, _, by rw [sync, hi.at_member], by simp [State.move, hi.at_member]⟩
  | leaving hm hl _ hs h0 =>
    have hsome : ∃ i, s.place i ≠ .awaitEnter := by
      by_contra hno
      have hnone := tally_eq_zero (p := (· ≠ Place.awaitEnter)) (f := s.place) (by simpa using hno)
      omega
    obtain ⟨i, hi⟩ := hsome
    rcases hl i with hp | hp | hp
    · exact ⟨i, _, by rw [sync, hp], by simp [hm, State.move, hp]⟩
    · refine ⟨i, _, by rw [sync, hp], ?_⟩
      by_cases hlast : s.step - 1 = 0 <;> simp [State.move, hlast, hp]
    · exact (hi hp).elim
  | closing i hm hi _ _ =>
    exact ⟨i, _, by rw [sync, hi.at_member], by simp [State.return, State.move, hi.at_member]⟩

/-- Nobody returns from a call before all have made it, the counter stays between 0 and the
number of threads, and while all threads are inside one of them gets on. -/
theorem reusable_barrier {s : State n} (hn : 0 < n) (h : Reachable (system n) Unrestricted s) :
    (∀ i j, s.returned i ≤ s.called j) ∧ (0 ≤ s.step ∧ s.step ≤ n) ∧
      ((∀ i, s.place i ≠ .outside) → ∃ i t, sync s i = some t ∧ t.place i ≠ s.place i) := by
  obtain ⟨k, hk⟩ := reachable_phase hn h
  exact ⟨hk.rounds, hk.range, hk.progress⟩

def fast : Fin 2 := ⟨0, Nat.zero_lt_two⟩
def slow : Fin 2 := ⟨1, Nat.one_lt_two⟩

/-- One thread runs ahead into its second call while the other has not come back from its
first. -/
def ahead : List (Event 2) :=
  [.call fast, .sync fast, .call slow, .sync slow, .sync slow, .sync fast, .sync slow,
    .sync fast, .sync fast, .call fast, .sync fast]

def afterAhead : State 2 := (run (system 2) initial ahead).getD initial

theorem reusable_barrier_ahead : afterAhead.place fast = .awaitLeave ∧
    afterAhead.place slow = .awaitEnter ∧
    ∃ i t, sync afterAhead i = some t ∧ t.place i ≠ afterAhead.place i := by
  have hr : Reachable (system 2) Unrestricted afterAhead :=
    .run (.init rfl) ahead (by decide) rfl
  exact ⟨by decide, by decide, (reusable_barrier (by decide) hr).2.2 (by decide)⟩

end SpinBarrier
