import TransactionalMemory.EpochTurns

/-! # The serial order respects real time

A transaction that begins after another one has ended makes its calls in a later epoch. The
serial orders run the epochs one after the other, so they never put it first. -/
namespace RealTimeOrder

open TransitionSystem
open ControlWord
open CallLog
open AtomicCalls
open PlainMemory
open Serializability
open EpochTurns

variable {W : Type*} {s t : State W} {e : Event W} {size : ℕ} {u v tx : Tx} {k : ℕ}

/-- The logs of all epochs, the open one last. -/
def epochs (s : State W) : List (Log W) := s.closed ++ [s.log]

/-- The transaction made a call, or ended, in an epoch of which `p` holds. -/
def Appears (s : State W) (u : Tx) (p : ℕ → Prop) : Prop :=
  ∃ i log e, (epochs s)[i]? = some log ∧ (u, e) ∈ log ∧ p i

/-- The transaction began and has ended. -/
def Over [DecidableEq W] (s : State W) (u : Tx) : Prop :=
  u ∈ s.used ∧ u ∉ s.active ∧ u ∉ waiters s

instance [DecidableEq W] (s : State W) (u : Tx) : Decidable (Over s u) :=
  inferInstanceAs (Decidable (_ ∧ _ ∧ _))

theorem epochs_get {i : ℕ} {log : Log W} : (epochs s)[i]? = some log ↔
    s.closed[i]? = some log ∨ (i = s.closed.length ∧ log = s.log) := by
  rcases Nat.lt_trichotomy i s.closed.length with hlt | rfl | hgt
  · rw [epochs, List.getElem?_append_left hlt]
    simp [Nat.ne_of_lt hlt]
  · rw [epochs, List.getElem?_concat_length]
    simp [eq_comm]
  · rw [epochs, List.getElem?_eq_none (by rw [List.length_append]; exact hgt)]
    simp [List.getElem?_eq_none (Nat.le_of_lt hgt), Nat.ne_of_gt hgt]

/-- A call of `tx` is logged in the epoch that is open. -/
theorem Appears.logged {p : ℕ → Prop} (h : Appears t u p) {e' : Entry W}
    (hlog : t.log = s.log ++ [(tx, e')]) (hclosed : t.closed = s.closed) :
    Appears s u p ∨ (u = tx ∧ p s.closed.length) := by
  obtain ⟨i, log, e, hi, hin, hp⟩ := h
  rw [epochs_get, hclosed] at hi
  rcases hi with hi | ⟨rfl, rfl⟩
  · exact .inl ⟨i, log, e, epochs_get.mpr (.inl hi), hin, hp⟩
  · rw [hlog, mem_snoc] at hin
    rcases hin with hin | hin
    · exact .inl ⟨_, s.log, e, epochs_get.mpr (.inr ⟨rfl, rfl⟩), hin, hp⟩
    · exact .inr ⟨congrArg Prod.fst hin, hp⟩

/-- The end of `tx` closes the epoch in which it is logged. -/
theorem Appears.closed {p : ℕ → Prop} (h : Appears t u p) {e' : Entry W} (hlog : t.log = [])
    (hclosed : t.closed = s.closed ++ [s.log ++ [(tx, e')]]) :
    Appears s u p ∨ (u = tx ∧ p s.closed.length) := by
  obtain ⟨i, log, e, hi, hin, hp⟩ := h
  rcases epochs_get.mp hi with hi | ⟨-, rfl⟩
  · refine Appears.logged (t := { t with closed := s.closed, log := s.log ++ [(tx, e')] })
      ⟨i, log, e, ?_, hin, hp⟩ rfl rfl
    rwa [epochs, ← hclosed]
  · rw [hlog] at hin
    cases hin

variable [DecidableEq W]

theorem Appears.same {p : ℕ → Prop} (h : Appears t u p) (hb : SameBooks s t) : Appears s u p := by
  rwa [Appears, epochs, hb.log, hb.closed] at h

/-- Names in the logs are those of transactions that began, and an open log has an owner. -/
structure Recorded (s : State W) : Prop where
  named : ∀ u, Appears s u (fun _ => True) → u ∈ s.used
  owned : s.active = ∅ → s.log = []

theorem Recorded.step (h : Recorded s) (hi : Invariant s) (hturn : Turn s t) : Recorded t := by
  have stays : ∀ {tx}, tx ∈ s.active → tx ∈ s.used := fun ha => hi.crew.member _ ha
  cases hturn with
  | begun tx _ hbegun =>
    cases hbegun with
    | admitted _ hb hu ha =>
      exact ⟨fun u hin => hu ▸ Finset.mem_insert_of_mem (h.named u (hin.same hb)), by simp [ha]⟩
    | parked _ hb hu ha =>
      refine ⟨fun u hin => hu ▸ Finset.mem_insert_of_mem (h.named u (hin.same hb)), fun hn => ?_⟩
      rw [hb.log]
      exact h.owned (ha ▸ hn)
  | refused heq =>
    subst t
    exact h
  | called tx e hl _ _ hc =>
    refine ⟨fun u hin => hc.used ▸ ?_, fun hn => ?_⟩
    · rcases hin.logged hl.log hl.closed with hin | ⟨rfl, -⟩
      · exact h.named u hin
      · exact stays hl.active
    · rw [hc.active] at hn
      exact absurd hl.active (by simp [hn])
  | ended tx e _ hend =>
    cases hend with
    | left hl hmore hu ha =>
      refine ⟨fun u hin => hu ▸ ?_, fun hn => ?_⟩
      · rcases hin.logged hl.log hl.closed with hin | ⟨rfl, -⟩
        · exact h.named u hin
        · exact stays hl.active
      · rw [ha] at hn
        exact absurd hn hmore.ne_empty
    | closed ha hu _ _ hlog hclosed =>
      refine ⟨fun u hin => hu ▸ ?_, fun _ => hlog⟩
      rcases hin.closed hlog hclosed with hin | ⟨rfl, -⟩
      · exact h.named u hin
      · exact stays (by simp [ha])

/-- `u` is over and was in epochs before the `k`th, `v` can only be in later ones. -/
structure Apart (s : State W) (u v : Tx) (k : ℕ) : Prop where
  ended : Over s u
  before : ¬ Appears s u (k ≤ ·)
  after : ¬ Appears s v (· < k)
  gate : k ≤ s.closed.length ∨
    (k = s.closed.length + 1 ∧ v ∉ s.active ∧ s.active.Nonempty)

theorem Over.caller (h : Over s u) (ha : tx ∈ s.active) : u ≠ tx := by
  rintro rfl
  exact h.2.1 ha

theorem Apart.logged (h : Apart s u v k) (ha : tx ∈ s.active)
    (happ : ∀ w p, Appears t w p → Appears s w p ∨ (w = tx ∧ p s.closed.length)) :
    ¬ Appears t u (k ≤ ·) ∧ ¬ Appears t v (· < k) := by
  refine ⟨fun hin => ?_, fun hin => ?_⟩
  · rcases happ u _ hin with hin | ⟨hu, -⟩
    · exact h.before hin
    · exact h.ended.caller ha hu
  · rcases happ v _ hin with hin | ⟨rfl, hlt⟩
    · exact h.after hin
    · rcases h.gate with hle | ⟨-, hv, -⟩
      · omega
      · exact hv ha

theorem Apart.step (h : Apart s u v k) (hturn : Turn s t) : Apart t u v k := by
  obtain ⟨hused, hactive, hwait⟩ := h.ended
  cases hturn with
  | begun tx hfresh hbegun =>
    have hne : u ≠ tx := fun he => hfresh (he ▸ hused)
    cases hbegun with
    | admitted hidle hb hu ha hw =>
      refine ⟨⟨hu ▸ Finset.mem_insert_of_mem hused, ?_, ?_⟩, fun hin => h.before (hin.same hb),
        fun hin => h.after (hin.same hb), ?_⟩
      · simpa [ha] using hne
      · simp [hw]
      · rw [hb.closed]
        exact .inl (h.gate.resolve_right fun hg => hg.2.2.ne_empty hidle)
    | parked _ hb hu ha hw =>
      refine ⟨⟨hu ▸ Finset.mem_insert_of_mem hused, ha ▸ hactive, ?_⟩,
        fun hin => h.before (hin.same hb), fun hin => h.after (hin.same hb), ?_⟩
      · rw [hw, Finset.mem_insert, not_or]
        exact ⟨hne, hwait⟩
      · rw [hb.closed, ha]
        exact h.gate
  | refused heq =>
    subst t
    exact h
  | called tx e hl _ _ hc =>
    obtain ⟨hbefore, hafter⟩ := h.logged hl.active fun _ _ hin => hin.logged hl.log hl.closed
    refine ⟨⟨hc.used ▸ hused, hc.active ▸ hactive, hc.waiters ▸ hwait⟩, hbefore, hafter, ?_⟩
    rw [hl.closed, hc.active]
    exact h.gate
  | ended tx e _ hend =>
    cases hend with
    | left hl hmore hu ha hw =>
      obtain ⟨hbefore, hafter⟩ := h.logged hl.active fun _ _ hin => hin.logged hl.log hl.closed
      refine ⟨⟨hu ▸ hused, fun hin => ?_, hw ▸ hwait⟩, hbefore, hafter, ?_⟩
      · exact hactive (Finset.mem_of_mem_erase (ha ▸ hin))
      · rw [hl.closed, ha]
        exact h.gate.imp_right fun hg =>
          ⟨hg.1, fun hin => hg.2.1 (Finset.mem_of_mem_erase hin), hmore⟩
    | closed hsole hu ha hw hlog hclosed =>
      have hrun : tx ∈ s.active := by simp [hsole]
      obtain ⟨hbefore, hafter⟩ := h.logged hrun fun _ _ hin => hin.closed hlog hclosed
      refine ⟨⟨hu ▸ hused, ha ▸ hwait, by simp [hw]⟩, hbefore, hafter, .inl ?_⟩
      rw [hclosed, List.length_append, List.length_singleton]
      rcases h.gate with hle | ⟨heq, -⟩
      · omega
      · omega

/-- From the end of `u` on, before `v` begins. -/
theorem Apart.start (hr : Recorded s) (hu : Over s u) (hv : v ∉ s.used) (hi : Invariant s) :
    ∃ k, Apart s u v k := by
  have never : ∀ p, ¬ Appears s v p := by
    rintro p ⟨i, log, e, hi, hin, -⟩
    exact hv (hr.named v ⟨i, log, e, hi, hin, trivial⟩)
  rcases s.active.eq_empty_or_nonempty with hidle | hbusy
  · refine ⟨s.closed.length, hu, ?_, never _, .inl le_rfl⟩
    rintro ⟨i, log, e, hget, hin, hle⟩
    rcases epochs_get.mp hget with hget | ⟨-, rfl⟩
    · rw [List.getElem?_eq_none hle] at hget
      cases hget
    · rw [hr.owned hidle] at hin
      cases hin
  · refine ⟨s.closed.length + 1, hu, ?_, never _, .inr ⟨rfl, ?_, hbusy⟩⟩
    · rintro ⟨i, log, e, hget, -, hle⟩
      rcases epochs_get.mp hget with hget | ⟨rfl, -⟩
      · rw [List.getElem?_eq_none (Nat.le_of_succ_le hle)] at hget
        cases hget
      · omega
    · exact fun ha => hv (hi.crew.member v ha)

variable [Zero W]

theorem reachable_recorded (h : Reachable (system W size) Client s) : Recorded s := by
  induction h with
  | init hs =>
    cases hs
    refine ⟨?_, fun _ => rfl⟩
    rintro u ⟨i, log, e, hget, hin, -⟩
    have hlog : log ∈ epochs (initial size : State W) := List.mem_of_getElem? hget
    rw [epochs, initial, List.nil_append, List.mem_singleton] at hlog
    subst log
    cases hin
  | step hr hc ht ih =>
    obtain ⟨hi, hs⟩ := reachable_consistent hr
    exact ih.step hi (step_turn hi hs hc ht)

theorem run_apart (h : Reachable (system W size) Client s) (ha : Apart s u v k)
    {es : List (Event W)} (hm : Meets (system W size) Client s es)
    (hrun : run (system W size) s es = some t) : Apart t u v k := by
  induction es generalizing s with
  | nil =>
    cases hrun
    exact ha
  | cons e es ih =>
    obtain ⟨s', hs', hrun⟩ := Option.bind_eq_some_iff.mp hrun
    obtain ⟨hi, hs⟩ := reachable_consistent h
    exact ih (h.step hm.1 hs') (ha.step (step_turn hi hs hm.1 hs')) (hm.2 s' hs') hrun

/-- If `u` has ended before `v` begins, then in every later state the epochs of `u` come
before those of `v`. -/
theorem real_time_order (h : Reachable (system W size) Client s) (hu : Over s u)
    (hv : v ∉ s.used) {es : List (Event W)} (hm : Meets (system W size) Client s es)
    (hrun : run (system W size) s es = some t) {i j : ℕ} {log log' : Log W} {e e' : Entry W}
    (hi : (epochs t)[i]? = some log) (hin : (u, e) ∈ log) (hj : (epochs t)[j]? = some log')
    (hin' : (v, e') ∈ log') : i < j := by
  obtain ⟨k, ha⟩ := Apart.start (reachable_recorded h) hu hv (reachable_consistent h).1
  have hend := run_apart h ha hm hrun
  have hik : i < k := by
    by_contra hik
    exact hend.before ⟨i, log, e, hi, hin, Nat.le_of_not_lt hik⟩
  have hkj : k ≤ j := by
    by_contra hkj
    exact hend.after ⟨j, log', e', hj, hin', Nat.lt_of_not_le hkj⟩
  omega

/-- 2 and 3 run together, and 2 commits a write. -/
def overlap : List (Event ℕ) :=
  [.begin false, .begin false, .begin false, .finish 1, .write 2 0 0 [7], .finish 2]
def overlapped : State ℕ := (run (system ℕ 2) (initial 2) overlap).getD (initial 2)

/-- 4 begins after that, while the epoch is still open. -/
def latecomer : List (Event ℕ) := [.begin false, .finish 3, .read 4 0 0 1]
def late : State ℕ := (run (system ℕ 2) overlapped latecomer).getD (initial 2)

theorem real_time_order_late : (4, .read 0 0 [7]) ∈ late.log ∧ 1 < 2 := by
  have hr : Reachable (system ℕ 2) Client overlapped :=
    Reachable.run (.init rfl) overlap (by decide) rfl
  have hover : Over overlapped 2 := by decide
  have hnew : 4 ∉ overlapped.used := by decide
  have hmeets : Meets (system ℕ 2) Client overlapped latecomer := by decide
  have hlater : run (system ℕ 2) overlapped latecomer = some late := rfl
  have hsecond : (epochs late)[1]? = late.closed[1]? := rfl
  have hclosed : late.closed[1]? = some [(2, .write 0 0 [7]), (2, .commit), (3, .commit)] := rfl
  have hlast : (epochs late)[2]? = some late.log := rfl
  have hlog : (4, .read 0 0 [7]) ∈ late.log := by decide
  exact ⟨hlog, real_time_order hr hover hnew hmeets hlater (hsecond.trans hclosed)
    (List.mem_cons_of_mem _ (List.mem_cons_self ..)) hlast hlog⟩

end RealTimeOrder
