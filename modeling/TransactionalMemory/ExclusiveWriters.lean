import Mathlib.Data.Finset.Basic
import Mathlib.Logic.Function.Basic
import TransactionalMemory.ControlWord
import TransactionalMemory.TransitionSystem

/-! # Exclusive writers within an epoch

The spinlock sections of one epoch, interleaved in any order over any set of words.
A transaction that failed only rolls back from then on. -/
namespace ExclusiveWriters

open TransitionSystem
open ControlWord

variable {ι : Type*}

/-- The control words, with the history of who passed which guard on which word.
`holders w` passed the write guard of `w` and have not rolled `w` back since. -/
structure State (ι : Type*) where
  control : ι → Control
  readers : ι → Finset Tx
  writers : ι → Finset Tx
  holders : ι → Finset Tx
  failed : Finset Tx

inductive Event (ι : Type*) where
  | read (tx : Tx) (w : ι)
  | write (tx : Tx) (w : ι)
  | fail (tx : Tx)
  | rollback (tx : Tx) (w : ι)

def initial : State ι := ⟨fun _ => .zero, fun _ => ∅, fun _ => ∅, fun _ => ∅, ∅⟩

/-- `fail` is an operation that fails elsewhere than at a word of this epoch. -/
def step [DecidableEq ι] (s : State ι) : Event ι → Option (State ι)
  | .read tx w =>
    if tx ≠ 0#64 ∧ tx ∉ s.failed then
      let s' := { s with control := Function.update s.control w (canReadWord tx (s.control w)).2 }
      if (canReadWord tx (s.control w)).1 then
        some { s' with readers := Function.update s.readers w (insert tx (s.readers w)) }
      else some { s' with failed := insert tx s.failed }
    else none
  | .write tx w =>
    if tx ≠ 0#64 ∧ tx ∉ s.failed then
      let s' := { s with control := Function.update s.control w (canWriteWord tx (s.control w)).2 }
      if (canWriteWord tx (s.control w)).1 then
        some { s' with
          writers := Function.update s.writers w (insert tx (s.writers w))
          holders := Function.update s.holders w (insert tx (s.holders w)) }
      else some { s' with failed := insert tx s.failed }
    else none
  | .fail tx => some { s with failed := insert tx s.failed }
  | .rollback tx w =>
    if tx ∈ s.failed then
      let s' := { s with control := Function.update s.control w (rollbackWord tx (s.control w)).2 }
      if (rollbackWord tx (s.control w)).1 then
        some { s' with holders := Function.update s.holders w ((s.holders w).erase tx) }
      else some s'
    else none

abbrev system [DecidableEq ι] : System (State ι) (Event ι) := ⟨fun s => s = initial, step⟩

def State.passed (s : State ι) (w : ι) : Set Tx :=
  {t | t ∉ s.failed ∧ (t ∈ s.readers w ∨ t ∈ s.writers w)}
def State.wrote (s : State ι) (w : ι) : Set Tx := {t | t ∉ s.failed ∧ t ∈ s.writers w}

structure WordInvariant (s : State ι) (w : ι) : Prop where
  exclusive : Exclusive (s.control w) (s.passed w) (s.wrote w)
  held : (s.control w).written = true → s.holders w = {(s.control w).access}
  free : (s.control w).written = false → s.holders w = ∅

theorem WordInvariant.congr {s t : State ι} {w : ι} (h : WordInvariant s w)
    (hc : t.control w = s.control w) (hr : t.readers w = s.readers w)
    (hw : t.writers w = s.writers w) (hh : t.holders w = s.holders w)
    (hf : s.failed ⊆ t.failed) : WordInvariant t w where
  exclusive := by
    rw [hc]
    refine h.exclusive.mono ?_ ?_ ?_
    · rintro u ⟨hu, hp⟩
      exact ⟨fun hin => hu (hf hin), by rwa [hr, hw] at hp⟩
    · rintro u ⟨hu, hp⟩
      exact ⟨fun hin => hu (hf hin), hw ▸ hp⟩
    · rintro u ⟨hu, hp⟩
      exact ⟨hu, .inr hp⟩
  held := by rw [hc, hh]; exact h.held
  free := by rw [hc, hh]; exact h.free

private theorem initial_invariant (w : ι) : WordInvariant (initial : State ι) w where
  exclusive := by
    have hp : (initial : State ι).passed w = ∅ := by simp [State.passed, initial]
    have hw : (initial : State ι).wrote w = ∅ := by simp [State.wrote, initial]
    rw [hp, hw]
    exact exclusive_zero
  held := by simp [initial, Control.zero]
  free := by simp [initial]

variable [DecidableEq ι]

theorem read_preserves {s t : State ι} {tx : Tx} {w : ι} (h : ∀ v, WordInvariant s v)
    (hs : step s (.read tx w) = some t) : ∀ v, WordInvariant t v := by
  simp only [step] at hs
  split at hs
  case isFalse => cases hs
  case isTrue run =>
    split at hs
    case isTrue ok =>
      cases hs
      intro v
      by_cases hv : v = w
      · subst v
        refine ⟨?_, ?_, ?_⟩
        · simp only [Function.update_self]
          refine ((h w).exclusive.read run.1 ok).mono ?_ ?_ ?_
          · rintro u ⟨hu, hp⟩
            simp only [Function.update_self, Finset.mem_insert] at hp
            rcases hp with (rfl | hp) | hp
            · exact Set.mem_insert _ _
            · exact Set.mem_insert_of_mem _ ⟨hu, .inl hp⟩
            · exact Set.mem_insert_of_mem _ ⟨hu, .inr hp⟩
          · exact fun u hu => hu
          · rintro u ⟨hu, hp⟩
            exact ⟨hu, .inr hp⟩
        · intro hw
          simp only [Function.update_self] at hw ⊢
          rw [canReadWord_written] at hw
          rw [show (canReadWord tx (s.control w)).2 = s.control w by simp [canReadWord, hw]]
          exact (h w).held hw
        · intro hw
          simp only [Function.update_self, canReadWord_written] at hw
          exact (h w).free hw
      · exact (h v).congr (by simp [hv]) (by simp [hv]) rfl rfl (Finset.Subset.refl _)
    case isFalse no =>
      cases hs
      have same := (canReadWord_refused (by simpa using no)).1
      intro v
      refine (h v).congr ?_ rfl rfl rfl (Finset.subset_insert _ _)
      simp [same]

theorem write_preserves {s t : State ι} {tx : Tx} {w : ι} (h : ∀ v, WordInvariant s v)
    (hs : step s (.write tx w) = some t) : ∀ v, WordInvariant t v := by
  simp only [step] at hs
  split at hs
  case isFalse => cases hs
  case isTrue run =>
    split at hs
    case isTrue ok =>
      cases hs
      obtain ⟨he, hc⟩ := (h w).exclusive.write run.1 ok
      intro v
      by_cases hv : v = w
      · subst v
        refine ⟨?_, ?_, ?_⟩
        · simp only [Function.update_self]
          refine he.mono ?_ ?_ ?_
          · rintro u ⟨hu, hp⟩
            simp only [Function.update_self, Finset.mem_insert] at hp
            rcases hp with hp | rfl | hp
            · exact Set.mem_insert_of_mem _ ⟨hu, .inl hp⟩
            · exact Set.mem_insert _ _
            · exact Set.mem_insert_of_mem _ ⟨hu, .inr hp⟩
          · rintro u ⟨hu, hp⟩
            simp only [Function.update_self, Finset.mem_insert] at hp
            rcases hp with rfl | hp
            · exact Set.mem_insert _ _
            · exact Set.mem_insert_of_mem _ ⟨hu, hp⟩
          · rintro u ⟨hu, hp⟩
            exact ⟨hu, .inr hp⟩
        · intro _
          simp only [Function.update_self, hc]
          -- a second pass of the same word finds it already held
          cases hw : (s.control w).written with
          | true =>
            have ha : (s.control w).access = tx := canWriteWord_pass ok hw
            simp [(h w).held hw, ha]
          | false => simp [(h w).free hw]
        · intro hw
          simp [hc] at hw
      · exact (h v).congr (by simp [hv]) rfl (by simp [hv]) (by simp [hv])
          (Finset.Subset.refl _)
    case isFalse no =>
      cases hs
      have same := ((h w).exclusive.write_refused (by simpa using no)).1
      intro v
      refine (h v).congr ?_ rfl rfl rfl (Finset.subset_insert _ _)
      simp [same]

theorem rollback_preserves {s t : State ι} {tx : Tx} {w : ι} (h : ∀ v, WordInvariant s v)
    (hs : step s (.rollback tx w) = some t) : ∀ v, WordInvariant t v := by
  simp only [step] at hs
  split at hs
  case isFalse => cases hs
  case isTrue hf =>
    have dead : tx ∉ s.passed w := fun hp => hp.1 hf
    split at hs
    case isTrue hit =>
      cases hs
      obtain ⟨hw, ha⟩ := rollbackWord_hit.mp hit
      intro v
      by_cases hv : v = w
      · subst v
        refine ⟨?_, ?_, ?_⟩
        · simp only [Function.update_self]
          exact (h w).exclusive.rollback dead
        · simp [rollbackWord, hw, ha]
        · intro _
          simp [(h w).held hw, ha]
      · exact (h v).congr (by simp [hv]) rfl rfl (by simp [hv]) (Finset.Subset.refl _)
    case isFalse miss =>
      cases hs
      have same := rollbackWord_miss (by simpa using miss)
      intro v
      refine (h v).congr ?_ rfl rfl rfl (Finset.Subset.refl _)
      simp [same]

theorem step_preserves {s t : State ι} {e : Event ι} (h : ∀ v, WordInvariant s v)
    (hs : step s e = some t) : ∀ v, WordInvariant t v := by
  cases e with
  | read tx w => exact read_preserves h hs
  | write tx w => exact write_preserves h hs
  | rollback tx w => exact rollback_preserves h hs
  | fail tx =>
    cases hs
    exact fun v => (h v).congr rfl rfl rfl rfl (Finset.subset_insert _ _)

theorem reachable_invariant {s : State ι} (h : Reachable system Unrestricted s) :
    ∀ w, WordInvariant s w := by
  refine h.invariant (I := fun s => ∀ w, WordInvariant s w) ?_ ?_
  · rintro s rfl
    exact initial_invariant
  · exact fun s e t hs _ ht => step_preserves hs ht

/-- A written word names its only holder, a holder shares its word with no running
transaction, and the doubtful branch of `can_write_word` is never taken. -/
theorem exclusive_writers {s : State ι} (h : Reachable system Unrestricted s) (w : ι) :
    ((s.control w).written = true → (s.control w).access ≠ 0#64 ∧
      s.holders w = {(s.control w).access} ∧ (s.control w).manyAccesses = false) ∧
    (∀ t ∈ s.holders w, ∀ u, u ≠ t → u ∉ s.failed → u ∉ s.readers w ∧ u ∉ s.writers w) ∧
    (∀ tx, ¬ ((s.control w).written = true ∧ (s.control w).access = tx ∧
      (s.control w).manyAccesses = true)) := by
  have hi := reachable_invariant h w
  refine ⟨fun hw => ⟨(hi.exclusive.owned hw).1, hi.held hw, (hi.exclusive.owned hw).2⟩, ?_, ?_⟩
  · intro t ht u hne hu
    have hw : (s.control w).written = true := by
      by_contra hf
      rw [hi.free (by simpa using hf)] at ht
      exact Finset.notMem_empty t ht
    have hta : t = (s.control w).access := by
      rw [hi.held hw] at ht
      exact Finset.mem_singleton.mp ht
    have alone : u ∉ s.passed w := fun hp =>
      hne ((hi.exclusive.owner_of_written hw hp).trans hta.symm)
    exact ⟨fun hr => alone ⟨hu, .inl hr⟩, fun hr => alone ⟨hu, .inr hr⟩⟩
  · rintro tx ⟨hw, _, hm⟩
    simp [(hi.exclusive.owned hw).2] at hm

/-- Transaction 1 writes word 0, transaction 2 is refused there and rolls back. -/
def contention : List (Event ℕ) := [.write 1 0, .read 2 1, .read 2 0, .rollback 2 0]
def contended : State ℕ := (run system initial contention).getD initial

theorem contended_reachable : Reachable system Unrestricted contended :=
  Reachable.run (.init rfl) contention (by decide) rfl

theorem exclusive_writers_contended : (contended.control 0).access ≠ 0#64 ∧
    contended.holders 0 = {(contended.control 0).access} ∧
    (contended.control 0).manyAccesses = false :=
  (exclusive_writers contended_reachable 0).1 (by decide)

end ExclusiveWriters
