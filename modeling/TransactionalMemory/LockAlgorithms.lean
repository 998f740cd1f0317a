import TransactionalMemory.LockedSections
import TransactionalMemory.ReferenceMemory
import Mathlib.Data.Fintype.Card
import Mathlib.Data.Finset.Card

/-! # The locks

The spinlock of the words, and the four locks that the reference can be compiled with. -/
namespace LockAlgorithms

open TransitionSystem
open LockedSections
open LockedSections.Lock
open ReferenceMemory (lockInit lockAcquire lockAcquireShared unlock)

/-! ### Locks with one flag -/

/-- The next access of the loops of `spinlock_acquire`. -/
inductive Spin where
  | cas
  | load
  deriving DecidableEq, Repr

/-- The compare-and-swap is a weak one: it may fail for no reason, by `choice`. -/
def spinlockAcquire (choice : Bool) : Spin → Bool → Bool × Option Spin
  | .cas, locked => if choice ∧ locked = false then (true, none) else (locked, some .load)
  | .load, locked => (locked, some (if locked then .load else .cas))

abbrev spinlock : Lock where
  Word := Bool
  Wait := Spin
  start := false
  ask _ locked := (locked, .cas)
  poll _ := spinlockAcquire
  release _ _ := false

/-- One try of `pthread_mutex_lock`. -/
def pthreadMutexLock (locked : Bool) : Bool × Option Unit :=
  (true, if locked then some () else none)

abbrev mutex : Lock where
  Word := Bool
  Wait := Unit
  start := false
  ask _ locked := (locked, ())
  poll _ _ _ locked := pthreadMutexLock locked
  release _ _ := false

/-- The lock is granted by setting a flag that was clear. -/
structure Flagged (l : Lock) (flag : l.Word → Bool) : Prop where
  ask : ∀ m word, flag (l.ask m word).1 = flag word
  wait : ∀ m choice w word word' w', l.poll m choice w word = (word', some w') →
    flag word' = flag word
  grant : ∀ m choice w word word', l.poll m choice w word = (word', none) →
    flag word = false ∧ flag word' = true
  release : ∀ m word, flag (l.release m word) = false
  start : flag l.start = false

theorem spinlockAcquire_wait {choice locked locked' : Bool} {w w' : Spin}
    (h : spinlockAcquire choice w locked = (locked', some w')) : locked' = locked := by
  cases w with
  | cas =>
    simp only [spinlockAcquire] at h
    split at h <;> cases h
    rfl
  | load =>
    cases h
    rfl

theorem spinlockAcquire_grant {choice locked locked' : Bool} {w : Spin}
    (h : spinlockAcquire choice w locked = (locked', none)) :
    locked = false ∧ locked' = true := by
  cases w with
  | cas =>
    simp only [spinlockAcquire] at h
    split at h
    case isTrue hfree =>
      cases h
      exact ⟨hfree.2, rfl⟩
    case isFalse => cases h
  | load => cases h

theorem spinlock_flagged : Flagged spinlock id where
  ask _ _ := rfl
  wait _ _ _ _ _ _ h := spinlockAcquire_wait h
  grant _ _ _ _ _ h := spinlockAcquire_grant h
  release _ _ := rfl
  start := rfl

theorem mutex_flagged : Flagged mutex id where
  ask _ _ := rfl
  wait m choice w word word' w' h := by
    cases word with
    | false => cases h
    | true =>
      cases h
      rfl
  grant m choice w word word' h := by
    cases word with
    | false =>
      cases h
      exact ⟨rfl, rfl⟩
    | true => cases h
  release _ _ := rfl
  start := rfl

variable {T : Type*} [DecidableEq T] {l : Lock}

/-- The flag is set while somebody holds the lock, and nobody else does then. -/
structure Taken (flag : l.Word → Bool) (s : l.State T) : Prop where
  alone : ∀ t u m n, s.phase t = .holding m → s.phase u = .holding n → u = t
  set : flag s.word = true ↔ ∃ t m, s.phase t = .holding m

namespace Flagged

variable {flag : l.Word → Bool} {s s' : l.State T}

/-- A thread moves outside the lock. -/
theorem outside (h : Taken flag s) {t : T} {p : Phase l.Wait} {word : l.Word}
    (hout : ∀ m, s.phase t ≠ .holding m) (hp : ∀ m, p ≠ .holding m)
    (hw : flag word = flag s.word) (hs : s'.phase = Function.update s.phase t p)
    (hword : s'.word = word) : Taken flag s' := by
  have holds : ∀ u m, s'.phase u = .holding m ↔ s.phase u = .holding m := by
    intro u m
    by_cases hu : u = t
    · rw [hs, hu, Function.update_self]
      exact ⟨fun h => (hp m h).elim, fun h => (hout m h).elim⟩
    · rw [hs, Function.update_of_ne hu]
  refine ⟨fun u v m n hu hv => ?_, ?_⟩
  · exact h.alone u v m n ((holds u m).mp hu) ((holds v n).mp hv)
  · rw [hword, hw, h.set]
    exact exists_congr fun u => exists_congr fun m => (holds u m).symm

theorem reachable_taken (hl : Flagged l flag)
    (h : Reachable (Lock.system l T) Unrestricted s) : Taken flag s := by
  refine reachable_of_moves ?_ (fun s e s' hi hm => ?_) h
  · refine ⟨fun t u m n ht => ?_, ?_⟩
    · cases ht
    · simp [Lock.initial, hl.start]
  · cases hm with
    | @ask t m hp =>
      exact outside hi (fun n hn => by simp [hp] at hn) (fun n => by simp) (hl.ask m s.word) rfl rfl
    | @wait t m choice w word w' hp hw =>
      exact outside hi (fun n hn => by simp [hp] at hn) (fun n => by simp)
        (hl.wait _ _ _ _ _ _ hw) rfl rfl
    | @grant t m choice w word hp hw =>
      obtain ⟨hfree, hset⟩ := hl.grant _ _ _ _ _ hw
      have hnone : ∀ u n, s.phase u ≠ .holding n := by
        intro u n hu
        rw [hi.set.mpr ⟨u, n, hu⟩] at hfree
        cases hfree
      have only : ∀ u n, (s.grant t m word).phase u = .holding n → u = t := by
        intro u n hu
        by_contra hut
        exact hnone u n (by simpa [State.grant, hut] using hu)
      refine ⟨fun u v n k hu hv => (only v k hv).trans (only u n hu).symm, ?_⟩
      exact ⟨fun _ => ⟨t, m, by simp [State.grant]⟩, fun _ => hset⟩
    | @release t m hp =>
      have hnone : ∀ u n, (s.leave t m).phase u ≠ .holding n := by
        intro u n hu
        by_cases hut : u = t
        · simp [State.leave, hut] at hu
        · have hold : s.phase u = .holding n := by simpa [State.leave, hut] using hu
          exact hut (hi.alone t u m n hp hold)
      refine ⟨fun u v n k hu => (hnone u n hu).elim, ?_⟩
      have hclear : flag (s.leave t m).word = false := hl.release m s.word
      rw [hclear]
      refine iff_of_false Bool.false_ne_true ?_
      rintro ⟨u, n, hu⟩
      exact hnone u n hu

theorem excludes (hl : Flagged l flag) : l.Excludes T := by
  intro s h t u m ht hu
  exact (hl.reachable_taken h).alone t u _ m ht hu

theorem free (hl : Flagged l flag) (h : Reachable (Lock.system l T) Unrestricted s)
    (hnone : ∀ t m, s.phase t ≠ .holding m) : flag s.word = false := by
  have taken := hl.reachable_taken h
  by_contra hset
  obtain ⟨t, m, ht⟩ := taken.set.mp (by simpa using hset)
  exact hnone t m ht

end Flagged

theorem spinlock_progresses : spinlock.Progresses T := by
  rintro s h hnone ⟨t, m, w, hw⟩
  have hfree : s.word = false := spinlock_flagged.free h hnone
  have free : ∀ {s : spinlock.State T}, s.word = false → s.phase t = .waiting m Spin.cas →
      s.Grantable := by
    intro s hfree hw
    have hpoll : spinlock.poll m true Spin.cas s.word = (true, none) := by
      rw [hfree]
      rfl
    exact .now hw hpoll
  cases w with
  | cas => exact free hfree hw
  | load =>
    have hpoll : spinlock.poll m true Spin.load s.word = (false, some Spin.cas) := by
      rw [hfree]
      rfl
    exact .later hw hpoll (free rfl (by simp [State.wait]))

theorem mutex_progresses : mutex.Progresses T := by
  rintro s h hnone ⟨t, m, w, hw⟩
  have hfree : s.word = false := mutex_flagged.free h hnone
  have hpoll : mutex.poll m true w s.word = (true, none) := by
    rw [hfree]
    rfl
  exact .now hw hpoll

/-! ### The ticket lock -/

structure TicketLock where
  pass : BitVec 64
  take : BitVec 64
  deriving DecidableEq, Repr

/-- `lock_acquire` takes a ticket, which never waits, and polls until it is its turn. -/
abbrev ticketLock : Lock where
  Word := TicketLock
  Wait := BitVec 64
  start := ⟨0, 0⟩
  ask _ lock := ({ lock with take := lock.take + 1 }, lock.take)
  poll _ _ ticket lock := (lock, if lock.pass ≠ ticket then some ticket else none)
  release _ lock := { lock with pass := lock.pass + 1 }

/-- Who holds the lock and who waits, in the order of their tickets. -/
structure Line (s : ticketLock.State T) (holder : Option T) (queue : List T) : Prop where
  nodup : (holder.toList ++ queue).Nodup
  take : s.word.take = s.word.pass + BitVec.ofNat 64 (holder.toList ++ queue).length
  inside : ∀ t, holder = some t ↔ ∃ m, s.phase t = .holding m
  outside : ∀ t, t ∈ queue ↔ ∃ m w, s.phase t = .waiting m w
  ticket : ∀ (i : ℕ) t m w, (holder.toList ++ queue)[i]? = some t → s.phase t = .waiting m w →
    w = s.word.pass + BitVec.ofNat 64 i
  history : s.asked = s.granted ++ queue

namespace Line

variable {s : ticketLock.State T} {holder : Option T} {queue : List T} {t : T} {m : Mode}

omit [DecidableEq T] in
theorem away (h : Line s holder queue) (hp : s.phase t = .away) : t ∉ holder.toList ++ queue := by
  intro hin
  rcases List.mem_append.mp hin with hin | hin
  · obtain ⟨m, hm⟩ := (h.inside t).mp (by simpa using hin)
    rw [hp] at hm
    cases hm
  · obtain ⟨m, w, hw⟩ := (h.outside t).mp hin
    rw [hp] at hw
    cases hw

theorem ask (h : Line s holder queue) (hp : s.phase t = .away) :
    Line (s.arrive t m) holder (queue ++ [t]) := by
  have hnot := h.away hp
  have hother : ∀ u, u ≠ t → (s.arrive t m).phase u = s.phase u := fun u hu => by
    simp [State.arrive, hu]
  have here : (s.arrive t m).phase t = .waiting m s.word.take := by simp [State.arrive, ticketLock]
  refine ⟨?_, ?_, fun u => ?_, fun u => ?_, fun i u n w hi hw => ?_, ?_⟩
  · rw [← List.append_assoc, ← List.concat_eq_append]
    exact h.nodup.concat hnot
  · show s.word.take + 1 = s.word.pass + _
    rw [← List.append_assoc, @List.length_append _ _ [t], BitVec.ofNat_add, ← BitVec.add_assoc,
      ← h.take]
    rfl
  · by_cases hu : u = t
    · subst u
      rw [here]
      have hno : holder ≠ some t := by
        rintro rfl
        exact hnot (by simp)
      simp [hno]
    · rw [hother u hu]
      exact h.inside u
  · by_cases hu : u = t
    · subst u
      rw [here]
      exact ⟨fun _ => ⟨m, _, rfl⟩, fun _ => by simp⟩
    · rw [hother u hu, List.mem_append, List.mem_singleton, or_iff_left hu]
      exact h.outside u
  · rw [← List.append_assoc, List.getElem?_append] at hi
    split at hi
    case isTrue hlt =>
      have hu : u ≠ t := by
        rintro rfl
        exact hnot (List.mem_of_getElem? hi)
      rw [hother u hu] at hw
      exact h.ticket i u n w hi hw
    case isFalse hge =>
      obtain ⟨hlt, rfl⟩ := List.getElem?_eq_some_iff.mp hi
      have hlen : i = (holder.toList ++ queue).length := by
        rw [List.length_singleton] at hlt
        omega
      rw [List.getElem_singleton, here] at hw
      cases hw
      rw [hlen]
      exact h.take
  · show s.asked ++ [t] = s.granted ++ (queue ++ [t])
    rw [h.history, List.append_assoc]

theorem wait (h : Line s holder queue) {w : BitVec 64} (hp : s.phase t = .waiting m w) :
    Line (s.wait t m s.word w) holder queue := by
  have same : (s.wait t m s.word w).phase = s.phase := by
    show Function.update s.phase t _ = s.phase
    rw [← hp, Function.update_eq_self]
  exact ⟨h.nodup, h.take, same.symm ▸ h.inside, same.symm ▸ h.outside, same.symm ▸ h.ticket,
    h.history⟩

/-- Only the first in line has the ticket that `pass` shows, as long as no two tickets in line
are equal. -/
theorem grant (h : Line s holder queue) (hlen : (holder.toList ++ queue).length ≤ 2 ^ 64)
    (hp : s.phase t = .waiting m s.word.pass) :
    ∃ rest, holder = none ∧ queue = t :: rest ∧ Line (s.grant t m s.word) (some t) rest := by
  have hin : t ∈ holder.toList ++ queue :=
    List.mem_append_right _ ((h.outside t).mpr ⟨m, _, hp⟩)
  obtain ⟨i, hi⟩ := List.mem_iff_getElem?.mp hin
  have hfirst : i = 0 := by
    have hlt : i < 2 ^ 64 := by
      obtain ⟨hlt, -⟩ := List.getElem?_eq_some_iff.mp hi
      omega
    have hpass := h.ticket i t m _ hi hp
    have hzero : BitVec.ofNat 64 i = 0 := by
      have hadd : s.word.pass + 0#64 = s.word.pass + BitVec.ofNat 64 i := by
        rw [BitVec.add_zero]
        exact hpass
      exact (BitVec.add_right_inj _).mp hadd.symm
    have hnat := congrArg BitVec.toNat hzero
    rwa [BitVec.toNat_ofNat, Nat.mod_eq_of_lt hlt] at hnat
  subst i
  have hnone : holder = none := by
    cases hh : holder with
    | none => rfl
    | some u =>
      rw [hh] at hi
      cases hi
      obtain ⟨n, hn⟩ := (h.inside t).mp hh
      rw [hp] at hn
      cases hn
  subst hnone
  cases queue with
  | nil => cases hi
  | cons u rest =>
    cases hi
    have here : (s.grant t m s.word).phase t = .holding m := by simp [State.grant]
    have hother : ∀ u, u ≠ t → (s.grant t m s.word).phase u = s.phase u := fun u hu => by
      simp [State.grant, hu]
    have hrest : t ∉ rest := (List.nodup_cons.mp h.nodup).1
    refine ⟨rest, rfl, rfl, h.nodup, h.take, fun u => ?_, fun u => ?_, fun i u n w hi hw => ?_, ?_⟩
    · by_cases hu : u = t
      · subst u
        rw [here]
        exact ⟨fun _ => ⟨m, rfl⟩, fun _ => rfl⟩
      · rw [hother u hu, ← h.inside u]
        simp [Ne.symm hu]
    · by_cases hu : u = t
      · subst u
        rw [here]
        simp [hrest]
      · rw [hother u hu, ← h.outside u]
        simp [hu]
    · have hu : u ≠ t := by
        rintro rfl
        rw [here] at hw
        cases hw
      rw [hother u hu] at hw
      exact h.ticket i u n w hi hw
    · show s.asked = s.granted ++ [t] ++ rest
      rw [h.history, List.append_assoc]
      rfl

theorem release (h : Line s holder queue) (hp : s.phase t = .holding m) :
    Line (s.leave t m) none queue := by
  have hholder : holder = some t := (h.inside t).mpr ⟨m, hp⟩
  subst hholder
  have here : (s.leave t m).phase t = .away := by simp [State.leave]
  have hother : ∀ u, u ≠ t → (s.leave t m).phase u = s.phase u := fun u hu => by
    simp [State.leave, hu]
  have hout : t ∉ queue := (List.nodup_cons.mp h.nodup).1
  refine ⟨(List.nodup_cons.mp h.nodup).2, ?_, fun u => ?_, fun u => ?_, fun i u n w hi hw => ?_, ?_⟩
  · show s.word.take = s.word.pass + 1 + _
    rw [h.take, BitVec.add_assoc]
    refine congrArg (s.word.pass + ·) ?_
    show BitVec.ofNat 64 (queue.length + 1) = 1#64 + BitVec.ofNat 64 queue.length
    rw [Nat.add_comm, BitVec.ofNat_add]
  · by_cases hu : u = t
    · subst u
      simp [here]
    · rw [hother u hu, ← h.inside u]
      simp [Ne.symm hu]
  · by_cases hu : u = t
    · subst u
      simp [here, hout]
    · rw [hother u hu]
      exact h.outside u
  · have hu : u ≠ t := by
      rintro rfl
      rw [here] at hw
      cases hw
    rw [hother u hu] at hw
    rw [h.ticket (i + 1) u n w hi hw]
    show s.word.pass + BitVec.ofNat 64 (i + 1) = s.word.pass + 1#64 + BitVec.ofNat 64 i
    rw [BitVec.add_assoc, Nat.add_comm, BitVec.ofNat_add]
  · exact h.history

end Line

section tickets

variable [Fintype T] {s : ticketLock.State T}

/-- Tickets in line differ as long as there are no more threads than tickets. -/
theorem reachable_line (hT : Fintype.card T ≤ 2 ^ 64)
    (h : Reachable (Lock.system ticketLock T) Unrestricted s) :
    ∃ holder queue, Line s holder queue := by
  refine reachable_of_moves (I := fun s => ∃ holder queue, Line s holder queue) ?_ ?_ h
  · refine ⟨none, [], List.nodup_nil, rfl, fun t => ?_, fun t => ?_, fun i t m w hi => ?_, rfl⟩
    · simp [Lock.initial]
    · simp [Lock.initial]
    · cases hi
  · rintro s e s' ⟨holder, queue, hline⟩ hm
    cases hm with
    | ask hp => exact ⟨_, _, hline.ask hp⟩
    | @wait t m choice w word w' hp hw =>
      simp only [ticketLock, Prod.mk.injEq] at hw
      obtain ⟨rfl, hw⟩ := hw
      split at hw
      case isTrue =>
        cases hw
        exact ⟨_, _, hline.wait hp⟩
      case isFalse => cases hw
    | @grant t m choice w word hp hw =>
      simp only [ticketLock, Prod.mk.injEq] at hw
      obtain ⟨rfl, hw⟩ := hw
      split at hw
      case isTrue => cases hw
      case isFalse hpass =>
        have hpass : s.word.pass = w := by simpa using hpass
        subst w
        obtain ⟨rest, -, -, hline⟩ := hline.grant (hline.nodup.length_le_card.trans hT) hp
        exact ⟨_, _, hline⟩
    | release hp => exact ⟨_, _, hline.release hp⟩

theorem ticketLock_excludes (hT : Fintype.card T ≤ 2 ^ 64) : ticketLock.Excludes T := by
  intro s h t u m ht hu
  obtain ⟨holder, queue, hline⟩ := reachable_line hT h
  have htake := (hline.inside t).mpr ⟨_, ht⟩
  have hutake := (hline.inside u).mpr ⟨_, hu⟩
  exact Option.some.inj (hutake.symm.trans htake)

theorem ticketLock_fifo (hT : Fintype.card T ≤ 2 ^ 64) :
    ticketLock.FirstComeFirstServed T := by
  intro s h
  obtain ⟨holder, queue, hline⟩ := reachable_line hT h
  exact ⟨queue, hline.history.symm⟩

theorem ticketLock_progresses (hT : Fintype.card T ≤ 2 ^ 64) : ticketLock.Progresses T := by
  rintro s h hnone ⟨t, m, w, hw⟩
  obtain ⟨holder, queue, hline⟩ := reachable_line hT h
  have hholder : holder = none := by
    cases hh : holder with
    | none => rfl
    | some u =>
      obtain ⟨n, hn⟩ := (hline.inside u).mp hh
      exact (hnone u n hn).elim
  subst hholder
  cases queue with
  | nil => cases (hline.outside t).mpr ⟨m, w, hw⟩
  | cons u rest =>
    obtain ⟨n, v, hv⟩ := (hline.outside u).mp List.mem_cons_self
    have hpass : v = s.word.pass := by
      rw [hline.ticket 0 u n v rfl hv]
      exact BitVec.add_zero _
    have hpoll : ticketLock.poll n true v s.word = (s.word, none) := by
      rw [hpass]
      simp [ticketLock]
    exact .now hv hpoll

end tickets

/-! ### The reader-writer lock -/

/-- One try of `pthread_rwlock_wrlock` or `pthread_rwlock_rdlock`. -/
def rwlockAcquire (lock : ReferenceMemory.Lock) : Mode → Option ReferenceMemory.Lock
  | .exclusive => lockAcquire lock
  | .shared => lockAcquireShared lock

abbrev rwlock : Lock where
  Word := ReferenceMemory.Lock
  Wait := Unit
  start := lockInit
  ask _ lock := (lock, ())
  poll m _ _ lock :=
    match rwlockAcquire lock m with
    | some lock => (lock, none)
    | none => (lock, some ())
  release _ lock := unlock lock

/-- `readers` share the lock. -/
structure Shares (s : rwlock.State T) (readers : Finset T) : Prop where
  count : s.word.readers = readers.card
  shared : ∀ t, t ∈ readers ↔ s.phase t = .holding .shared
  writer : s.word.writer = true ↔ ∃ t, s.phase t = .holding .exclusive
  alone : ∀ t u m, s.phase t = .holding .exclusive → s.phase u = .holding m → u = t

namespace Shares

variable {s s' : rwlock.State T} {readers : Finset T} {t : T}

theorem outside (h : Shares s readers) {p : Phase Unit} (hout : ∀ m, s.phase t ≠ .holding m)
    (hp : ∀ m, p ≠ .holding m) (hw : s'.word = s.word)
    (hs : s'.phase = Function.update s.phase t p) : Shares s' readers := by
  have holds : ∀ u m, s'.phase u = .holding m ↔ s.phase u = .holding m := by
    intro u m
    by_cases hu : u = t
    · rw [hs, hu, Function.update_self]
      exact ⟨fun h => (hp m h).elim, fun h => (hout m h).elim⟩
    · rw [hs, Function.update_of_ne hu]
  refine ⟨hw ▸ h.count, fun u => ?_, ?_, fun u v m hu hv => ?_⟩
  · rw [holds]
    exact h.shared u
  · rw [hw, h.writer]
    exact exists_congr fun u => (holds u _).symm
  · exact h.alone u v m ((holds u _).mp hu) ((holds v m).mp hv)

omit [DecidableEq T] in
theorem nobody (h : Shares s readers) (hr : s.word.readers = 0) (hw : s.word.writer = false)
    (u : T) (m : Mode) : s.phase u ≠ .holding m := by
  intro hu
  cases m with
  | exclusive =>
    rw [h.writer.mpr ⟨u, hu⟩] at hw
    cases hw
  | shared =>
    rw [h.count, Finset.card_eq_zero] at hr
    exact Finset.notMem_empty u (hr ▸ (h.shared u).mpr hu)

theorem grant_exclusive (h : Shares s readers) (hr : s.word.readers = 0)
    (hw : s.word.writer = false) :
    Shares (s.grant t .exclusive { s.word with writer := true }) ∅ := by
  have here : (s.grant t .exclusive { s.word with writer := true }).phase t =
      .holding .exclusive := by simp [State.grant]
  have only : ∀ u m, (s.grant t .exclusive { s.word with writer := true }).phase u =
      .holding m → u = t := by
    intro u m hu
    by_contra hut
    exact h.nobody hr hw u m (by simpa [State.grant, hut] using hu)
  refine ⟨hr, fun u => ?_, ⟨fun _ => ⟨t, here⟩, fun _ => rfl⟩, fun u v m hu hv => ?_⟩
  · refine ⟨fun hin => (Finset.notMem_empty u hin).elim, fun hu => ?_⟩
    have hut := only u _ hu
    subst u
    rw [here] at hu
    cases hu
  · exact (only v m hv).trans (only u _ hu).symm

theorem grant_shared (h : Shares s readers) (hout : ∀ m, s.phase t ≠ .holding m)
    (hw : s.word.writer = false) :
    Shares (s.grant t .shared { s.word with readers := s.word.readers + 1 })
      (insert t readers) := by
  have hnone : ∀ u, (s.grant t .shared { s.word with readers := s.word.readers + 1 }).phase u ≠
      .holding .exclusive := by
    intro u hu
    by_cases hut : u = t
    · simp [State.grant, hut] at hu
    · have hold : s.phase u = .holding .exclusive := by simpa [State.grant, hut] using hu
      rw [h.writer.mpr ⟨u, hold⟩] at hw
      cases hw
  have hnot : t ∉ readers := fun hin => hout _ ((h.shared t).mp hin)
  refine ⟨?_, fun u => ?_, ?_, fun u v m hu => (hnone u hu).elim⟩
  · rw [Finset.card_insert_of_notMem hnot, ← h.count]
    rfl
  · by_cases hu : u = t
    · simp [hu, State.grant]
    · simpa [hu, State.grant] using h.shared u
  · show s.word.writer = true ↔ _
    rw [hw]
    exact iff_of_false Bool.false_ne_true (not_exists.mpr hnone)

theorem release_exclusive (h : Shares s readers) (hp : s.phase t = .holding .exclusive) :
    Shares (s.leave t .exclusive) readers := by
  have hw : s.word.writer = true := h.writer.mpr ⟨t, hp⟩
  have hword : (s.leave t .exclusive).word = { s.word with writer := false } := by
    show unlock s.word = _
    rw [unlock, if_pos hw]
  have hnone : ∀ u m, (s.leave t .exclusive).phase u ≠ .holding m := by
    intro u m hu
    by_cases hut : u = t
    · simp [State.leave, hut] at hu
    · have hold : s.phase u = .holding m := by simpa [State.leave, hut] using hu
      exact hut (h.alone t u m hp hold)
  refine ⟨?_, fun u => ?_, ?_, fun u v m hu => (hnone u _ hu).elim⟩
  · rw [hword]
    exact h.count
  · refine ⟨fun hin => ?_, fun hu => (hnone u _ hu).elim⟩
    have hu := (h.shared u).mp hin
    have hut := h.alone t u _ hp hu
    rw [hut, hp] at hu
    cases hu
  · rw [hword]
    exact iff_of_false Bool.false_ne_true (not_exists.mpr fun u => hnone u _)

theorem release_shared (h : Shares s readers) (hp : s.phase t = .holding .shared) :
    Shares (s.leave t .shared) (readers.erase t) := by
  have hnone : ∀ u, s.phase u ≠ .holding .exclusive := by
    intro u hu
    have htu := h.alone u t _ hu hp
    rw [← htu, hp] at hu
    cases hu
  have hw : s.word.writer = false := by
    by_contra hset
    obtain ⟨u, hu⟩ := h.writer.mp (by simpa using hset)
    exact hnone u hu
  have hword : (s.leave t .shared).word = { s.word with readers := s.word.readers - 1 } := by
    show unlock s.word = _
    rw [unlock, if_neg (by simp [hw])]
  have hnone' : ∀ u, (s.leave t .shared).phase u ≠ .holding .exclusive := by
    intro u hu
    by_cases hut : u = t
    · simp [State.leave, hut] at hu
    · exact hnone u (by simpa [State.leave, hut] using hu)
  refine ⟨?_, fun u => ?_, ?_, fun u v m hu => (hnone' u hu).elim⟩
  · rw [hword, Finset.card_erase_of_mem ((h.shared t).mpr hp), ← h.count]
  · by_cases hu : u = t
    · simp [hu, State.leave]
    · simpa [hu, State.leave] using h.shared u
  · rw [hword]
    show s.word.writer = true ↔ _
    rw [hw]
    exact iff_of_false Bool.false_ne_true (not_exists.mpr hnone')

end Shares

section readers

variable {s : rwlock.State T}

theorem rwlock_poll {choice : Bool} {m : Mode} {w : Unit} {word word' : ReferenceMemory.Lock} :
    (rwlock.poll m choice w word = (word', none) ↔ rwlockAcquire word m = some word') ∧
      ∀ w', rwlock.poll m choice w word = (word', some w') → word' = word := by
  simp only [rwlock]
  split
  case h_1 lock hlock => simp [hlock]
  case h_2 hlock => simp [hlock, eq_comm]

theorem reachable_shares (h : Reachable (Lock.system rwlock T) Unrestricted s) :
    ∃ readers, Shares s readers := by
  refine reachable_of_moves (I := fun s => ∃ readers, Shares s readers) ?_ ?_ h
  · refine ⟨∅, rfl, fun t => ?_, ?_, fun t u m ht => ?_⟩
    · simp [Lock.initial]
    · simp [Lock.initial, lockInit]
    · cases ht
  · rintro s e s' ⟨readers, hi⟩ hm
    cases hm with
    | ask hp =>
      exact ⟨_, hi.outside (fun n hn => by simp [hp] at hn) (fun n => by simp) rfl rfl⟩
    | wait hp hw =>
      have hword := rwlock_poll.2 _ hw
      exact ⟨_, hi.outside (fun n hn => by simp [hp] at hn) (fun n => by simp) hword rfl⟩
    | @grant t m choice w word hp hw =>
      have hgot := rwlock_poll.1.mp hw
      cases m with
      | exclusive =>
        simp only [rwlockAcquire, lockAcquire] at hgot
        split at hgot
        case isTrue hfree =>
          cases hgot
          exact ⟨_, hi.grant_exclusive hfree.1 hfree.2⟩
        case isFalse => cases hgot
      | shared =>
        simp only [rwlockAcquire, lockAcquireShared] at hgot
        split at hgot
        case isTrue => cases hgot
        case isFalse hfree =>
          cases hgot
          exact ⟨_, hi.grant_shared (fun n hn => by simp [hp] at hn) (by simpa using hfree)⟩
    | @release t m hp =>
      cases m with
      | exclusive => exact ⟨_, hi.release_exclusive hp⟩
      | shared => exact ⟨_, hi.release_shared hp⟩

theorem rwlock_excludes : rwlock.Excludes T := by
  intro s h t u m ht hu
  obtain ⟨readers, hi⟩ := reachable_shares h
  exact hi.alone t u m ht hu

theorem rwlock_progresses : rwlock.Progresses T := by
  rintro s h hnone ⟨t, m, w, hw⟩
  obtain ⟨readers, hi⟩ := reachable_shares h
  have hreaders : s.word.readers = 0 := by
    rw [hi.count, Finset.card_eq_zero, Finset.eq_empty_iff_forall_notMem]
    exact fun u hu => hnone u _ ((hi.shared u).mp hu)
  have hwriter : s.word.writer = false := by
    by_contra hset
    obtain ⟨u, hu⟩ := hi.writer.mp (by simpa using hset)
    exact hnone u _ hu
  have hgo : ∃ word, rwlockAcquire s.word m = some word := by
    cases m with
    | exclusive => exact ⟨_, if_pos ⟨hreaders, hwriter⟩⟩
    | shared => exact ⟨_, if_neg (by simp [hwriter])⟩
  obtain ⟨word, hword⟩ := hgo
  have hpoll : rwlock.poll m true w s.word = (word, none) := rwlock_poll.1.mpr hword
  exact .now hw hpoll

end readers

/-! ### The choice of the lock -/

/-- `USE_PTHREAD_LOCK`, `USE_TICKET_LOCK`, `USE_RW_LOCK`, or the test-and-test-and-set lock. -/
inductive LockChoice where
  | pthread
  | ticket
  | rw
  | testAndTestAndSet
  deriving DecidableEq, Repr

def LockChoice.lock : LockChoice → Lock
  | .pthread => mutex
  | .ticket => ticketLock
  | .rw => rwlock
  | .testAndTestAndSet => spinlock

/-- Whatever lock is chosen, who holds it to write holds it alone, and a free lock can be
granted. Tickets are served in the order in which they were taken, also where the 64-bit
counters wrap around. -/
theorem locks_exclude [Fintype T] (hT : Fintype.card T ≤ 2 ^ 64) (choice : LockChoice) :
    choice.lock.Excludes T ∧ choice.lock.Progresses T ∧
      (choice = .ticket → choice.lock.FirstComeFirstServed T) := by
  cases choice with
  | pthread => exact ⟨mutex_flagged.excludes, mutex_progresses, nofun⟩
  | ticket =>
    exact ⟨ticketLock_excludes hT, ticketLock_progresses hT, fun _ => ticketLock_fifo hT⟩
  | rw => exact ⟨rwlock_excludes, rwlock_progresses, nofun⟩
  | testAndTestAndSet => exact ⟨spinlock_flagged.excludes, spinlock_progresses, nofun⟩

/-- 0 holds the lock while 1 and 2 take tickets, in this order, and releases it. -/
def contention : List (Event (Fin 3)) :=
  [.ask 0 .exclusive, .ask 1 .exclusive, .ask 2 .exclusive, .poll 0 true, .poll 2 true,
    .poll 1 true, .release 0]
def released : ticketLock.State (Fin 3) :=
  (run (Lock.system ticketLock (Fin 3)) (ticketLock.initial (Fin 3)) contention).getD
    (ticketLock.initial (Fin 3))
/-- 2 polls first, but it is the turn of 1. -/
def contended : ticketLock.State (Fin 3) :=
  (run (Lock.system ticketLock (Fin 3)) released [.poll 2 true, .poll 1 true]).getD released

theorem released_reachable :
    Reachable (Lock.system ticketLock (Fin 3)) Unrestricted released :=
  Reachable.run (.init rfl) contention (by decide) rfl

theorem contended_reachable :
    Reachable (Lock.system ticketLock (Fin 3)) Unrestricted contended :=
  released_reachable.run [.poll 2 true, .poll 1 true] (by decide) rfl

theorem locks_exclude_contended : released.Grantable ∧
    contended.phase 1 = .holding .exclusive ∧ contended.phase 2 = .waiting .exclusive 2 ∧
    (∀ u m, contended.phase u = .holding m → u = 1) ∧
    contended.granted = [0, 1] ∧ contended.granted <+: contended.asked := by
  obtain ⟨hexcludes, hprogresses, hfifo⟩ := locks_exclude (T := Fin 3) (by decide) .ticket
  have hnone : ∀ t m, released.phase t ≠ .holding m := by
    intro t m ht
    obtain rfl | rfl | rfl : t = 0 ∨ t = 1 ∨ t = 2 := by omega
    all_goals cases ht
  refine ⟨?_, rfl, rfl, fun u m hu => ?_, rfl, ?_⟩
  · exact hprogresses released released_reachable hnone ⟨1, .exclusive, _, rfl⟩
  · exact hexcludes contended contended_reachable 1 u m rfl hu
  · exact hfifo rfl contended contended_reachable

end LockAlgorithms
