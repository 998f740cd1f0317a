import TransactionalMemory.LockLevelOrigins

/-! # Every abort has a conflict in its own epoch

A refused call met a segment that another transaction allocated in this epoch, or a word
that another transaction of this epoch passed. -/
namespace AbortConflicts

open TransitionSystem
open ControlWord
open RegionState
open LockLevel

variable {W : Type*}

/-- What stands in the way of a call of `tx`. -/
def Conflict (s : State W) (tx : Tx) : Call W → Prop
  | .read g k n => (∃ u, u ≠ tx ∧ s.hist.allocBy g = some u) ∨
      ∃ u ∈ s.hist.members, u ≠ tx ∧ ∃ i, k ≤ i ∧ i < k + n ∧ (u, g, i) ∈ s.hist.passedWrite
  | .write g k src => (∃ u, u ≠ tx ∧ s.hist.allocBy g = some u) ∨
      ∃ u ∈ s.hist.members, u ≠ tx ∧ ∃ i, k ≤ i ∧ i < k + src.length ∧ Passed s u g i
  | _ => False

/-- The call that has failed and is being rolled back. -/
def refused : Pc W → Option (Call W)
  | .readHead c | .testOwner c _ _ | .clearWord c _ _ _ | .advanceLink c _ _ |
    .leaveFailed c => some c
  | _ => none

theorem refused_active {p : Pc W} {c : Call W} (h : refused p = some c) : p.active = true := by
  cases p <;> first | rfl | cases h

def Justified (s : State W) : Prop := ∀ tx c, refused (s.pc tx) = some c → Conflict s tx c

variable {s t : State W} {tx : Tx}

theorem boundary_justified {p q : Pc W} (h : Justified s) (hr : Relabel s t tx p q)
    (hb : Boundary Disciplined s tx p q) : Justified t := by
  intro u c hc
  have before : Conflict s u c := by
    by_cases hu : u = tx
    · subst u
      rw [hr.pc, Function.update_self] at hc
      cases hb with
      | @call d => cases d <;> cases hc
      | _ => cases hc
    · exact h u c (by rwa [hr.pc, Function.update_of_ne hu] at hc)
  have passed : ∀ v g i, Passed t v g i ↔ Passed s v g i := fun v g i => by
    simp [Passed, hr.passedRead, hr.passedWrite]
  cases c with
  | read g k n =>
    simp only [Conflict, hr.allocBy, hr.passedWrite] at before ⊢
    refine before.imp id ?_
    rintro ⟨v, hv, rest⟩
    exact ⟨v, hr.members hv, rest⟩
  | write g k src =>
    simp only [Conflict, hr.allocBy, passed] at before ⊢
    refine before.imp id ?_
    rintro ⟨v, hv, rest⟩
    exact ⟨v, hr.members hv, rest⟩
  | alloc | free | finish => exact before.elim

theorem close_justified {p : Pc W} (hi : Invariant s) (hc : Closing s tx p) :
    Justified (leave s tx p) := by
  intro u c hu
  rcases hc.idle hi u with he | he
  · rw [he] at hu
    cases hu
  · rw [refused_active hu] at he
    cases he

variable [Zero W]

/-- Conflicts last until the epoch closes. -/
theorem conflict_mono {u : Tx} {c : Call W} (hf : Frame s t tx) (hl : Lists s) (ho : Origins s)
    (h : Conflict s u c) : Conflict t u c := by
  have alloc : ∀ {g}, (∃ v, v ≠ u ∧ s.hist.allocBy g = some v) →
      ∃ v, v ≠ u ∧ t.hist.allocBy g = some v := by
    rintro g ⟨v, hv, ha⟩
    exact ⟨v, hv, (hf.allocBy_live hl (ho.born g v ha)).trans ha⟩
  have passed : ∀ {v g i}, Passed s v g i → Passed t v g i := fun hp =>
    hp.imp (fun hr => hf.passedRead hr) (fun hw => hf.passedWrite hw)
  cases c with
  | read g k n =>
    refine h.imp alloc ?_
    rintro ⟨v, hv, hne, i, hk, hi, hw⟩
    exact ⟨v, hf.members ▸ hv, hne, i, hk, hi, hf.passedWrite hw⟩
  | write g k src =>
    refine h.imp alloc ?_
    rintro ⟨v, hv, hne, i, hk, hi, hw⟩
    exact ⟨v, hf.members ▸ hv, hne, i, hk, hi, passed hw⟩
  | alloc | free | finish => exact h.elim

theorem new_conflict (ho : Origins s) {g : SegId} (hg : g ∈ s.region.live)
    (hn : (s.region.seg g).newlyAlloc = true) (hne : (s.region.seg g).owner ≠ tx) :
    ∃ u, u ≠ tx ∧ s.hist.allocBy g = some u := by
  rw [(ho.seg g hg).new] at hn
  obtain ⟨u, hu⟩ := Option.isSome_iff_exists.mp hn
  exact ⟨u, fun he => hne (((ho.seg g hg).owner u hu).trans he), hu⟩

/-- The step at which a call fails is where the conflict is met. -/
theorem local_conflict (hi : Invariant s) (ho : Origins s) {q : Pc W}
    (hl : Local s tx (s.pc tx) q) (h : Justified s) {c : Call W} (hq : refused q = some c) :
    Conflict s tx c := by
  have ok := hi.ok tx
  have old := h tx
  generalize s.pc tx = p at hl ok old
  cases hl with
  | conflictRead hn hne =>
    cases hq
    exact .inl (new_conflict ho ok.1 hn hne)
  | conflictWrite hn hne =>
    cases hq
    exact .inl (new_conflict ho ok.1 hn hne)
  | tooFar hlt =>
    have := ok.2
    omega
  | @refusedRead g k n i hin no =>
    cases hq
    obtain ⟨u, hu, hp⟩ := (hi.word g ok.1 (k + i)).read_conflict no
    exact .inr ⟨u, hi.passes.member u g _ (.inr hp), hu, k + i, by omega, by omega, hp⟩
  | @refusedWrite g k src i hin no =>
    cases hq
    obtain ⟨u, hu, hp⟩ := (hi.word g ok.1 (k + i)).write_conflict no
    exact .inr ⟨u, hi.passes.member u g _ hp, hu, k + i, by omega, by omega, hp⟩
  | noDirty | head | notOwner | skipWord | cleared | walked | nextLink => exact old c hq
  | _ => cases hq

theorem micro_justified (hi : Invariant s) (ho : Origins s) (h : Justified s)
    (hm : Micro s tx t) : Justified t := by
  have hf := hm.frame
  intro u c hc
  by_cases hu : u = tx
  · subst u
    have before : Conflict s tx c := by
      cases hm with
      | pcOnly hl =>
        simp only [State.goto, Function.update_self] at hc
        exact local_conflict hi ho hl h hc
      | ownRollback hp | restoreWord hp =>
        simp only [State.goto, Function.update_self] at hc
        exact h tx c (by rw [hp]; exact hc)
      | _ =>
        simp only [State.goto, Function.update_self] at hc
        cases hc
    exact conflict_mono hf hi.lists ho before
  · rw [hf.elsewhere u hu] at hc
    exact conflict_mono hf hi.lists ho (h u c hc)

/-- At the last step of a failing call, and at every earlier step of its rollback. -/
theorem abort_conflict {size : ℕ} (h : Reachable (system W size) Disciplined s) {tx : Tx}
    {c : Call W} (hc : refused (s.pc tx) = some c) : Conflict s tx c :=
  disciplined_with (J := Justified) nofun (fun _ _ _ hi ho hj hm => micro_justified hi ho hj hm)
    (fun _ _ _ _ _ _ hj hr hb => boundary_justified hj hr hb)
    (fun _ _ _ hi _ hc => close_justified hi hc) h tx c hc

/-- Transaction 1 has written word 1; transaction 2 fails at its second word. -/
def collision : List (Event ℕ) :=
  [.begin 3, .begin 1, .begin 2, .call 3 .finish, .advance 3,
    .call 1 (.write 0 1 [7])] ++ List.replicate 7 (.advance 1) ++
    [.call 2 (.write 0 0 [5, 6])] ++ List.replicate 10 (.advance 2)
def collided : State ℕ := (run (system ℕ 2) (initial 2) collision).getD (initial 2)

theorem collided_reachable : Reachable (system ℕ 2) Disciplined collided :=
  Reachable.run (.init rfl) collision (by decide) rfl

theorem abort_conflict_collided : Conflict collided 2 (.write 0 0 [5, 6]) :=
  abort_conflict collided_reachable rfl

end AbortConflicts
