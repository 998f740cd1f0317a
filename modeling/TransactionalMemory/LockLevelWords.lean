import TransactionalMemory.LockLevelLists

/-! # Marks, copies and flags of a segment at lock granularity

What holds of each word whatever the transactions are doing, and why a segment with a
marked word gets its dirty flag: some transaction is past every marked word. -/
namespace LockLevel

open TransitionSystem
open BatcherState
open ControlWord
open RegionState

variable {W : Type*}

def Passed (s : State W) (u : Tx) (g : SegId) (i : ℕ) : Prop :=
  (u, g, i) ∈ s.hist.passedRead ∨ (u, g, i) ∈ s.hist.passedWrite

/-- Transactions of this epoch without a failed operation that passed a guard of the word. -/
def State.passed (s : State W) (g : SegId) (i : ℕ) : Set Tx :=
  {u | (s.pc u).failed = false ∧ Passed s u g i}
def State.wrote (s : State W) (g : SegId) (i : ℕ) : Set Tx :=
  {u | (s.pc u).failed = false ∧ (u, g, i) ∈ s.hist.passedWrite}

structure Word (s : State W) (g : SegId) (i : ℕ) : Prop where
  exclusive : Exclusive ((s.region.seg g).control i) (s.passed g i) (s.wrote g i)
  traced : Traced ((s.region.seg g).control i) {u | Passed s u g i}
    {u | (u, g, i) ∈ s.hist.passedWrite}
  equal : ((s.region.seg g).control i).written = false →
    (s.region.seg g).write i = (s.region.seg g).read i ∧ s.hist.author g i = none
  author : ∀ u, s.hist.author g i = some u → ((s.region.seg g).control i).access = u

structure Passes (s : State W) : Prop where
  member : ∀ u g i, Passed s u g i → u ∈ s.hist.members
  live : ∀ u g i, Passed s u g i → g ∈ s.region.live ∧ i < (s.region.seg g).size
  author : ∀ u g i, s.hist.author g i = some u → (u, g, i) ∈ s.hist.passedWrite

theorem Frame.failed_mono {s t : State W} {tx : Tx} (hf : Frame s t tx) {u : Tx}
    (h : (t.pc u).failed = false) : (s.pc u).failed = false := by
  by_cases hu : u = tx
  · subst u
    by_contra hs
    rw [hf.failed (by simpa using hs)] at h
    cases h
  · exact hf.elsewhere u hu ▸ h

namespace Word

variable {s t : State W} {tx : Tx} {g : SegId} {i : ℕ}

theorem frame (h : Word s g i)
    (hc : (t.region.seg g).control i = (s.region.seg g).control i)
    (hw : (t.region.seg g).write i = (s.region.seg g).write i)
    (hr : (t.region.seg g).read i = (s.region.seg g).read i)
    (ha : t.hist.author g i = s.hist.author g i)
    (hpr : ∀ u, (u, g, i) ∈ t.hist.passedRead ↔ (u, g, i) ∈ s.hist.passedRead)
    (hpw : ∀ u, (u, g, i) ∈ t.hist.passedWrite ↔ (u, g, i) ∈ s.hist.passedWrite)
    (hf : ∀ u, (t.pc u).failed = false → (s.pc u).failed = false) : Word t g i where
  exclusive := by
    rw [hc]
    refine h.exclusive.mono ?_ ?_ ?_
    · rintro u ⟨hu, hp⟩
      exact ⟨hf u hu, hp.imp (hpr u).mp (hpw u).mp⟩
    · rintro u ⟨hu, hp⟩
      exact ⟨hf u hu, (hpw u).mp hp⟩
    · rintro u ⟨hu, hp⟩
      exact ⟨hu, .inr hp⟩
  traced := by
    rw [hc]
    exact h.traced.mono (fun u hp => hp.imp (hpr u).mpr (hpw u).mpr) (fun u => (hpw u).mpr)
  equal hz := by
    rw [hw, hr, ha]
    exact h.equal (hc ▸ hz)
  author u hu := by
    rw [hc]
    exact h.author u (ha ▸ hu)

/-- A word that no transaction of this epoch passed is as the last cleanup left it. -/
theorem untouched (h : Word s g i) (hn : ∀ u, ¬ Passed s u g i) :
    (s.region.seg g).control i = .zero ∧
      (s.region.seg g).write i = (s.region.seg g).read i := by
  have ha : ((s.region.seg g).control i).access = 0#64 := by
    by_contra ha
    exact hn _ (h.traced.access ha)
  have hm := h.exclusive.unclaimed ha
  have hw := h.exclusive.unwritten_of_unclaimed ha
  refine ⟨?_, (h.equal hw).1⟩
  rw [show (s.region.seg g).control i = ⟨((s.region.seg g).control i).access,
    ((s.region.seg g).control i).written, ((s.region.seg g).control i).manyAccesses⟩ from rfl,
    ha, hm, hw]
  rfl

theorem reset (hc : (s.region.seg g).control i = .zero)
    (he : (s.region.seg g).write i = (s.region.seg g).read i) (hn : ∀ u, ¬ Passed s u g i)
    (ha : s.hist.author g i = none) : Word s g i where
  exclusive := by
    rw [hc]
    have hp : s.passed g i = ∅ := Set.eq_empty_of_forall_notMem fun u hu => hn u hu.2
    have hw : s.wrote g i = ∅ := Set.eq_empty_of_forall_notMem fun u hu => hn u (.inr hu.2)
    rw [hp, hw]
    exact exclusive_zero
  traced := by
    rw [hc]
    exact traced_zero.mono (Set.empty_subset _) (Set.empty_subset _)
  equal _ := ⟨he, ha⟩
  author u hu := by simp [ha] at hu

/-- A running transaction that passed the write guard holds the word. -/
theorem held (h : Word s g i) (hf : (s.pc tx).failed = false)
    (hp : (tx, g, i) ∈ s.hist.passedWrite) : ((s.region.seg g).control i).written = true ∧
      ((s.region.seg g).control i).access = tx := by
  have hin : tx ∈ s.wrote g i := ⟨hf, hp⟩
  have hw : ((s.region.seg g).control i).written = true := by
    by_contra hno
    rw [h.exclusive.unwritten (by simpa using hno)] at hin
    exact hin
  exact ⟨hw, (h.exclusive.owner_of_written hw (h.exclusive.writers_pass hin)).symm⟩

end Word

/-- The step touches one word and no other. -/
structure OneWord (s t : State W) (x : SegId) (j : ℕ) : Prop where
  control : ∀ g i, ¬ (g = x ∧ i = j) →
    (t.region.seg g).control i = (s.region.seg g).control i
  write : ∀ g i, ¬ (g = x ∧ i = j) → (t.region.seg g).write i = (s.region.seg g).write i
  read : ∀ g, (t.region.seg g).read = (s.region.seg g).read
  author : ∀ g i, ¬ (g = x ∧ i = j) → t.hist.author g i = s.hist.author g i
  passedRead : ∀ u g i, ¬ (g = x ∧ i = j) →
    ((u, g, i) ∈ t.hist.passedRead ↔ (u, g, i) ∈ s.hist.passedRead)
  passedWrite : ∀ u g i, ¬ (g = x ∧ i = j) →
    ((u, g, i) ∈ t.hist.passedWrite ↔ (u, g, i) ∈ s.hist.passedWrite)

theorem setSeg_at (s : State W) (tx : Tx) (g : SegId) (seg : Segment W) (q : Pc W) :
    ((s.setSeg g seg).goto tx q).region.seg g = seg := Region.setSeg_same _ _ _

theorem setSeg_off (s : State W) (tx : Tx) {g x : SegId} (seg : Segment W) (q : Pc W)
    (hx : g ≠ x) : ((s.setSeg x seg).goto tx q).region.seg g = s.region.seg g :=
  Region.setSeg_other _ _ _ hx

theorem mem_insert_other {S : Finset (Tx × SegId × ℕ)} {tx u : Tx} {g x : SegId} {i j : ℕ}
    (h : ¬ (g = x ∧ i = j)) : (u, g, i) ∈ insert (tx, x, j) S ↔ (u, g, i) ∈ S := by
  rw [Finset.mem_insert, or_iff_right]
  rintro he
  cases he
  exact h ⟨rfl, rfl⟩

theorem update_word {α : Type*} {f : SegId → ℕ → α} {g x : SegId} {i j : ℕ} {v : α}
    (h : ¬ (g = x ∧ i = j)) :
    Function.update f x (Function.update (f x) j v) g i = f g i := by
  by_cases hg : g = x
  · subst g
    simp [show i ≠ j from fun he => h ⟨rfl, he⟩]
  · simp [hg]

theorem update_control {f : SegId → Segment W} {g x : SegId} {i j : ℕ} {c : Control}
    {seg : Segment W} (hs : seg.control = Function.update (f x).control j c)
    (h : ¬ (g = x ∧ i = j)) : (Function.update f x seg g).control i = (f g).control i := by
  by_cases hg : g = x
  · subst g
    simp [hs, show i ≠ j from fun he => h ⟨rfl, he⟩]
  · simp [hg]

theorem update_write {f : SegId → Segment W} {g x : SegId} {i j : ℕ} {v : W}
    {seg : Segment W} (hs : seg.write = Function.update (f x).write j v)
    (h : ¬ (g = x ∧ i = j)) : (Function.update f x seg g).write i = (f g).write i := by
  by_cases hg : g = x
  · subst g
    simp [hs, show i ≠ j from fun he => h ⟨rfl, he⟩]
  · simp [hg]

section effects

variable (s : State W) (tx : Tx) (x : SegId) (j : ℕ) (q : Pc W)

theorem passRead_oneWord : OneWord s ((s.passRead tx x j).goto tx q) x j where
  control _ _ := update_control rfl
  write g i _ := update_proj (fun seg => seg.write i) (by rfl) g
  read := update_proj Segment.read rfl
  author _ _ _ := rfl
  passedRead _ _ _ := mem_insert_other
  passedWrite _ _ _ _ := Iff.rfl

theorem passWrite_oneWord : OneWord s ((s.passWrite tx x j).goto tx q) x j where
  control _ _ := update_control rfl
  write g i _ := update_proj (fun seg => seg.write i) (by rfl) g
  read := update_proj Segment.read rfl
  author _ _ _ := rfl
  passedRead _ _ _ _ := Iff.rfl
  passedWrite _ _ _ := mem_insert_other

theorem copyWord_oneWord (v : W) : OneWord s ((s.copyWord tx x j v).goto tx q) x j where
  control g i _ := update_proj (fun seg => seg.control i) (by rfl) g
  write _ _ := update_write rfl
  read := update_proj Segment.read rfl
  author _ _ := update_word
  passedRead _ _ _ _ := Iff.rfl
  passedWrite _ _ _ _ := Iff.rfl

theorem restoreWord_oneWord : OneWord s ((s.restoreWord tx x j).goto tx q) x j where
  control _ _ := update_control rfl
  write _ _ := update_write rfl
  read := update_proj Segment.read rfl
  author _ _ := update_word
  passedRead _ _ _ _ := Iff.rfl
  passedWrite _ _ _ _ := Iff.rfl

end effects

namespace Word

variable {s t : State W} {tx : Tx} {g x : SegId} {i j : ℕ} {q : Pc W}

theorem elsewhere (h : Word s g i) (ht : OneWord s t x j) (hne : ¬ (g = x ∧ i = j))
    (hf : ∀ u, (t.pc u).failed = false → (s.pc u).failed = false) : Word t g i :=
  h.frame (ht.control g i hne) (ht.write g i hne) (congrFun (ht.read g) i) (ht.author g i hne)
    (fun u => ht.passedRead u g i hne) (fun u => ht.passedWrite u g i hne) hf

theorem passRead (h : Word s g i) (h0 : tx ≠ 0#64)
    (ok : (canReadWord tx ((s.region.seg g).control i)).1 = true)
    (hf : ∀ u, (((s.passRead tx g i).goto tx q).pc u).failed = false → (s.pc u).failed = false) :
    Word ((s.passRead tx g i).goto tx q) g i := by
  have hseg : ((s.passRead tx g i).goto tx q).region.seg g = { s.region.seg g with
      control := Function.update (s.region.seg g).control i
        (canReadWord tx ((s.region.seg g).control i)).2 } := Region.setSeg_same _ _ _
  have ins : ∀ u, Passed ((s.passRead tx g i).goto tx q) u g i ↔ u = tx ∨ Passed s u g i := by
    intro u
    simp [Passed, State.passRead, State.goto, or_assoc]
  refine ⟨?_, ?_, ?_, ?_⟩ <;> rw [hseg] <;> simp only [Function.update_self]
  · refine (h.exclusive.read h0 ok).mono ?_ ?_ ?_
    · rintro u ⟨hu, hp⟩
      exact ((ins u).mp hp).imp id fun hp => ⟨hf u hu, hp⟩
    · rintro u ⟨hu, hp⟩
      exact ⟨hf u hu, hp⟩
    · rintro u ⟨hu, hp⟩
      exact ⟨hu, .inr hp⟩
  · exact (h.traced.read h.exclusive.unclaimed).mono (fun u hu => (ins u).mpr hu)
      (Set.Subset.refl _)
  · intro hw
    rw [canReadWord_written] at hw
    exact h.equal hw
  · intro u hu
    cases hw : ((s.region.seg g).control i).written with
    | true =>
      rw [show (canReadWord tx ((s.region.seg g).control i)).2 = (s.region.seg g).control i by
        simp [canReadWord, hw]]
      exact h.author u hu
    | false =>
      have : s.hist.author g i = some u := hu
      rw [(h.equal hw).2] at this
      cases this

theorem passWrite (h : Word s g i) (h0 : tx ≠ 0#64)
    (ok : (canWriteWord tx ((s.region.seg g).control i)).1 = true)
    (hf : ∀ u, (((s.passWrite tx g i).goto tx q).pc u).failed = false →
      (s.pc u).failed = false) :
    Word ((s.passWrite tx g i).goto tx q) g i := by
  obtain ⟨hex, hc⟩ := h.exclusive.write h0 ok
  have hseg : ((s.passWrite tx g i).goto tx q).region.seg g = { s.region.seg g with
      control := Function.update (s.region.seg g).control i
        (canWriteWord tx ((s.region.seg g).control i)).2 } := Region.setSeg_same _ _ _
  have ins : ∀ u, (u, g, i) ∈ ((s.passWrite tx g i).goto tx q).hist.passedWrite ↔
      u = tx ∨ (u, g, i) ∈ s.hist.passedWrite := by
    intro u
    simp [State.passWrite, State.goto]
  have all : ∀ u, Passed ((s.passWrite tx g i).goto tx q) u g i ↔ u = tx ∨ Passed s u g i := by
    intro u
    rw [Passed, ins]
    exact or_left_comm
  refine ⟨?_, ?_, ?_, ?_⟩ <;> rw [hseg] <;> simp only [Function.update_self]
  · refine hex.mono ?_ ?_ ?_
    · rintro u ⟨hu, hp⟩
      exact ((all u).mp hp).imp id fun hp => ⟨hf u hu, hp⟩
    · rintro u ⟨hu, hp⟩
      exact ((ins u).mp hp).imp id fun hp => ⟨hf u hu, hp⟩
    · rintro u ⟨hu, hp⟩
      exact ⟨hu, .inr hp⟩
  · exact (Traced.write hc).mono (fun u hu => (all u).mpr hu) (fun u hu => (ins u).mpr hu)
  · intro hw
    simp [hc] at hw
  · intro u hu
    rw [hc]
    cases hw : ((s.region.seg g).control i).written with
    | true => exact (canWriteWord_pass ok hw).symm.trans (h.author u hu)
    | false =>
      have : s.hist.author g i = some u := hu
      rw [(h.equal hw).2] at this
      cases this

theorem copyWord (h : Word s g i) (hrun : (s.pc tx).failed = false)
    (hp : (tx, g, i) ∈ s.hist.passedWrite) {v : W}
    (hf : ∀ u, (((s.copyWord tx g i v).goto tx q).pc u).failed = false →
      (s.pc u).failed = false) :
    Word ((s.copyWord tx g i v).goto tx q) g i := by
  obtain ⟨hw, ha⟩ := h.held hrun hp
  have hseg : ((s.copyWord tx g i v).goto tx q).region.seg g = { s.region.seg g with
      write := Function.update (s.region.seg g).write i v } := Region.setSeg_same _ _ _
  refine ⟨?_, ?_, ?_, ?_⟩ <;> rw [hseg]
  · refine h.exclusive.mono ?_ ?_ ?_
    · exact fun u hu => ⟨hf u hu.1, hu.2⟩
    · exact fun u hu => ⟨hf u hu.1, hu.2⟩
    · exact fun u hu => ⟨hu.1, .inr hu.2⟩
  · exact h.traced
  · intro hno
    rw [hw] at hno
    cases hno
  · intro u hu
    have : some tx = some u := by simpa [State.copyWord, State.goto] using hu
    rw [← Option.some.inj this]
    exact ha

theorem restoreWord (h : Word s g i) (hdead : (s.pc tx).failed = true)
    (hf : ∀ u, (((s.restoreWord tx g i).goto tx q).pc u).failed = false →
      (s.pc u).failed = false) :
    Word ((s.restoreWord tx g i).goto tx q) g i := by
  have hseg : ((s.restoreWord tx g i).goto tx q).region.seg g = { s.region.seg g with
      write := Function.update (s.region.seg g).write i ((s.region.seg g).read i)
      control := Function.update (s.region.seg g).control i
        (rollbackWord tx ((s.region.seg g).control i)).2 } := Region.setSeg_same _ _ _
  have none : ((s.restoreWord tx g i).goto tx q).hist.author g i = none := by
    simp [State.restoreWord, State.goto]
  refine ⟨?_, ?_, ?_, ?_⟩ <;> rw [hseg] <;> simp only [Function.update_self]
  · have out : tx ∉ s.passed g i := fun hin => by
      rw [hin.1] at hdead
      cases hdead
    refine (h.exclusive.rollback out).mono ?_ ?_ ?_
    · exact fun u hu => ⟨hf u hu.1, hu.2⟩
    · exact fun u hu => ⟨hf u hu.1, hu.2⟩
    · exact fun u hu => ⟨hu.1, .inr hu.2⟩
  · exact h.traced.rollback fun hw => (h.exclusive.owned hw).2
  · exact fun _ => ⟨trivial, none⟩
  · intro u hu
    rw [none] at hu
    cases hu

end Word

end LockLevel
