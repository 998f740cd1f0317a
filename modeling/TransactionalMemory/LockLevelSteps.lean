import Mathlib.Data.List.Infix
import TransactionalMemory.LockLevel

/-! # What one step at lock granularity can do

`Local` lists the steps that change only the program counter of their transaction,
`Micro` all steps outside the batcher; `Frame` is what no `Micro` step changes. -/
namespace LockLevel

open TransitionSystem
open BatcherState
open ControlWord
open RegionState

variable {W : Type*}

inductive Local (s : State W) (tx : Tx) : Pc W → Pc W → Prop where
  | conflictRead {g k n} : (s.region.seg g).newlyAlloc = true → (s.region.seg g).owner ≠ tx →
      Local s tx (.guardRead g k n) (.readHead (.read g k n))
  | readOnly {g k n} : ¬ ((s.region.seg g).newlyAlloc = true ∧ (s.region.seg g).owner ≠ tx) →
      isTxReadonly tx = true → Local s tx (.guardRead g k n) (.copyRo g k n [])
  | startRead {g k n} : ¬ ((s.region.seg g).newlyAlloc = true ∧ (s.region.seg g).owner ≠ tx) →
      isTxReadonly tx = false → Local s tx (.guardRead g k n) (.markRead g k n 0)
  | fetchRo {g k n target} : target.length < n →
      Local s tx (.copyRo g k n target)
        (.copyRo g k n (target ++ [(s.region.seg g).read (k + target.length)]))
  | doneRo {g k n target} : n ≤ target.length →
      Local s tx (.copyRo g k n target) (.returning (.read g k target))
  | refusedRead {g k n i} : i < n → (canReadWord tx ((s.region.seg g).control (k + i))).1 = false →
      Local s tx (.markRead g k n i) (.readHead (.read g k n))
  | marked {g k n i} : n ≤ i → Local s tx (.markRead g k n i) (.copyRead g k n [])
  | fetch {g k n target} : target.length < n →
      Local s tx (.copyRead g k n target)
        (.copyRead g k n (target ++ [(s.region.seg g).write (k + target.length)]))
  | done {g k n target} : n ≤ target.length →
      Local s tx (.copyRead g k n target) (.casDirty g (.read g k target))
  | conflictWrite {g k src} : (s.region.seg g).newlyAlloc = true →
      (s.region.seg g).owner ≠ tx → Local s tx (.guardWrite g k src) (.readHead (.write g k src))
  | tooFar {g k src} : (s.region.seg g).size < k →
      Local s tx (.guardWrite g k src) (.readHead (.write g k src))
  | startWrite {g k src} : ¬ ((s.region.seg g).newlyAlloc = true ∧ (s.region.seg g).owner ≠ tx) →
      Local s tx (.guardWrite g k src) (.markWrite g k src 0)
  | refusedWrite {g k src i} : i < src.length →
      (canWriteWord tx ((s.region.seg g).control (k + i))).1 = false →
      Local s tx (.markWrite g k src i) (.readHead (.write g k src))
  | stored {g k src i} : src.length ≤ i → Local s tx (.markWrite g k src i) (.casDirty g .wrote)
  | nomem {size} : Local s tx (.allocate size false) (.returning .nomem)
  | alreadyDirty {g ret} : (s.region.seg g).dirty = true →
      Local s tx (.casDirty g ret) (.returning ret)
  | returned {ret} : Local s tx (.returning ret) .idle
  | noDirty {c} : s.region.dirtySegLinks = [] → Local s tx (.readHead c) (.leaveFailed c)
  | head {c base rest} : s.region.dirtySegLinks = base :: rest →
      Local s tx (.readHead c) (.testOwner c (nextLink s.region.dirtySegLinks base) base)
  | notOwner {c link base} : (s.region.seg link).owner ≠ tx →
      Local s tx (.testOwner c link base) (.clearWord c link base 0)
  | skipWord {c link base i} : i < (s.region.seg link).size →
      ¬ (((s.region.seg link).control i).written = true ∧
        ((s.region.seg link).control i).access = tx) →
      Local s tx (.clearWord c link base i) (.clearWord c link base (i + 1))
  | cleared {c link base i} : (s.region.seg link).size ≤ i →
      Local s tx (.clearWord c link base i) (.advanceLink c link base)
  | walked {c base} : Local s tx (.advanceLink c base base) (.leaveFailed c)
  | nextLink {c link base} : link ≠ base →
      Local s tx (.advanceLink c link base)
        (.testOwner c (nextLink s.region.dirtySegLinks link) base)

inductive Micro [Zero W] (s : State W) (tx : Tx) : State W → Prop where
  | pcOnly {q} : Local s tx (s.pc tx) q → Micro s tx (s.goto tx q)
  | passRead {g k n i} : s.pc tx = .markRead g k n i → i < n →
      (canReadWord tx ((s.region.seg g).control (k + i))).1 = true →
      Micro s tx ((s.passRead tx g (k + i)).goto tx (.markRead g k n (i + 1)))
  | passWrite {g k src i} : s.pc tx = .markWrite g k src i → i < src.length →
      (canWriteWord tx ((s.region.seg g).control (k + i))).1 = true →
      Micro s tx ((s.passWrite tx g (k + i)).goto tx (.copyWrite g k src i))
  | copyWord {g k src i v} : s.pc tx = .copyWrite g k src i → src[i]? = some v →
      Micro s tx ((s.copyWord tx g (k + i) v).goto tx (.markWrite g k src (i + 1)))
  | allocate {size} : s.pc tx = .allocate size true →
      Micro s tx ((s.allocate tx size).goto tx (.returning (.allocated s.region.nextSeg)))
  | storeFree {g} : s.pc tx = .storeFree g →
      Micro s tx ((s.storeFree tx g).goto tx (.storeOwner g))
  | storeOwner {g} : s.pc tx = .storeOwner g →
      Micro s tx ((s.setSeg g { s.region.seg g with owner := tx }).goto tx (.casDirty g .freed))
  | winDirty {g ret} : s.pc tx = .casDirty g ret → (s.region.seg g).dirty = false →
      Micro s tx ((s.setSeg g { s.region.seg g with dirty := true }).goto tx (.listMove g ret))
  | listMove {g ret} : s.pc tx = .listMove g ret →
      Micro s tx ({ s with region := relinkDirty s.region g }.goto tx (.returning ret))
  | ownRollback {c link base} : s.pc tx = .testOwner c link base →
      (s.region.seg link).owner = tx →
      Micro s tx ((s.setSeg link { s.region.seg link with rollback := true }).goto tx
        (.clearWord c link base 0))
  | restoreWord {c link base i} : s.pc tx = .clearWord c link base i →
      i < (s.region.seg link).size → ((s.region.seg link).control i).written = true →
      ((s.region.seg link).control i).access = tx →
      Micro s tx ((s.restoreWord tx link i).goto tx (.clearWord c link base (i + 1)))

theorem setControl_self (s : State W) (g : SegId) (i : ℕ) :
    s.setControl g i ((s.region.seg g).control i) = s := by
  simp [State.setControl, State.setSeg, Region.setSeg]

/-- A refused write leaves the control word as it was. -/
def Settled (s : State W) (tx : Tx) : Prop :=
  ∀ g k src i, s.pc tx = .markWrite g k src i →
    (canWriteWord tx ((s.region.seg g).control (k + i))).1 = false →
    (canWriteWord tx ((s.region.seg g).control (k + i))).2 = (s.region.seg g).control (k + i)

theorem advance_cases [Zero W] {s t : State W} {tx : Tx} (hq : Settled s tx)
    (h : advance s tx = some t) :
    Micro s tx t ∨ (∃ c, s.pc tx = .leaveFailed c ∧ t = leave s tx .aborted) ∨
      (s.pc tx = .ending ∧ t = leave s tx .committed) := by
  unfold advance at h
  have quiet : ∀ {q}, Local s tx (s.pc tx) q → s.goto tx q = t → Micro s tx t := by
    rintro q hl rfl
    exact .pcOnly hl
  cases hp : s.pc tx with
  | outside | waiting | idle | committed | aborted => simp [hp] at h
  | guardRead g k n =>
    rw [hp] at quiet
    simp only [hp] at h
    split_ifs at h with hc ho <;> rw [Option.some.injEq] at h
    · exact .inl (quiet (.conflictRead hc.1 hc.2) h)
    · exact .inl (quiet (.readOnly hc ho) h)
    · exact .inl (quiet (.startRead hc (by simpa using ho)) h)
  | copyRo g k n target =>
    rw [hp] at quiet
    simp only [hp] at h
    split_ifs at h with hc <;> rw [Option.some.injEq] at h
    · exact .inl (quiet (.fetchRo hc) h)
    · exact .inl (quiet (.doneRo (by omega)) h)
  | markRead g k n i =>
    rw [hp] at quiet
    simp only [hp] at h
    split_ifs at h with hc hok <;> rw [Option.some.injEq] at h
    · exact .inl (h ▸ .passRead hp hc hok)
    · have hno := (Bool.not_eq_true _).mp hok
      rw [(canReadWord_refused hno).1, setControl_self] at h
      exact .inl (quiet (.refusedRead hc hno) h)
    · exact .inl (quiet (.marked (by omega)) h)
  | copyRead g k n target =>
    rw [hp] at quiet
    simp only [hp] at h
    split_ifs at h with hc <;> rw [Option.some.injEq] at h
    · exact .inl (quiet (.fetch hc) h)
    · exact .inl (quiet (.done (by omega)) h)
  | guardWrite g k src =>
    rw [hp] at quiet
    simp only [hp] at h
    split_ifs at h with hc hk <;> rw [Option.some.injEq] at h
    · exact .inl (quiet (.conflictWrite hc.1 hc.2) h)
    · exact .inl (quiet (.tooFar hk) h)
    · exact .inl (quiet (.startWrite hc) h)
  | markWrite g k src i =>
    rw [hp] at quiet
    simp only [hp] at h
    split_ifs at h with hc hok <;> rw [Option.some.injEq] at h
    · exact .inl (h ▸ .passWrite hp hc hok)
    · have hno := (Bool.not_eq_true _).mp hok
      rw [hq g k src i hp hno, setControl_self] at h
      exact .inl (quiet (.refusedWrite hc hno) h)
    · exact .inl (quiet (.stored (by omega)) h)
  | copyWrite g k src i =>
    simp only [hp] at h
    split at h
    case h_1 v hv => exact .inl (Option.some.inj h ▸ .copyWord hp hv)
    case h_2 => cases h
  | allocate size ok =>
    rw [hp] at quiet
    cases ok with
    | true =>
      simp only [hp, if_true, Option.some.injEq] at h
      exact .inl (h ▸ .allocate hp)
    | false =>
      simp only [hp, Bool.false_eq_true, if_false, Option.some.injEq] at h
      exact .inl (quiet .nomem h)
  | storeFree g =>
    simp only [hp, Option.some.injEq] at h
    exact .inl (h ▸ .storeFree hp)
  | storeOwner g =>
    simp only [hp, Option.some.injEq] at h
    exact .inl (h ▸ .storeOwner hp)
  | casDirty g ret =>
    rw [hp] at quiet
    simp only [hp] at h
    split_ifs at h with hd <;> rw [Option.some.injEq] at h
    · exact .inl (quiet (.alreadyDirty hd) h)
    · exact .inl (h ▸ .winDirty hp (by simpa using hd))
  | listMove g ret =>
    simp only [hp, Option.some.injEq] at h
    exact .inl (h ▸ .listMove hp)
  | returning ret =>
    rw [hp] at quiet
    simp only [hp, Option.some.injEq] at h
    exact .inl (quiet .returned h)
  | readHead c =>
    rw [hp] at quiet
    simp only [hp] at h
    split at h <;> rw [Option.some.injEq] at h
    case h_1 he => exact .inl (quiet (.noDirty he) h)
    case h_2 base rest he => exact .inl (quiet (.head he) h)
  | testOwner c link base =>
    rw [hp] at quiet
    simp only [hp] at h
    split_ifs at h with ho <;> rw [Option.some.injEq] at h
    · exact .inl (h ▸ .ownRollback hp ho)
    · exact .inl (quiet (.notOwner ho) h)
  | clearWord c link base i =>
    rw [hp] at quiet
    simp only [hp] at h
    split_ifs at h with hi hr <;> rw [Option.some.injEq] at h
    · obtain ⟨hw, ha⟩ := rollbackWord_hit.mp hr
      exact .inl (h ▸ .restoreWord hp hi hw ha)
    · exact .inl (quiet (.skipWord hi (fun hm => hr (rollbackWord_hit.mpr hm))) h)
    · exact .inl (quiet (.cleared (by omega)) h)
  | advanceLink c link base =>
    rw [hp] at quiet
    simp only [hp] at h
    split_ifs at h with hb <;> rw [Option.some.injEq] at h
    · subst hb
      exact .inl (quiet .walked h)
    · exact .inl (quiet (.nextLink hb) h)
  | leaveFailed c =>
    simp only [hp, Option.some.injEq] at h
    exact .inr (.inl ⟨c, rfl, h.symm⟩)
  | ending =>
    simp only [hp, Option.some.injEq] at h
    exact .inr (.inr ⟨rfl, h.symm⟩)

/-- What no step changes in a segment before the epoch closes. -/
structure Kept (a b : Segment W) : Prop where
  size : b.size = a.size
  read : b.read = a.read
  newlyAlloc : b.newlyAlloc = a.newlyAlloc
  dirty : a.dirty = true → b.dirty = true
  shouldFree : a.shouldFree = true → b.shouldFree = true
  rollback : a.rollback = true → b.rollback = true

theorem Kept.refl (a : Segment W) : Kept a a := ⟨rfl, rfl, rfl, id, id, id⟩

structure Frame (s t : State W) (tx : Tx) : Prop where
  batcher : t.region.batcher = s.region.batcher
  members : t.hist.members = s.hist.members
  active : t.hist.active = s.hist.active
  elsewhere : ∀ u, u ≠ tx → t.pc u = s.pc u
  runs : (s.pc tx).active = true ∧ (t.pc tx).active = true
  failed : (s.pc tx).failed = true → (t.pc tx).failed = true
  live : s.region.live ⊆ t.region.live
  dirtySegLinks : s.region.dirtySegLinks <+: t.region.dirtySegLinks
  passedRead : s.hist.passedRead ⊆ t.hist.passedRead
  passedWrite : s.hist.passedWrite ⊆ t.hist.passedWrite
  freeBy : s.hist.freeBy ⊆ t.hist.freeBy
  epochStart : t.hist.epochStart = s.hist.epochStart
  seg : ∀ g, g ≠ s.region.nextSeg → Kept (s.region.seg g) (t.region.seg g)
  allocBy : ∀ g, g ≠ s.region.nextSeg → t.hist.allocBy g = s.hist.allocBy g

theorem kept_update {f : SegId → Segment W} {g : SegId} {seg : Segment W} (h : Kept (f g) seg)
    (x : SegId) : Kept (f x) (Function.update f g seg x) := by
  by_cases hx : x = g
  · subst x
    simpa using h
  · simpa [hx] using Kept.refl (f x)

theorem Local.active {s : State W} {tx : Tx} {p q : Pc W} (h : Local s tx p q) :
    p.active = true ∧ q.active = true := by
  cases h <;> exact ⟨rfl, rfl⟩

theorem Local.failed {s : State W} {tx : Tx} {p q : Pc W} (h : Local s tx p q)
    (hp : p.failed = true) : q.failed = true := by
  cases h <;> first | rfl | cases hp

theorem frame_goto {s : State W} {tx : Tx} {q : Pc W} (ha : (s.pc tx).active = true)
    (hq : q.active = true) (hf : (s.pc tx).failed = true → q.failed = true) :
    Frame s (s.goto tx q) tx where
  batcher := rfl
  members := rfl
  active := rfl
  elsewhere := fun u hu => by simp [State.goto, hu]
  runs := ⟨ha, by simpa [State.goto] using hq⟩
  failed := by simpa [State.goto] using hf
  live := Finset.Subset.refl _
  dirtySegLinks := List.prefix_refl _
  passedRead := Finset.Subset.refl _
  passedWrite := Finset.Subset.refl _
  freeBy := Finset.Subset.refl _
  epochStart := rfl
  seg := fun g _ => Kept.refl _
  allocBy := fun _ _ => rfl

theorem Micro.frame [Zero W] {s t : State W} {tx : Tx} (h : Micro s tx t) : Frame s t tx := by
  have elsewhere : ∀ (q : Pc W) u, u ≠ tx → Function.update s.pc tx q u = s.pc u :=
    fun q u hu => Function.update_of_ne hu _ _
  cases h with
  | pcOnly hl => exact frame_goto hl.active.1 hl.active.2 hl.failed
  | passRead hp =>
    refine ⟨rfl, rfl, rfl, elsewhere _, by simp [State.goto, hp, Pc.active],
      by simp [hp, Pc.failed], Finset.Subset.refl _, List.prefix_refl _,
      Finset.subset_insert _ _, Finset.Subset.refl _, Finset.Subset.refl _, rfl,
      fun x _ => kept_update ?_ x, fun _ _ => rfl⟩
    constructor <;> simp
  | passWrite hp =>
    refine ⟨rfl, rfl, rfl, elsewhere _, by simp [State.goto, hp, Pc.active],
      by simp [hp, Pc.failed], Finset.Subset.refl _, List.prefix_refl _,
      Finset.Subset.refl _, Finset.subset_insert _ _, Finset.Subset.refl _, rfl,
      fun x _ => kept_update ?_ x, fun _ _ => rfl⟩
    constructor <;> simp
  | storeFree hp =>
    refine ⟨rfl, rfl, rfl, elsewhere _, by simp [State.goto, hp, Pc.active],
      by simp [hp, Pc.failed], Finset.Subset.refl _, List.prefix_refl _,
      Finset.Subset.refl _, Finset.Subset.refl _, Finset.subset_insert _ _, rfl,
      fun x _ => kept_update ?_ x, fun _ _ => rfl⟩
    constructor <;> simp
  | copyWord hp | storeOwner hp | restoreWord hp | ownRollback hp | winDirty hp =>
    refine ⟨rfl, rfl, rfl, elsewhere _, by simp [State.goto, hp, Pc.active],
      by simp [State.goto, hp, Pc.failed], Finset.Subset.refl _, List.prefix_refl _,
      Finset.Subset.refl _, Finset.Subset.refl _, Finset.Subset.refl _, rfl,
      fun x _ => kept_update ?_ x, fun _ _ => rfl⟩
    constructor <;> simp
  | allocate hp =>
    refine ⟨rfl, rfl, rfl, elsewhere _, by simp [State.goto, hp, Pc.active],
      by simp [hp, Pc.failed], Finset.subset_insert _ _, List.prefix_append _ _,
      Finset.Subset.refl _, Finset.Subset.refl _, Finset.Subset.refl _, rfl, ?_, ?_⟩
    · intro g hg
      rw [show ((s.allocate tx _).goto tx _).region.seg g = s.region.seg g from
        Region.setSeg_other _ _ _ hg]
      exact Kept.refl _
    · exact fun g hg => Function.update_of_ne hg _ _
  | listMove hp =>
    exact ⟨rfl, rfl, rfl, elsewhere _, by simp [State.goto, hp, Pc.active],
      by simp [hp, Pc.failed], Finset.Subset.refl _, List.prefix_append _ _,
      Finset.Subset.refl _, Finset.Subset.refl _, Finset.Subset.refl _, rfl,
      fun g _ => Kept.refl _, fun _ _ => rfl⟩

theorem Call.entry_active (c : Call W) : c.entry.active = true := by cases c <;> rfl

theorem step_cases [Zero W] {s t : State W} {e : Event W} (h : step s e = some t) :
    (∃ tx, e = .begin tx ∧ s.pc tx = .outside ∧ t = tmBegin s tx) ∨
    (∃ tx c, e = .call tx c ∧ s.pc tx = .idle ∧ t = s.goto tx c.entry) ∨
    (∃ tx, e = .advance tx ∧ advance s tx = some t) := by
  cases e with
  | begin tx =>
    simp only [step] at h
    split at h
    case h_1 hp => exact .inl ⟨tx, rfl, hp, (Option.some.inj h).symm⟩
    case h_2 => cases h
  | call tx c =>
    simp only [step] at h
    split at h
    case h_1 hp => exact .inr (.inl ⟨tx, c, rfl, hp, (Option.some.inj h).symm⟩)
    case h_2 => cases h
  | advance tx => exact .inr (.inr ⟨tx, rfl, h⟩)

end LockLevel
