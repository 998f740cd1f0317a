import TransactionalMemory.LockLevelSteps

/-! # Who is admitted, and which list a segment is on

The batcher counts the running transactions, and every live segment is on exactly one of
the two lists, also between the compare-and-swap on `dirty` and the list move. -/
namespace LockLevel

open TransitionSystem
open BatcherState
open ControlWord
open RegionState

variable {W : Type*}

structure Ledger (s : State W) : Prop where
  roster : Roster s.region.batcher s.hist.active
  running : ∀ tx, tx ∈ s.hist.active ↔ (s.pc tx).active = true
  parked : ∀ tx, tx ∈ s.region.batcher.waiters ↔ s.pc tx = .waiting
  members : s.hist.active ⊆ s.hist.members
  named : ∀ tx, s.pc tx ≠ .outside → tx ≠ 0#64

namespace Ledger

variable {s t : State W} {tx : Tx}

theorem initial_ledger [Zero W] (size : ℕ) : Ledger (initial size : State W) := by
  refine ⟨Roster.init, ?_, ?_, ?_, ?_⟩ <;>
    simp [initial, History.fresh, tmCreate, Pc.active, initBatcher]

theorem ne_waiting (h : (s.pc tx).active = true) : s.pc tx ≠ .waiting := by
  intro hw
  rw [hw] at h
  cases h

theorem ne_outside (h : (s.pc tx).active = true) : s.pc tx ≠ .outside := by
  intro hw
  rw [hw] at h
  cases h

theorem frame (h : Ledger s) (hf : Frame s t tx) : Ledger t where
  roster := by rw [hf.batcher, hf.active]; exact h.roster
  running u := by
    rw [hf.active, h.running]
    by_cases hu : u = tx
    · subst u
      simp [hf.runs]
    · rw [hf.elsewhere u hu]
  parked u := by
    rw [hf.batcher, h.parked]
    by_cases hu : u = tx
    · subst u
      simp [ne_waiting hf.runs.1, ne_waiting hf.runs.2]
    · rw [hf.elsewhere u hu]
  members := by rw [hf.active, hf.members]; exact h.members
  named u hu := by
    by_cases he : u = tx
    · subst u
      exact h.named _ (ne_outside hf.runs.1)
    · exact h.named u (hf.elsewhere u he ▸ hu)

theorem begin (h : Ledger s) (hp : s.pc tx = .outside) (h0 : tx ≠ 0#64)
    (hr : s.hist.active.card + s.region.batcher.waiters.card + 1 < 2 ^ 31) :
    Ledger (tmBegin s tx) := by
  have hw : tx ∉ s.region.batcher.waiters := by simp [h.parked, hp]
  have ha : tx ∉ s.hist.active := by simp [h.running, hp, Pc.active]
  by_cases hz : s.region.batcher.remaining = 0
  · obtain ⟨hc, he, hnone, hws⟩ := h.roster.enter_first hz tx
    rw [tmBegin, if_pos hz]
    refine ⟨hc, ?_, ?_, Finset.insert_subset_insert _ h.members, ?_⟩
    · intro u
      by_cases hu : u = tx
      · subst u
        simp [Pc.active]
      · simp [hu, h.running]
    · intro u
      have := h.parked u
      rw [hnone] at this
      by_cases hu : u = tx
      · subst u
        simp [hws]
      · simpa [hws, hu] using this
    · intro u hu
      by_cases he : u = tx
      · exact he ▸ h0
      · exact h.named u (by simpa [he] using hu)
  · obtain ⟨hc, hws⟩ := h.roster.enter_wait hz ha hw hr
    rw [tmBegin, if_neg hz]
    refine ⟨hc, ?_, ?_, h.members, ?_⟩
    · intro u
      by_cases hu : u = tx
      · subst u
        simp [h.running, hp, Pc.active]
      · simp [hu, h.running]
    · intro u
      by_cases hu : u = tx
      · subst u
        simp [hws]
      · simp [hws, hu, h.parked]
    · intro u hu
      by_cases he : u = tx
      · exact he ▸ h0
      · exact h.named u (by simpa [he] using hu)

theorem sole (h : Ledger s) (hp : (s.pc tx).active = true)
    (hl : lastToLeave s.region.batcher = true) : s.hist.active = {tx} :=
  h.roster.sole ((h.running tx).mpr hp) hl

theorem leave_closing (hl : lastToLeave s.region.batcher = true) (p : Pc W) :
    leave s tx p = ⟨s.region.leaveBatcher,
      fun t => if t ∈ s.region.batcher.waiters then .idle else Function.update s.pc tx p t,
      .fresh s.region.batcher.waiters s.region.leaveBatcher⟩ := by
  rw [leave, if_pos hl]

theorem leave_staying (hl : lastToLeave s.region.batcher = false) (p : Pc W) :
    leave s tx p = ⟨{ s.region with batcher := BatcherState.leaveBatcher s.region.batcher },
      Function.update s.pc tx p, { s.hist with active := s.hist.active.erase tx }⟩ := by
  simp [leave, hl, Region.leaveBatcher]

theorem close (h : Ledger s) (hp : (s.pc tx).active = true)
    (hl : lastToLeave s.region.batcher = true) {p : Pc W}
    (hq : p = .committed ∨ p = .aborted) : Ledger (leave s tx p) := by
  have hs := h.sole hp hl
  obtain ⟨hroster, hempty⟩ := h.roster.close ((h.running tx).mpr hp) hl
  have hb : (s.region.leaveBatcher).batcher = BatcherState.leaveBatcher s.region.batcher := by
    simp [Region.leaveBatcher, hl]
  have idle : ∀ u, u ≠ tx → u ∉ s.region.batcher.waiters →
      (s.pc u).active = false ∧ s.pc u ≠ .waiting := by
    intro u hu hw
    refine ⟨?_, fun he => hw ((h.parked u).mpr he)⟩
    by_contra ha
    have := (h.running u).mpr (by simpa using ha)
    rw [hs, Finset.mem_singleton] at this
    exact hu this
  have hx : p.active = false ∧ p ≠ .waiting := by
    rcases hq with rfl | rfl <;> simp [Pc.active]
  rw [leave_closing hl]
  refine ⟨by rw [hb]; exact hroster, ?_, ?_, Finset.Subset.refl _, ?_⟩
  · intro u
    by_cases hw : u ∈ s.region.batcher.waiters
    · simp [hw, History.fresh, Pc.active]
    · by_cases hu : u = tx
      · subst u
        simp [hw, History.fresh, hx.1]
      · simp [hw, hu, History.fresh, (idle u hu hw).1]
  · intro u
    rw [hb, hempty]
    by_cases hw : u ∈ s.region.batcher.waiters
    · simp [hw]
    · by_cases hu : u = tx
      · subst u
        simp [hw, hx.2]
      · simp [hw, hu, (idle u hu hw).2]
  · intro u hu
    by_cases hw : u ∈ s.region.batcher.waiters
    · exact h.named u (by simp [(h.parked u).mp hw])
    · by_cases he : u = tx
      · exact he ▸ h.named tx (ne_outside hp)
      · exact h.named u (by simpa [hw, he] using hu)

theorem stay (h : Ledger s) (hp : (s.pc tx).active = true)
    (hl : lastToLeave s.region.batcher = false) {p : Pc W}
    (hq : p = .committed ∨ p = .aborted) : Ledger (leave s tx p) := by
  obtain ⟨hroster, hws⟩ := h.roster.stay ((h.running tx).mpr hp) hl
  have hx : p.active = false ∧ p ≠ .waiting := by
    rcases hq with rfl | rfl <;> simp [Pc.active]
  rw [leave_staying hl]
  refine ⟨hroster, ?_, ?_, (Finset.erase_subset _ _).trans h.members, ?_⟩
  · intro u
    by_cases hu : u = tx
    · subst u
      simp [hx.1]
    · simp [hu, h.running]
  · intro u
    rw [hws, h.parked]
    by_cases hu : u = tx
    · subst u
      simp [ne_waiting hp, hx.2]
    · simp [hu]
  · intro u hu
    by_cases he : u = tx
    · exact he ▸ h.named tx (ne_outside hp)
    · exact h.named u (by simpa [he] using hu)

end Ledger

/-- The transaction won the compare-and-swap on `dirty` of `g` and has not moved it yet. -/
def Pc.moves (g : SegId) : Pc W → Prop
  | .listMove x _ => x = g
  | _ => False

structure Lists (s : State W) : Prop extends Chained s.region where
  moving : ∀ tx g, (s.pc tx).moves g →
    g ∈ s.region.segLinks ∧ (s.region.seg g).dirty = true
  mover : ∀ tx u g, (s.pc tx).moves g → (s.pc u).moves g → tx = u
  pending : ∀ g ∈ s.region.segLinks, (s.region.seg g).dirty = true → ∃ tx, (s.pc tx).moves g

theorem update_proj {α : Type*} (π : Segment W → α) {f : SegId → Segment W} {g : SegId}
    {seg : Segment W} (h : π seg = π (f g)) (x : SegId) :
    π (Function.update f g seg x) = π (f x) := by
  by_cases hx : x = g
  · subst x
    simpa using h
  · simp [hx]

theorem Local.not_moves {s : State W} {tx : Tx} {p q : Pc W} (h : Local s tx p q) (g : SegId) :
    ¬ p.moves g ∧ ¬ q.moves g := by
  cases h <;> exact ⟨id, id⟩

namespace Lists

variable {s t : State W} {tx : Tx}

theorem initial_lists [Zero W] (size : ℕ) : Lists (initial size : State W) := by
  refine ⟨tmCreate_chained size, ?_, ?_, ?_⟩ <;> simp [initial, tmCreate, Pc.moves]

theorem frame (h : Lists s) (hc : t.region.segLinks = s.region.segLinks)
    (hd : t.region.dirtySegLinks = s.region.dirtySegLinks) (hl : t.region.live = s.region.live)
    (hn : t.region.nextSeg = s.region.nextSeg)
    (hf : ∀ g, (t.region.seg g).dirty = (s.region.seg g).dirty)
    (hm : ∀ u g, (t.pc u).moves g ↔ (s.pc u).moves g) : Lists t where
  nodup := by rw [hc, hd]; exact h.nodup
  live := by rw [hc, hd, hl]; exact h.live
  flagged := by
    intro g hg
    rw [hf]
    exact h.flagged g (hd ▸ hg)
  moving u g hu := by
    rw [hc, hf]
    exact h.moving u g ((hm u g).mp hu)
  mover u v g hu hv := h.mover u v g ((hm u g).mp hu) ((hm v g).mp hv)
  pending := by
    intro g hg hdirty
    rw [hf] at hdirty
    obtain ⟨u, hu⟩ := h.pending g (hc ▸ hg) hdirty
    exact ⟨u, (hm u g).mpr hu⟩
  fresh := by rw [hl, hn]; exact h.fresh

/-- Neither end of the step is a list move. -/
theorem moves_congr {p q : Pc W} (hs : s.pc tx = p) (hp : ∀ g, ¬ p.moves g)
    (hq : ∀ g, ¬ q.moves g) (u : Tx) (g : SegId) :
    (Function.update s.pc tx q u).moves g ↔ (s.pc u).moves g := by
  by_cases hu : u = tx
  · subst u
    simp [hs, hp, hq]
  · simp [hu]

theorem allocate [Zero W] (h : Lists s) {size : ℕ} {ok : Bool}
    (hp : s.pc tx = .allocate size ok) :
    Lists ((s.allocate tx size).goto tx (.returning (.allocated s.region.nextSeg))) := by
  have other : ∀ g, g ≠ s.region.nextSeg →
      ((s.allocate tx size).goto tx (.returning (.allocated s.region.nextSeg))).region.seg g =
        s.region.seg g := fun g hg => Region.setSeg_other _ _ _ hg
  have moves := moves_congr (q := .returning (.allocated s.region.nextSeg)) hp
    (fun _ => id) (fun _ => id)
  have ne : ∀ g ∈ s.region.segLinks, g ≠ s.region.nextSeg := by
    rintro g hg rfl
    exact h.nextSeg_free ((h.live _).mpr (.inl hg))
  refine ⟨h.insert _ rfl, ?_, ?_, ?_⟩
  · intro u g hu
    obtain ⟨hg, hd⟩ := h.moving u g ((moves u g).mp hu)
    rw [other g (ne g hg)]
    exact ⟨hg, hd⟩
  · exact fun u v g hu hv => h.mover u v g ((moves u g).mp hu) ((moves v g).mp hv)
  · intro g hg hd
    rw [other g (ne g hg)] at hd
    obtain ⟨u, hu⟩ := h.pending g hg hd
    exact ⟨u, (moves u g).mpr hu⟩

theorem winDirty (h : Lists s) {g : SegId} {ret : Return W} (hp : s.pc tx = .casDirty g ret)
    (hg : g ∈ s.region.live) (hd : (s.region.seg g).dirty = false) :
    Lists ((s.setSeg g { s.region.seg g with dirty := true }).goto tx (.listMove g ret)) := by
  have clean : g ∈ s.region.segLinks := by
    rcases (h.live g).mp hg with hg | hg
    · exact hg
    · rw [h.flagged g hg] at hd
      cases hd
  have nobody : ∀ u, ¬ (s.pc u).moves g := fun u hu => by
    rw [(h.moving u g hu).2] at hd
    cases hd
  have flag : ∀ x, (((s.setSeg g { s.region.seg g with dirty := true }).goto tx
      (.listMove g ret)).region.seg x).dirty = if x = g then true else (s.region.seg x).dirty := by
    intro x
    by_cases hx : x = g
    · subst x
      simp [State.goto, State.setSeg]
    · simp [State.goto, State.setSeg, Region.setSeg, hx]
  have moves : ∀ u x, (((s.setSeg g { s.region.seg g with dirty := true }).goto tx
      (.listMove g ret)).pc u).moves x ↔ (u = tx ∧ x = g) ∨ (s.pc u).moves x := by
    intro u x
    by_cases hu : u = tx
    · subst u
      simp [State.goto, Pc.moves, hp, eq_comm]
    · simp [State.goto, State.setSeg, hu]
  refine ⟨⟨h.nodup, h.live, ?_, h.fresh⟩, ?_, ?_, ?_⟩
  · intro x hx
    rw [flag]
    split
    · rfl
    · exact h.flagged x hx
  · intro u x hu
    rw [flag]
    rcases (moves u x).mp hu with ⟨rfl, rfl⟩ | hu
    · exact ⟨clean, if_pos rfl⟩
    · have := h.moving u x hu
      exact ⟨this.1, by rw [this.2]; simp⟩
  · intro u v x hu hv
    rw [moves] at hu hv
    rcases hu with ⟨rfl, rfl⟩ | hu <;> rcases hv with ⟨rfl, hx⟩ | hv
    · rfl
    · exact (nobody v hv).elim
    · exact (nobody u (hx ▸ hu)).elim
    · exact h.mover u v x hu hv
  · intro x hx hdx
    rw [flag] at hdx
    by_cases he : x = g
    · exact ⟨tx, (moves tx x).mpr (.inl ⟨rfl, he⟩)⟩
    · rw [if_neg he] at hdx
      obtain ⟨u, hu⟩ := h.pending x hx hdx
      exact ⟨u, (moves u x).mpr (.inr hu)⟩

theorem listMove (h : Lists s) {g : SegId} {ret : Return W} (hp : s.pc tx = .listMove g ret) :
    Lists ({ s with region := relinkDirty s.region g }.goto tx (.returning ret)) := by
  have mine : (s.pc tx).moves g := by rw [hp]; rfl
  obtain ⟨hg, hd⟩ := h.moving tx g mine
  have clean : ∀ x, x ∈ s.region.segLinks.erase g ↔ x ≠ g ∧ x ∈ s.region.segLinks :=
    fun x => (List.nodup_append.mp h.nodup).1.mem_erase_iff
  have moves : ∀ u x, (Function.update s.pc tx (.returning ret) u).moves x →
      u ≠ tx ∧ (s.pc u).moves x := by
    intro u x hu
    by_cases he : u = tx
    · subst u
      simp [Pc.moves] at hu
    · exact ⟨he, by simpa [he] using hu⟩
  refine ⟨h.of_perm (perm_relink hg) fun x hx => ?_, ?_, ?_, ?_⟩
  · rcases List.mem_append.mp hx with hx | hx
    · exact h.flagged x hx
    · exact List.mem_singleton.mp hx ▸ hd
  · intro u x hu
    obtain ⟨hne, hm⟩ := moves u x hu
    have hx := h.moving u x hm
    refine ⟨(clean x).mpr ⟨?_, hx.1⟩, hx.2⟩
    rintro rfl
    exact hne (h.mover u tx x hm mine)
  · exact fun u v x hu hv => h.mover u v x (moves u x hu).2 (moves v x hv).2
  · intro x hx hdx
    obtain ⟨hne, hx⟩ := (clean x).mp hx
    obtain ⟨u, hu⟩ := h.pending x hx hdx
    refine ⟨u, ?_⟩
    have hut : u ≠ tx := by
      rintro rfl
      rw [hp] at hu
      exact hne hu.symm
    simpa [State.goto, hut] using hu

theorem micro [Zero W] (h : Lists s) (hm : Micro s tx t)
    (hl : ∀ g ret, s.pc tx = .casDirty g ret → g ∈ s.region.live) : Lists t := by
  cases hm with
  | pcOnly hloc =>
    exact h.frame rfl rfl rfl rfl (fun _ => rfl)
      (moves_congr rfl (fun g => (hloc.not_moves g).1) (fun g => (hloc.not_moves g).2))
  | passRead hp | passWrite hp | copyWord hp | storeFree hp | storeOwner hp | ownRollback hp
  | restoreWord hp =>
    exact h.frame rfl rfl rfl rfl (update_proj Segment.dirty rfl)
      (moves_congr hp (fun _ => id) (fun _ => id))
  | allocate hp => exact h.allocate hp
  | winDirty hp hd => exact h.winDirty hp (hl _ _ hp) hd
  | listMove hp => exact h.listMove hp

theorem leave_batcher_last (hl : lastToLeave s.region.batcher = true) :
    s.region.leaveBatcher = { epochCleanup s.region with
      batcher := BatcherState.leaveBatcher s.region.batcher } := by
  rw [Region.leaveBatcher, if_pos hl]

/-- When nobody is between the two halves of `move_to_dirty`, the flag tells the list. -/
theorem dirty_iff (h : Lists s) (hm : ∀ u g, ¬ (s.pc u).moves g) {g : SegId}
    (hg : g ∈ s.region.live) : (s.region.seg g).dirty = true ↔ g ∈ s.region.dirtySegLinks := by
  refine ⟨fun hd => ?_, h.flagged g⟩
  rcases (h.live g).mp hg with hc | hc
  · obtain ⟨u, hu⟩ := h.pending g hc hd
    exact (hm u g hu).elim
  · exact hc

theorem close (h : Lists s) (hm : ∀ u g, ¬ (s.pc u).moves g)
    (hl : lastToLeave s.region.batcher = true) {p : Pc W} (hq : ∀ g, ¬ p.moves g) :
    Lists (leave s tx p) := by
  have still : ∀ u g, ¬ ((leave s tx p).pc u).moves g := by
    intro u g hu
    rw [Ledger.leave_closing hl] at hu
    by_cases hw : u ∈ s.region.batcher.waiters
    · simp [hw, Pc.moves] at hu
    · by_cases he : u = tx
      · subst u
        simp [hw, hq] at hu
      · simp [hw, he, hm] at hu
  have hseg : ∀ g ∈ (epochCleanup s.region).segLinks,
      ((epochCleanup s.region).seg g).dirty = false := by
    intro g hg
    have hlive := h.cleanup_segLinks.mp hg
    rw [h.cleanup_seg hlive]
    split_ifs with hd
    · rfl
    · rw [← h.dirty_iff hm (h.cleanup_live.mp hlive).1] at hd
      simpa using hd
  have hregion : (leave s tx p).region = { epochCleanup s.region with
      batcher := BatcherState.leaveBatcher s.region.batcher } := by
    rw [Ledger.leave_closing hl]
    exact leave_batcher_last hl
  refine ⟨?_, ?_, ?_, ?_⟩
  · rw [hregion]
    exact h.cleanup.withBatcher _
  · exact fun u g hu => (still u g hu).elim
  · exact fun u _ g hu => (still u g hu).elim
  · intro g hg hd
    rw [hregion] at hg hd
    rw [hseg g hg] at hd
    cases hd

end Lists

end LockLevel
