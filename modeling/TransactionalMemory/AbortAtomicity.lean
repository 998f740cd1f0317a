import TransactionalMemory.LockLevelOrigins

/-! # Abort atomicity at lock granularity

A rollback walks the dirty list, so it misses what its transaction did to segments that
are not linked there yet. In runs where that never happens an aborted transaction leaves
no trace, in the control words or in what the cleanup commits. -/
namespace AbortAtomicity

open TransitionSystem
open BatcherState
open ControlWord
open RegionState
open LockLevel

variable {W : Type*}

/-- The rollback of `tx` turns to its last link, the base, or finds no link at all. -/
def EndsWalk (s : State W) (tx : Tx) : Prop :=
  match s.pc tx with
  | .readHead _ => ∀ base ∈ s.region.dirtySegLinks.head?,
      nextLink s.region.dirtySegLinks base = base
  | .advanceLink _ link base => link ≠ base ∧ nextLink s.region.dirtySegLinks link = base
  | _ => False

/-- What a transaction wrote to or owns is linked in the dirty list before the walk of its
rollback ends. -/
def Linked (s : State W) : Event W → Prop
  | .advance tx => EndsWalk s tx →
      (∀ w ∈ s.hist.passedWrite, w.1 = tx → w.2.1 ∈ s.region.dirtySegLinks) ∧
      ∀ g ∈ s.region.live, (s.region.seg g).owner = tx → g ∈ s.region.dirtySegLinks
  | _ => True

instance (s : State W) (tx : Tx) : Decidable (EndsWalk s tx) := by
  unfold EndsWalk
  split <;> infer_instance

instance (s : State W) (e : Event W) : Decidable (Linked s e) := by
  cases e <;> simp only [Linked] <;> infer_instance

def Contract (s : State W) (e : Event W) : Prop := Lawful s e ∧ Linked s e

instance (s : State W) (e : Event W) : Decidable (Contract s e) :=
  inferInstanceAs (Decidable (_ ∧ _))

/-- Nothing of a failed transaction is left in the segment. -/
structure Clean (s : State W) (tx : Tx) (g : SegId) : Prop where
  words : ∀ i < (s.region.seg g).size, ¬ (((s.region.seg g).control i).written = true ∧
    ((s.region.seg g).control i).access = tx)
  owner : (s.region.seg g).owner = tx → (s.region.seg g).rollback = true

/-- How far the rollback of `tx` has come: the links from `base->next` up to `link` are
done, and at the base all other segments are. -/
def Swept (s : State W) (tx : Tx) (link base : SegId) : Prop :=
  (link ≠ base → ∀ g ∈ s.region.dirtySegLinks, g ≠ base →
    s.region.dirtySegLinks.idxOf g < s.region.dirtySegLinks.idxOf link → Clean s tx g) ∧
  (link = base → ∀ g ∈ s.region.live, g ≠ base → Clean s tx g)

def Progress (s : State W) (tx : Tx) : Pc W → Prop
  | .testOwner _ link base => Swept s tx link base
  | .clearWord _ link base i => Swept s tx link base ∧
      ((s.region.seg link).owner = tx → (s.region.seg link).rollback = true) ∧
      ∀ j < i, ¬ (((s.region.seg link).control j).written = true ∧
        ((s.region.seg link).control j).access = tx)
  | .advanceLink _ link base => Swept s tx link base ∧ Clean s tx link
  | .leaveFailed _ | .aborted => ∀ g ∈ s.region.live, Clean s tx g
  | _ => True

structure Rollbacks (s : State W) : Prop where
  progress : ∀ tx, Progress s tx (s.pc tx)
  old : ∀ g ∈ s.region.live, s.hist.allocBy g = none → (s.region.seg g).newlyAlloc = false
  freeing : ∀ u g, s.pc u = .storeOwner g → (u, g) ∈ s.hist.freeBy
  freed : ∀ g ∈ s.region.live, (s.region.seg g).shouldFree = true →
    (∃ u, s.pc u = .storeOwner g) ∨ ((s.region.seg g).owner, g) ∈ s.hist.freeBy

/-- No step leaves more of `tx` in the segment than there was. -/
structure Lessens (s t : State W) (tx : Tx) (g : SegId) : Prop where
  size : (t.region.seg g).size = (s.region.seg g).size
  word : ∀ i, ((t.region.seg g).control i).written = true →
    ((t.region.seg g).control i).access = tx →
    ((s.region.seg g).control i).written = true ∧ ((s.region.seg g).control i).access = tx
  owner : (t.region.seg g).owner = tx → (s.region.seg g).owner = tx
  rollback : (s.region.seg g).rollback = true → (t.region.seg g).rollback = true

variable {s t : State W} {tx u : Tx} {g : SegId}

theorem Lessens.of_seg (h : t.region.seg g = s.region.seg g) : Lessens s t tx g := by
  refine ⟨?_, ?_, ?_, ?_⟩ <;> rw [h]
  · exact fun _ hw ha => ⟨hw, ha⟩
  · exact id
  · exact id

theorem Clean.lessens (h : Clean s tx g) (hl : Lessens s t tx g) : Clean t tx g where
  words i hi hw := h.words i (hl.size ▸ hi) (hl.word i hw.1 hw.2)
  owner ho := hl.rollback (h.owner (hl.owner ho))

/-- A section of another transaction, or a rollback section, that changes one word. -/
theorem lessens_control {x : SegId} {j : ℕ} {seg : Segment W}
    (hs : t.region.seg = Function.update s.region.seg x seg)
    (hz : seg.size = (s.region.seg x).size) (ho : seg.owner = (s.region.seg x).owner)
    (hr : seg.rollback = (s.region.seg x).rollback)
    (hc : ∃ c, seg.control = Function.update (s.region.seg x).control j c ∧
      (c.written = true → c.access = tx → ((s.region.seg x).control j).written = true ∧
        ((s.region.seg x).control j).access = tx)) : Lessens s t tx g := by
  by_cases hx : g = x
  · subst g
    obtain ⟨c, hc, hback⟩ := hc
    have hseg : t.region.seg x = seg := by rw [hs, Function.update_self]
    refine ⟨by rw [hseg, hz], fun i => ?_, by rw [hseg, ho]; exact id,
      by rw [hseg, hr]; exact id⟩
    rw [hseg, hc]
    by_cases hi : i = j
    · subst i
      simpa using hback
    · simpa [hi] using fun hw ha => And.intro hw ha
  · exact .of_seg (by rw [hs, Function.update_of_ne hx])

/-- Only `tx` itself, and only before it fails, adds to what is left of it. -/
theorem micro_lessens [Zero W] (hm : Micro s u t) (hi : Invariant s)
    (htx : u = tx → (s.pc tx).failed = true) (hg : g ∈ s.region.live) : Lessens s t tx g := by
  have alive : (s.pc u).failed = false → u ≠ tx := fun hf he => by
    rw [he, htx he] at hf
    cases hf
  have ok := hi.ok u
  cases hm with
  | pcOnly | listMove => exact .of_seg rfl
  | @passRead x k n j hp =>
    refine lessens_control rfl rfl rfl rfl ⟨_, rfl, fun hw ha => ?_⟩
    rw [canReadWord_written] at hw
    refine ⟨hw, ?_⟩
    rwa [show (canReadWord u ((s.region.seg x).control (k + j))).2 =
      (s.region.seg x).control (k + j) by simp [canReadWord, hw]] at ha
  | @passWrite x k src j hp hj hok =>
    rw [hp] at ok
    have h0 : u ≠ 0#64 := hi.ledger.named u (by simp [hp])
    have hc := ((hi.word x ok.1 (k + j)).exclusive.write h0 hok).2
    refine lessens_control rfl rfl rfl rfl ⟨_, rfl, fun hw ha => ?_⟩
    rw [hc] at ha
    exact (alive (by simp [hp, Pc.failed]) ha).elim
  | @copyWord x k src j v hp =>
    refine lessens_control (j := j) rfl rfl rfl rfl ⟨(s.region.seg x).control j, ?_, ?_⟩
    · simp
    · exact fun hw ha => ⟨hw, ha⟩
  | @restoreWord c x base j hp hj hw ha =>
    refine lessens_control rfl rfl rfl rfl ⟨_, rfl, fun hwr _ => ?_⟩
    simp [rollbackWord, hw, ha] at hwr
  | @storeFree x hp =>
    refine lessens_control (j := 0) rfl rfl rfl rfl ⟨(s.region.seg x).control 0, ?_, ?_⟩
    · simp
    · exact fun hw ha => ⟨hw, ha⟩
  | @winDirty x ret hp =>
    refine lessens_control (j := 0) rfl rfl rfl rfl ⟨(s.region.seg x).control 0, ?_, ?_⟩
    · simp
    · exact fun hw ha => ⟨hw, ha⟩
  | @storeOwner x hp =>
    by_cases hx : g = x
    · subst g
      refine ⟨?_, ?_, ?_, ?_⟩ <;> rw [setSeg_at]
      · exact fun _ hw ha => ⟨hw, ha⟩
      · exact fun ho => (alive (by simp [hp, Pc.failed]) ho).elim
      · exact id
    · exact .of_seg (setSeg_off _ _ _ _ hx)
  | @ownRollback c x base hp =>
    by_cases hx : g = x
    · subst g
      refine ⟨?_, ?_, ?_, ?_⟩ <;> rw [setSeg_at]
      · exact fun _ hw ha => ⟨hw, ha⟩
      · exact id
      · exact fun _ => rfl
    · exact .of_seg (setSeg_off _ _ _ _ hx)
  | allocate =>
    exact .of_seg (Region.setSeg_other _ _ _ (Nat.ne_of_lt (hi.lists.fresh g hg)))

theorem idxOf_of_prefix {l m : List SegId} (h : l <+: m) {x y : SegId} (hx : x ∈ l)
    (hlt : m.idxOf y < m.idxOf x) : y ∈ l ∧ l.idxOf y < l.idxOf x := by
  obtain ⟨r, rfl⟩ := h
  rw [List.idxOf_append_of_mem hx] at hlt
  have hy : y ∈ l := by
    by_contra hn
    have hb := List.idxOf_lt_length_iff.mpr hx
    rw [List.idxOf_append_of_notMem hn] at hlt
    omega
  rw [List.idxOf_append_of_mem hy] at hlt
  exact ⟨hy, hlt⟩

/-- What another transaction's step does to the progress of a rollback: nothing. -/
theorem Swept.mono {link base : SegId} (h : Swept s tx link base) (hl : Lists s)
    (hf : Frame s t u) (less : ∀ g ∈ s.region.live, Lessens s t tx g)
    (new : ∀ g ∈ t.region.live, g ∉ s.region.live → Clean t tx g)
    (hlink : link ∈ s.region.dirtySegLinks) : Swept t tx link base where
  left hne g _ hg hlt := by
    obtain ⟨hin, hlt⟩ := idxOf_of_prefix hf.dirtySegLinks hlink hlt
    exact (h.1 hne g hin hg hlt).lessens (less g ((hl.live g).mpr (.inr hin)))
  right he g hg hne := by
    by_cases hold : g ∈ s.region.live
    · exact (h.2 he g hold hne).lessens (less g hold)
    · exact new g hg hold

theorem progress_others [Zero W] (hm : Micro s u t) (hi : Invariant s) (hu : tx ≠ u)
    (h : Progress s tx (s.pc tx)) : Progress t tx (s.pc tx) := by
  have hf := hm.frame
  have less : ∀ g ∈ s.region.live, Lessens s t tx g := fun g hg =>
    micro_lessens hm hi (fun he => (hu he.symm).elim) hg
  have new : ∀ g ∈ t.region.live, g ∉ s.region.live → Clean t tx g := by
    intro g hg hold
    cases hm with
    | allocate =>
      rcases Finset.mem_insert.mp hg with rfl | hg
      · refine ⟨fun i _ hw => ?_, fun ho => ?_⟩
        · simp [State.goto, State.allocate, allocSegment, Control.zero] at hw
        · simp [State.goto, State.allocate, allocSegment, Ne.symm hu] at ho
      · exact (hold hg).elim
    | _ => exact (hold hg).elim
  have ok := hi.ok tx
  cases hp : s.pc tx with
  | testOwner c link base =>
    rw [hp] at h ok
    exact Swept.mono h hi.lists hf less new ok.1
  | clearWord c link base i =>
    rw [hp] at h ok
    have hless := less link ((hi.lists.live link).mpr (.inr ok.1))
    refine ⟨h.1.mono hi.lists hf less new ok.1, fun ho => ?_, fun j hj hw => ?_⟩
    · exact hless.rollback (h.2.1 (hless.owner ho))
    · exact h.2.2 j hj (hless.word j hw.1 hw.2)
  | advanceLink c link base =>
    rw [hp] at h ok
    exact ⟨h.1.mono hi.lists hf less new ok.1,
      h.2.lessens (less link ((hi.lists.live link).mpr (.inr ok.1)))⟩
  | leaveFailed c | aborted =>
    rw [hp] at h
    intro g hg
    by_cases hold : g ∈ s.region.live
    · exact (h g hold).lessens (less g hold)
    · exact new g hg hold
  | _ => trivial

/-- What is not linked when the walk ends holds nothing of the transaction. -/
theorem unlinked_clean (hi : Invariant s) (hc : Linked s (.advance tx)) (he : EndsWalk s tx)
    (hg : g ∈ s.region.live) (hoff : g ∉ s.region.dirtySegLinks) : Clean s tx g := by
  obtain ⟨hwrite, hown⟩ := hc he
  refine ⟨fun i _ hw => ?_, fun ho => (hoff (hown g hg ho)).elim⟩
  have hp := (hi.word g hg i).traced.written hw.1
  rw [hw.2] at hp
  exact hoff (hwrite (tx, g, i) hp rfl)

theorem idxOf_pos_of_ne_head {l : List SegId} {base x : SegId} (h : l.head? = some base)
    (hx : x ≠ base) : 0 < l.idxOf x := by
  cases l with
  | nil => cases h
  | cons a l =>
    cases h
    simp [List.idxOf_cons_ne _ (Ne.symm hx)]

theorem idxOf_head {l : List SegId} {base : SegId} (h : l.head? = some base) :
    l.idxOf base = 0 := by
  cases l with
  | nil => cases h
  | cons a l =>
    cases h
    simp

/-- `link->next` is one further, or it is the base and `link` was the last. -/
theorem nextLink_cases {l : List SegId} (hn : l.Nodup) {link base : SegId}
    (hl : link ∈ l) (hb : l.head? = some base) :
    (l.idxOf (nextLink l link) = l.idxOf link + 1 ∧ nextLink l link ≠ base) ∨
      (nextLink l link = base ∧ ∀ x ∈ l, l.idxOf x ≤ l.idxOf link) := by
  unfold nextLink
  cases hx : l[l.idxOf link + 1]? with
  | some x =>
    obtain ⟨hlt, hget⟩ := List.getElem?_eq_some_iff.mp hx
    have hidx : l.idxOf x = l.idxOf link + 1 := by
      rw [← hget]
      exact hn.idxOf_getElem _ hlt
    refine .inl ⟨hidx, fun he => ?_⟩
    simp only [Option.getD_some] at he
    rw [he, idxOf_head hb] at hidx
    omega
  | none =>
    refine .inr ⟨?_, fun x hx' => ?_⟩
    · cases l with
      | nil => cases hl
      | cons a l =>
        cases hb
        rfl
    · have hlen := List.getElem?_eq_none_iff.mp hx
      have := List.idxOf_lt_length_iff.mpr hx'
      omega

/-- One turn of the walk of `rollback_transaction`. -/
theorem Swept.advance {link base : SegId} (hi : Invariant s) (hc : Linked s (.advance tx))
    (hp : ∃ c, s.pc tx = .advanceLink c link base) (hne : link ≠ base)
    (hl : link ∈ s.region.dirtySegLinks) (hb : s.region.dirtySegLinks.head? = some base)
    (h : Swept s tx link base) (hlink : Clean s tx link) :
    Swept s tx (nextLink s.region.dirtySegLinks link) base := by
  have hn := (List.nodup_append.mp hi.lists.nodup).2.1
  have upto : ∀ g ∈ s.region.dirtySegLinks, g ≠ base →
      s.region.dirtySegLinks.idxOf g ≤ s.region.dirtySegLinks.idxOf link → Clean s tx g := by
    intro g hg hgb hle
    by_cases he : g = link
    · exact he ▸ hlink
    · refine h.1 hne g hg hgb (Nat.lt_of_le_of_ne hle fun hidx => he ?_)
      exact (List.idxOf_inj hg).mp hidx
  rcases nextLink_cases hn hl hb with ⟨hidx, hnb⟩ | ⟨hnb, hall⟩
  · exact ⟨fun _ g hg hgb hlt => upto g hg hgb (by omega), fun he => (hnb he).elim⟩
  · refine ⟨fun hno => (hno hnb).elim, fun _ g hg hgb => ?_⟩
    by_cases hd : g ∈ s.region.dirtySegLinks
    · exact upto g hd hgb (hall g hd)
    · obtain ⟨c, hpc⟩ := hp
      exact unlinked_clean hi hc (by rw [EndsWalk, hpc]; exact ⟨hne, hnb⟩) hg hd

theorem Swept.start {base : SegId} {rest : List SegId} (hi : Invariant s)
    (hc : Linked s (.advance tx)) (hp : ∃ c, s.pc tx = .readHead c)
    (hl : s.region.dirtySegLinks = base :: rest) :
    Swept s tx (nextLink s.region.dirtySegLinks base) base := by
  have hn := (List.nodup_append.mp hi.lists.nodup).2.1
  have hb : s.region.dirtySegLinks.head? = some base := by simp [hl]
  have hin : base ∈ s.region.dirtySegLinks := by simp [hl]
  rcases nextLink_cases hn hin hb with ⟨hidx, hnb⟩ | ⟨hnb, hall⟩
  · refine ⟨fun _ g hg hgb hlt => ?_, fun he => (hnb he).elim⟩
    have := idxOf_pos_of_ne_head hb hgb
    rw [hidx, idxOf_head hb] at hlt
    omega
  · refine ⟨fun hno => (hno hnb).elim, fun _ g hg hgb => ?_⟩
    obtain ⟨c, hpc⟩ := hp
    refine unlinked_clean hi hc ?_ hg fun hd => ?_
    · rw [EndsWalk, hpc]
      intro x hx
      rw [hb, Option.mem_some_iff] at hx
      exact hx ▸ hnb
    · have h1 := hall g hd
      have h2 := idxOf_pos_of_ne_head hb hgb
      rw [idxOf_head hb] at h1
      omega

theorem progress_local (hi : Invariant s) (hc : Linked s (.advance tx))
    (h : Progress s tx (s.pc tx)) {p q : Pc W} (hp : s.pc tx = p) (hl : Local s tx p q) :
    Progress s tx q := by
  have ok := hi.ok tx
  rw [hp] at h ok
  cases hl with
  | @noDirty c he =>
    have ends : EndsWalk s tx := by
      rw [EndsWalk, hp]
      simp [he]
    exact fun g hg => unlinked_clean hi hc ends hg (by simp [he])
  | @head c base rest he => exact Swept.start hi hc ⟨c, hp⟩ he
  | notOwner hne => exact ⟨h, fun ho => (hne ho).elim, nofun⟩
  | @skipWord c link base i hi' hno =>
    refine ⟨h.1, h.2.1, fun j hj => ?_⟩
    rcases Nat.lt_succ_iff_lt_or_eq.mp hj with hj | rfl
    · exact h.2.2 j hj
    · exact hno
  | @cleared c link base i hsize =>
    exact ⟨h.1, fun j hj => h.2.2 j (by omega), h.2.1⟩
  | @walked c base =>
    intro g hg
    by_cases he : g = base
    · exact he ▸ h.2
    · exact h.1.2 rfl g hg he
  | @nextLink c link base hne =>
    exact Swept.advance hi hc ⟨c, hp⟩ hne ok.1 ok.2 h.1 h.2
  | _ => trivial

theorem Progress.same {p : Pc W} (h : Progress s tx p) (hs : t.region.seg = s.region.seg)
    (hl : t.region.live = s.region.live)
    (hd : t.region.dirtySegLinks = s.region.dirtySegLinks) : Progress t tx p := by
  have clean : ∀ {g}, Clean s tx g → Clean t tx g := fun hg =>
    hg.lessens (.of_seg (by rw [hs]))
  have swept : ∀ {link base}, Swept s tx link base → Swept t tx link base := by
    intro link base hs
    refine ⟨fun hne g hg hb hlt => clean ?_, fun he g hg hb => clean ?_⟩
    · rw [hd] at hg hlt
      exact hs.1 hne g hg hb hlt
    · exact hs.2 he g (hl ▸ hg) hb
  cases p with
  | testOwner => exact swept h
  | clearWord =>
    refine ⟨swept h.1, ?_⟩
    rw [hs]
    exact h.2
  | advanceLink => exact ⟨swept h.1, clean h.2⟩
  | leaveFailed | aborted => exact fun g hg => clean (h g (hl ▸ hg))
  | _ => trivial

theorem progress_self [Zero W] (hi : Invariant s) (hc : Linked s (.advance tx))
    (h : Progress s tx (s.pc tx)) (hm : Micro s tx t) : Progress t tx (t.pc tx) := by
  have hf := hm.frame
  have ok := hi.ok tx
  have less := fun (hfail : (s.pc tx).failed = true) g (hg : g ∈ s.region.live) =>
    micro_lessens hm hi (fun _ => hfail) hg
  cases hm with
  | pcOnly hl =>
    simp only [State.goto, Function.update_self]
    exact (progress_local hi hc h rfl hl).same rfl rfl rfl
  | @ownRollback c link base hp =>
    rw [hp] at h ok
    simp only [State.goto, Function.update_self]
    have less' := less (by simp [hp, Pc.failed])
    refine ⟨h.mono hi.lists hf less' (fun g hg hold => (hold hg).elim) ok.1, fun _ => ?_,
      fun j hj => (Nat.not_lt_zero j hj).elim⟩
    simp [State.setSeg]
  | @restoreWord c link base i hp =>
    rw [hp] at h ok
    simp only [State.goto, Function.update_self]
    have less' := less (by simp [hp, Pc.failed])
    have hlink := less' link ((hi.lists.live link).mpr (.inr ok.1))
    refine ⟨h.1.mono hi.lists hf less' (fun g hg hold => (hold hg).elim) ok.1,
      fun ho => hlink.rollback (h.2.1 (hlink.owner ho)), fun j hj hw => ?_⟩
    rcases Nat.lt_succ_iff_lt_or_eq.mp hj with hj | rfl
    · exact h.2.2 j hj (hlink.word j hw.1 hw.2)
    · have released := @rollbackWord_released ((s.region.seg link).control j) tx
      exact released (by simpa [State.restoreWord, State.setSeg] using hw)
  | _ =>
    simp only [State.goto, Function.update_self]
    trivial

/-- `shouldFree` without an owner that called `tm_free` is seen only between the two stores. -/
theorem freed_micro [Zero W] (h : Rollbacks s) (hm : Micro s tx t)
    (hg : g ∈ t.region.live) (hs : (t.region.seg g).shouldFree = true) :
    (∃ u, t.pc u = .storeOwner g) ∨ ((t.region.seg g).owner, g) ∈ t.hist.freeBy := by
  have hf := hm.frame
  -- the transactions between the two stores stay there, `tx` apart
  have keep : g ∈ s.region.live → (∀ x, s.pc tx ≠ .storeOwner x) →
      (s.region.seg g).shouldFree = true → (t.region.seg g).owner = (s.region.seg g).owner →
      (∃ u, t.pc u = .storeOwner g) ∨ ((t.region.seg g).owner, g) ∈ t.hist.freeBy := by
    intro hg hn hs ho
    rcases h.freed g hg hs with ⟨u, hu⟩ | hin
    · refine .inl ⟨u, ?_⟩
      rw [hf.elsewhere u (by rintro rfl; exact hn g hu)]
      exact hu
    · exact .inr (hf.freeBy (ho ▸ hin))
  cases hm with
  | pcOnly hl =>
    refine keep hg (fun x hx => ?_) hs rfl
    rw [hx] at hl
    cases hl
  | listMove hp => exact keep hg (by simp [hp]) hs rfl
  | passRead hp | passWrite hp | copyWord hp | winDirty hp | ownRollback hp | restoreWord hp =>
    exact keep hg (by simp [hp]) ((update_proj Segment.shouldFree (by rfl) g).symm.trans hs)
      (update_proj Segment.owner (by rfl) g)
  | @storeFree x hp =>
    by_cases hx : g = x
    · exact .inl ⟨tx, by simp [State.goto, hx]⟩
    · have off : ((s.storeFree tx x).goto tx (.storeOwner x)).region.seg g = s.region.seg g :=
        Region.setSeg_other _ _ _ hx
      exact keep hg (by simp [hp]) (off ▸ hs) (by rw [off])
  | @storeOwner x hp =>
    by_cases hx : g = x
    · subst g
      rw [setSeg_at]
      exact .inr (h.freeing tx x hp)
    · rw [setSeg_off _ _ _ _ hx] at hs ⊢
      rcases h.freed g hg hs with ⟨u, hu⟩ | hin
      · refine .inl ⟨u, ?_⟩
        rw [hf.elsewhere u ?_]
        · exact hu
        · rintro rfl
          rw [hp] at hu
          cases hu
          exact hx rfl
      · exact .inr hin
  | @allocate size hp =>
    by_cases hx : g = s.region.nextSeg
    · subst g
      simp [State.goto, State.allocate, allocSegment] at hs
    · have off : ((s.allocate tx size).goto tx
          (.returning (.allocated s.region.nextSeg))).region.seg g = s.region.seg g :=
        Region.setSeg_other _ _ _ hx
      exact keep (Finset.mem_of_mem_insert_of_ne hg hx) (by simp [hp]) (off ▸ hs) (by rw [off])

theorem freeing_micro [Zero W] (h : Rollbacks s) (hm : Micro s tx t) (u : Tx) (g : SegId)
    (hu : t.pc u = .storeOwner g) : (u, g) ∈ t.hist.freeBy := by
  have hf := hm.frame
  by_cases he : u = tx
  · subst u
    cases hm with
    | storeFree hp =>
      simp only [State.goto, Function.update_self, Pc.storeOwner.injEq] at hu
      exact hu ▸ Finset.mem_insert_self _ _
    | pcOnly hl =>
      simp only [State.goto, Function.update_self] at hu
      rw [hu] at hl
      generalize s.pc tx = p at hl
      cases hl
    | _ => simp [State.goto] at hu
  · exact hf.freeBy (h.freeing u g (hf.elsewhere u he ▸ hu))

theorem rollbacks_micro [Zero W] (hi : Invariant s) (h : Rollbacks s)
    (hc : Contract s (.advance tx)) (hm : Micro s tx t) : Rollbacks t := by
  have hf := hm.frame
  refine ⟨fun u => ?_, fun g hg ha => ?_, freeing_micro h hm,
    fun g hg hs => freed_micro h hm hg hs⟩
  · by_cases hu : u = tx
    · subst u
      exact progress_self hi hc.2 (h.progress tx) hm
    · rw [hf.elsewhere u hu]
      exact progress_others hm hi hu (h.progress u)
  · have old : g ∈ s.region.live → (t.region.seg g).newlyAlloc = false := fun hin => by
      have hne := Nat.ne_of_lt (hi.lists.fresh g hin)
      rw [(hf.seg g hne).newlyAlloc]
      exact h.old g hin (hf.allocBy g hne ▸ ha)
    cases hm with
    | allocate =>
      by_cases hn : g = s.region.nextSeg
      · subst g
        simp [State.goto, State.allocate] at ha
      · exact old (Finset.mem_of_mem_insert_of_ne hg hn)
    | _ => exact old hg

theorem rollbacks_boundary {p q : Pc W} (h : Rollbacks s) (hr : Relabel s t tx p q)
    (hb : Boundary Contract s tx p q) : Rollbacks t := by
  have other : ∀ u, u ≠ tx → t.pc u = s.pc u := fun u hu => by
    rw [hr.pc, Function.update_of_ne hu]
  have self : t.pc tx = q := by rw [hr.pc, Function.update_self]
  refine ⟨fun u => ?_, fun g hg ha => ?_, fun u g hu => ?_, fun g hg hs => ?_⟩
  · have moved : Progress s u (t.pc u) := by
      by_cases hu : u = tx
      · subst u
        have hp := h.progress tx
        rw [hr.here] at hp
        rw [self]
        cases hb with
        | @call c => cases c <;> trivial
        | abort => exact hp
        | _ => trivial
      · rw [other u hu]
        exact h.progress u
    exact moved.same hr.seg hr.live hr.dirtySegLinks
  · rw [hr.seg]
    exact h.old g (hr.live ▸ hg) (hr.allocBy ▸ ha)
  · rw [hr.freeBy]
    by_cases he : u = tx
    · subst u
      rw [self] at hu
      cases hb with
      | @call c => cases c <;> cases hu
      | _ => cases hu
    · exact h.freeing u g (other u he ▸ hu)
  · rw [hr.seg] at hs ⊢
    rw [hr.freeBy]
    refine (h.freed g (hr.live ▸ hg) hs).imp_left ?_
    rintro ⟨u, hu⟩
    refine ⟨u, ?_⟩
    rw [other u ?_]
    · exact hu
    · rintro rfl
      rw [hr.here] at hu
      cases hb <;> cases hu

theorem rollbacks_close {p : Pc W} (hi : Invariant s) (hc : Closing s tx p) :
    Rollbacks (leave s tx p) := by
  have named := (hc.invariant hi).ledger.named
  have idle := hc.idle hi
  refine ⟨fun u => ?_, fun g hg _ => (hc.quiescent hi hg).newlyAlloc, fun u g hu => ?_,
    fun g hg hs => ?_⟩
  · have reset : (leave s tx p).pc u ≠ .outside →
        ∀ g ∈ (leave s tx p).region.live, Clean (leave s tx p) u g := by
      intro hout g hg
      have hq := hc.quiescent hi hg
      refine ⟨fun i _ hw => ?_, fun ho => ?_⟩
      · simp [hq.control, Control.zero] at hw
      · exact (named u hout (ho.symm.trans hq.owner)).elim
    rcases idle u with hu | hu
    · rw [hu]
      trivial
    · cases hp : (leave s tx p).pc u with
      | aborted => exact reset (by simp [hp])
      | outside | waiting | committed => trivial
      | _ =>
        rw [hp] at hu
        cases hu
  · rcases idle u with h | h <;> rw [hu] at h <;> cases h
  · rw [(hc.quiescent hi hg).shouldFree] at hs
    cases hs

/-- When an epoch closes, its failed transactions have left nothing behind. -/
theorem closing_clean {p : Pc W} (hi : Invariant s) (h : Rollbacks s) (hc : Closing s tx p)
    (hf : (s.pc u).failed = true) : ∀ g ∈ s.region.live, Clean s u g := by
  have hp := h.progress u
  by_cases hu : u = tx
  · subst u
    rcases hc.here with ⟨c, he, -⟩ | ⟨he, -⟩
    · rw [he] at hp
      exact hp
    · rw [he] at hf
      cases hf
  · have ha := hc.alone hi hu
    cases he : s.pc u with
    | aborted =>
      rw [he] at hp
      exact hp
    | outside | waiting | committed =>
      rw [he] at hf
      cases hf
    | _ =>
      rw [he] at ha
      cases ha

theorem closing_author {p : Pc W} (hi : Invariant s) (h : Rollbacks s) (hc : Closing s tx p)
    {i : ℕ} (hf : (s.pc u).failed = true) (hg : g ∈ s.region.live) :
    s.hist.author g i ≠ some u := by
  intro ha
  have word := hi.word g hg i
  have hsize := (hi.passes.live u g i (.inr (hi.passes.author u g i ha))).2
  have hw : ((s.region.seg g).control i).written = true := by
    by_contra hno
    rw [(word.equal (by simpa using hno)).2] at ha
    cases ha
  exact (closing_clean hi h hc hf g hg).words i hsize ⟨hw, word.author u ha⟩

theorem closing_keeps {p : Pc W} (hi : Invariant s) (h : Rollbacks s) (hc : Closing s tx p)
    (hg : g ∈ s.region.live) (ha : s.hist.allocBy g = none)
    (hfree : ∀ u, (u, g) ∈ s.hist.freeBy → (s.pc u).failed = true) :
    g ∈ (leave s tx p).region.live := by
  rw [hc.survives hi]
  refine ⟨hg, fun hdrop => ?_⟩
  have hnew := h.old g hg ha
  have hboth : (s.region.seg g).rollback = false ∧ (s.region.seg g).shouldFree = true := by
    simpa [Segment.dropped, Segment.successFree, Segment.failureAlloc, hnew] using hdrop.2
  rcases h.freed g hg hboth.2 with ⟨u, hu⟩ | hin
  · exact (hc.quiet hi u g).2.1 (by rw [hu]; rfl)
  · have := (closing_clean hi h hc (hfree _ hin) g hg).owner rfl
    rw [hboth.1] at this
    cases this

section runs

variable [Zero W]

theorem reachable_rollbacks {size : ℕ} (h : Reachable (system W size) Contract s) :
    Rollbacks s := by
  refine reachable_with (fun _ _ hc => hc.1) ?_
    (fun _ _ _ hi hj hc hm => rollbacks_micro hi hj hc hm)
    (fun _ _ _ _ _ _ hj hr hb => rollbacks_boundary hj hr hb)
    (fun _ _ _ hi _ hc => rollbacks_close hi hc) h
  exact ⟨fun _ => trivial, fun _ _ _ => rfl, nofun, fun _ _ => nofun⟩

/-- In runs where no rollback overlooks a segment: an aborted transaction holds no word, and
the cleanup copies nothing it wrote and frees no old segment for it alone. -/
theorem abort_atomicity {size : ℕ} (h : Reachable (system W size) Contract s) :
    (∀ tx, s.pc tx = .aborted → ∀ g ∈ s.region.live, ∀ i < (s.region.seg g).size,
      ¬ (((s.region.seg g).control i).written = true ∧
        ((s.region.seg g).control i).access = tx)) ∧
    ∀ e t, step s e = some t → ClosesEpoch s e →
      (∀ g ∈ s.region.dirtySegLinks, ∀ i u, (s.pc u).failed = true →
        s.hist.author g i ≠ some u) ∧
      ∀ g ∈ s.region.live, s.hist.allocBy g = none →
        (∀ u, (u, g) ∈ s.hist.freeBy → (s.pc u).failed = true) → g ∈ t.region.live := by
  have hi := reachable_invariant (h.mono fun _ _ hc => hc.1)
  have hr := reachable_rollbacks h
  refine ⟨fun tx hp g hg i hs => ?_, fun e t hs hc => ?_⟩
  · have clean := hr.progress tx
    rw [hp] at clean
    exact (clean g hg).words i hs
  · obtain ⟨tx, p, hclose, rfl⟩ := closing_step hs hc
    exact ⟨fun g hg i u hf => closing_author hi hr hclose hf ((hi.lists.live g).mpr (.inr hg)),
      fun g hg ha hf => closing_keeps hi hr hclose hg ha hf⟩

end runs

/-- Transaction 1 writes word 1; then 2 fails there with word 0 written, and rolls it back. -/
def rollback : List (Event ℕ) :=
  [.begin 3, .begin 1, .begin 2, .call 3 .finish, .advance 3,
    .call 1 (.write 0 1 [7])] ++ List.replicate 7 (.advance 1) ++
    [.call 2 (.write 0 0 [5, 6])] ++ List.replicate 11 (.advance 2)
def rolledBack : State ℕ := (run (system ℕ 2) (initial 2) rollback).getD (initial 2)

theorem rolledBack_reachable : Reachable (system ℕ 2) Contract rolledBack :=
  Reachable.run (.init rfl) rollback (by decide) rfl

theorem abort_atomicity_rolledBack : rolledBack.pc 2 = .aborted ∧
    ¬ (((rolledBack.region.seg 0).control 0).written = true ∧
      ((rolledBack.region.seg 0).control 0).access = 2) := by
  have hp : rolledBack.pc 2 = .aborted := rfl
  exact ⟨hp, (abort_atomicity rolledBack_reachable).1 2 hp 0 (by decide) 0 (by decide)⟩

/-- Transaction 2 has marked word 1 but not yet moved the segment when 1, which wrote word
0, fails at word 1: the rollback of 1 finds an empty dirty list. -/
def overlook : List (Event ℕ) :=
  [.begin 3, .begin 1, .begin 2, .call 3 .finish, .advance 3,
    .call 2 (.write 0 1 [7])] ++ List.replicate 2 (.advance 2) ++
    [.call 1 (.write 0 0 [5, 6])] ++ List.replicate 6 (.advance 1)
def overlooked : State ℕ := (run (system ℕ 2) (initial 2) overlook).getD (initial 2)

/-- Transaction 2 finishes its write and commits, which closes the epoch. -/
def overlookedClosed : State ℕ :=
  (run (system ℕ 2) overlooked (List.replicate 5 (.advance 2) ++ [.call 2 .finish, .advance 2])).getD
    overlooked

/-- The write of the aborted transaction stays, and the cleanup commits it. -/
theorem abort_leaves_write : Reachable (system ℕ 2) Disciplined overlooked ∧
    overlooked.pc 1 = .aborted ∧
    ((overlooked.region.seg 0).control 0).written = true ∧
    ((overlooked.region.seg 0).control 0).access = 1 ∧
    overlookedClosed.pc 2 = .committed ∧ (overlookedClosed.region.seg 0).read 0 = 5 :=
  ⟨Reachable.run (.init rfl) overlook (by decide) rfl, rfl, by decide, by decide, rfl, by decide⟩

end AbortAtomicity
