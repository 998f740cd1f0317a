import TransactionalMemory.PendingCalls

/-! # Opacity of reads at lock granularity

A word that a running transaction passed cannot be written by anyone else in the epoch, so
what it copies later is its own last write or the value the epoch started with. -/
namespace OpacityOfReads

open TransitionSystem
open ControlWord
open RegionState
open LockLevel

variable {W : Type*}

/-- The last value that `tx` wrote to the word in this epoch, else what the read copy held
when the epoch started, which is 0 for a segment that `tx` allocated itself. -/
def expected [Zero W] (s : State W) (tx : Tx) (g : SegId) (i : ℕ) : W :=
  (s.hist.wrote tx g i).getD
    (if s.hist.allocBy g = some tx then 0 else s.hist.epochStart g i)

/-- The words that a read has copied so far, from offset `k` of segment `g`. -/
def got : Pc W → Option (SegId × ℕ × List W)
  | .copyRo g k _ target | .copyRead g k _ target => some (g, k, target)
  | .casDirty _ (.read g k target) | .listMove _ (.read g k target) |
    .returning (.read g k target) => some (g, k, target)
  | _ => none

def marking (g : SegId) : Pc W → Prop
  | .markRead x .. => x = g
  | _ => False

def writes : Pc W → Bool
  | .guardWrite .. | .markWrite .. | .copyWrite .. => true
  | _ => false

def copiesRo : Pc W → Bool
  | .copyRo .. => true
  | _ => false

/-- Between passing the guard of a word and copying the word. -/
def copying (g : SegId) (i : ℕ) : Pc W → Prop
  | .copyWrite x k _ j => x = g ∧ k + j = i
  | _ => False

structure Reads [Zero W] (s : State W) : Prop where
  made : ∀ u g i v, s.hist.wrote u g i = some v → (u, g, i) ∈ s.hist.passedWrite
  held : ∀ u g i v, (s.pc u).failed = false → s.hist.wrote u g i = some v →
    (s.region.seg g).write i = v
  copied : ∀ u g i, (u, g, i) ∈ s.hist.passedWrite → s.hist.wrote u g i = none →
    (s.pc u).failed = false → copying g i (s.pc u)
  readOnly : ∀ u, isTxReadonly u = true →
    writes (s.pc u) = false ∧ ∀ g i, (u, g, i) ∉ s.hist.passedWrite
  roPath : ∀ u, copiesRo (s.pc u) = true → isTxReadonly u = true
  marking : ∀ u g, marking g (s.pc u) → s.mine u g
  got : ∀ u g k target, got (s.pc u) = some (g, k, target) →
    g ∈ s.region.live ∧ s.mine u g ∧ ∀ j v, target[j]? = some v → v = expected s u g (k + j)

variable {s t : State W} {tx : Tx}

theorem not_copying {p q : Pc W} (h : Local s tx p q) (g : SegId) (i : ℕ) : ¬ copying g i p := by
  cases h <;> exact id

theorem readOnly_local {p q : Pc W} (hl : Local s tx p q) (hp : writes p = false) :
    writes q = false := by
  cases hl <;> first | rfl | cases hp

theorem wrote_copyWord (s : State W) (tx u : Tx) (x g : SegId) (j i : ℕ) (v : W) (q : Pc W) :
    ((s.copyWord tx x j v).goto tx q).hist.wrote u g i =
      if u = tx ∧ g = x ∧ i = j then some v else s.hist.wrote u g i := by
  by_cases hu : u = tx
  · subst u
    by_cases hg : g = x
    · subst g
      by_cases hi : i = j <;> simp [State.copyWord, State.goto, hi]
    · simp [State.copyWord, State.goto, hg]
  · simp [State.copyWord, State.goto, hu]

/-- At the boundary of a call or of a transaction nothing is being read or written. -/
theorem boundary_pcs {p q : Pc W} (hb : Boundary Disciplined s tx p q) :
    (∀ g i, ¬ copying g i p) ∧ (q.failed = false → p.failed = false) ∧
      (isTxReadonly tx = true → writes q = false) ∧ copiesRo q = false ∧
      (∀ g, ¬ marking g q) ∧ got q = none := by
  cases hb with
  | @call c hc =>
    cases c with
    | write g k src =>
      refine ⟨fun _ _ => id, fun _ => rfl, fun hro => ?_, rfl, fun _ => id, rfl⟩
      have : isTxReadonly tx = false := hc.2.1
      rw [hro] at this
      cases this
    | _ => exact ⟨fun _ _ => id, fun _ => rfl, fun _ => rfl, rfl, fun _ => id, rfl⟩
  | abort => exact ⟨fun _ _ => id, nofun, fun _ => rfl, rfl, fun _ => id, rfl⟩
  | _ => exact ⟨fun _ _ => id, fun _ => rfl, fun _ => rfl, rfl, fun _ => id, rfl⟩

variable [Zero W]

theorem expected_unwritten {g : SegId} {i : ℕ} (ho : Origins s) (hg : g ∈ s.region.live)
    (hm : s.mine tx g) (hw : s.hist.wrote tx g i = none) :
    expected s tx g i = (s.region.seg g).read i := by
  have horigin := ho.seg g hg
  rcases hm with ha | ha
  · simp [expected, hw, ha, horigin.old ha]
  · simp [expected, hw, ha, horigin.zero (by simp [ha])]

/-- What a transaction finds in the write copy of a word that it passed. -/
theorem write_copy {g : SegId} {i : ℕ} (hi : Invariant s) (ho : Origins s) (h : Reads s)
    (hg : g ∈ s.region.live) (hm : s.mine tx g) (hf : (s.pc tx).failed = false)
    (hc : ¬ copying g i (s.pc tx)) (hp : (tx, g, i) ∈ s.hist.passedRead) :
    (s.region.seg g).write i = expected s tx g i := by
  cases hw : s.hist.wrote tx g i with
  | some v =>
    rw [h.held tx g i v hf hw]
    simp [expected, hw]
  | none =>
    have word := hi.word g hg i
    have notWriter : (tx, g, i) ∉ s.hist.passedWrite := fun hin =>
      hc (h.copied tx g i hin hw hf)
    have unwritten : ((s.region.seg g).control i).written = false := by
      by_contra hwr
      have hwr' : ((s.region.seg g).control i).written = true := by simpa using hwr
      have hself := word.exclusive.owner_of_written hwr' (t := tx) ⟨hf, .inl hp⟩
      exact notWriter (hself ▸ word.traced.written hwr')
    rw [(word.equal unwritten).1, expected_unwritten ho hg hm hw]

/-- Whoever passed the guard of a segment may use it. -/
theorem mine_of_guard {g : SegId} (ho : Origins s) (hg : g ∈ s.region.live)
    (hn : ¬ ((s.region.seg g).newlyAlloc = true ∧ (s.region.seg g).owner ≠ tx)) :
    s.mine tx g := by
  have horigin := ho.seg g hg
  cases ha : s.hist.allocBy g with
  | none => exact .inl ha
  | some u =>
    refine .inr (ha.trans ?_)
    by_contra hne
    refine hn ⟨by rw [horigin.new, ha]; rfl, fun he => hne ?_⟩
    rw [← horigin.owner u ha, he]

theorem append_expected {g : SegId} {k : ℕ} {target : List W} {w : W}
    (h : ∀ j v, target[j]? = some v → v = expected s tx g (k + j))
    (hw : w = expected s tx g (k + target.length)) :
    ∀ j v, (target ++ [w])[j]? = some v → v = expected s tx g (k + j) := by
  intro j v hv
  rcases Nat.lt_trichotomy j target.length with hlt | rfl | hgt
  · exact h j v (by rwa [List.getElem?_append_left hlt] at hv)
  · rw [List.getElem?_concat_length, Option.some.injEq] at hv
    rw [← hv, hw]
  · rw [List.getElem?_eq_none (by simp; omega)] at hv
    cases hv

theorem got_local (hi : Invariant s) (ho : Origins s) (h : Reads s) {q : Pc W}
    (hl : Local s tx (s.pc tx) q) {g : SegId} {k : ℕ} {target : List W}
    (hq : got q = some (g, k, target)) : g ∈ s.region.live ∧ s.mine tx g ∧
      ∀ j v, target[j]? = some v → v = expected s tx g (k + j) := by
  have ok := hi.ok tx
  have old := h.got tx
  have mark := h.marking tx
  have ro := h.roPath tx
  have value : ∀ g i, g ∈ s.region.live → s.mine tx g → (s.pc tx).failed = false →
      ¬ copying g i (s.pc tx) → (tx, g, i) ∈ s.hist.passedRead →
      (s.region.seg g).write i = expected s tx g i := fun _ _ => write_copy hi ho h
  generalize s.pc tx = p at hl ok old mark ro value
  cases hl with
  | readOnly hguard =>
    cases hq
    exact ⟨ok.1, mine_of_guard ho ok.1 hguard, nofun⟩
  | fetchRo =>
    cases hq
    obtain ⟨hg, hm, hold⟩ := old _ _ _ rfl
    refine ⟨hg, hm, append_expected hold (expected_unwritten ho hg hm ?_).symm⟩
    cases hw : s.hist.wrote tx g (k + _) with
    | none => rfl
    | some v => exact ((h.readOnly tx (ro rfl)).2 _ _ (h.made tx _ _ v hw)).elim
  | fetch hlt =>
    cases hq
    obtain ⟨hg, hm, hold⟩ := old _ _ _ rfl
    exact ⟨hg, hm, append_expected hold (value _ _ hg hm rfl id (ok.2.2 _ hlt))⟩
  | marked =>
    cases hq
    exact ⟨ok.1, mark _ rfl, nofun⟩
  | doneRo | done =>
    cases hq
    exact old _ _ _ rfl
  | @alreadyDirty x ret =>
    cases ret with
    | read =>
      cases hq
      exact old _ _ _ rfl
    | _ => cases hq
  | _ => cases hq

/-- Only the copy of a word changes what is recorded as written. -/
theorem wrote_micro (hm : Micro s tx t) :
    t.hist.wrote = s.hist.wrote ∨
      ∃ x k src j v, s.pc tx = .copyWrite x k src j ∧
        ∀ u g i, t.hist.wrote u g i =
          if u = tx ∧ g = x ∧ i = k + j then some v else s.hist.wrote u g i := by
  cases hm with
  | @copyWord x k src j v hp =>
    exact .inr ⟨x, k, src, j, v, hp, fun u g i => wrote_copyWord s tx u x g (k + j) i v _⟩
  | _ => exact .inl rfl

theorem wrote_others (hm : Micro s tx t) {u : Tx} (hu : u ≠ tx) :
    t.hist.wrote u = s.hist.wrote u := by
  rcases wrote_micro hm with he | ⟨x, k, src, j, v, -, he⟩
  · rw [he]
  · funext g i
    rw [he, if_neg fun h => hu h.1]

theorem made_micro (hi : Invariant s) (h : Reads s) (hm : Micro s tx t) (u : Tx) (g : SegId)
    (i : ℕ) (v : W) (hv : t.hist.wrote u g i = some v) : (u, g, i) ∈ t.hist.passedWrite := by
  refine hm.frame.passedWrite ?_
  rcases wrote_micro hm with he | ⟨x, k, src, j, w, hp, he⟩
  · exact h.made u g i v (he ▸ hv)
  · rw [he] at hv
    split_ifs at hv with hx
    · obtain ⟨rfl, rfl, rfl⟩ := hx
      have ok := hi.ok u
      rw [hp] at ok
      exact ok.2.2
    · exact h.made u g i v hv

theorem held_micro (hi : Invariant s) (h : Reads s) (hm : Micro s tx t) (u : Tx) (g : SegId)
    (i : ℕ) (v : W) (hf : (t.pc u).failed = false) (hv : t.hist.wrote u g i = some v) :
    (t.region.seg g).write i = v := by
  have hrun := hm.frame.failed_mono hf
  have live : ∀ {w}, s.hist.wrote u g i = some w → g ∈ s.region.live := fun hw =>
    (hi.passes.live u g i (.inr (h.made u g i _ hw))).1
  have owned : ∀ {w}, s.hist.wrote u g i = some w →
      ((s.region.seg g).control i).access = u := fun hw =>
    ((hi.word g (live hw) i).held hrun (h.made u g i _ hw)).2
  cases hm with
  | pcOnly | listMove => exact h.held u g i v hrun hv
  | passRead | passWrite | storeFree | storeOwner | winDirty | ownRollback =>
    exact (congrFun (update_proj Segment.write (by rfl) g) i).trans (h.held u g i v hrun hv)
  | allocate =>
    have hne : g ≠ s.region.nextSeg := Nat.ne_of_lt (hi.lists.fresh g (live hv))
    exact (congrArg (fun seg => seg.write i) (Region.setSeg_other _ _ _ hne)).trans
      (h.held u g i v hrun hv)
  | @copyWord x k src j w hp =>
    rw [wrote_copyWord] at hv
    split_ifs at hv with hx
    · obtain ⟨-, rfl, rfl⟩ := hx
      cases hv
      simp [State.copyWord, State.goto, State.setSeg]
    · by_cases hw : g = x ∧ i = k + j
      · -- the word belongs to the transaction that copies it
        obtain ⟨rfl, rfl⟩ := hw
        have ok := hi.ok tx
        rw [hp] at ok
        have hown := ((hi.word g ok.1 _).held (by simp [hp, Pc.failed]) ok.2.2).2
        exact (hx ⟨(owned hv).symm.trans hown, rfl, rfl⟩).elim
      · rw [(copyWord_oneWord s tx x (k + j) _ w).write g i hw]
        exact h.held u g i v hrun hv
  | @restoreWord c x base j hp hj hwr ha =>
    by_cases hw : g = x ∧ i = j
    · obtain ⟨rfl, rfl⟩ := hw
      have he : u = tx := (owned hv).symm.trans ha
      rw [he, hp] at hrun
      cases hrun
    · rw [(restoreWord_oneWord s tx x j _).write g i hw]
      exact h.held u g i v hrun hv

theorem copied_micro (h : Reads s) (hm : Micro s tx t) (u : Tx) (g : SegId) (i : ℕ)
    (hp : (u, g, i) ∈ t.hist.passedWrite) (hn : t.hist.wrote u g i = none)
    (hf : (t.pc u).failed = false) : copying g i (t.pc u) := by
  have hrun := hm.frame.failed_mono hf
  by_cases hu : u = tx
  · subst u
    cases hm with
    | pcOnly hl => exact (not_copying hl g i (h.copied tx g i hp hn hrun)).elim
    | passRead hpc | storeFree hpc | storeOwner hpc | winDirty hpc | ownRollback hpc
    | restoreWord hpc | allocate hpc | listMove hpc =>
      have := h.copied tx g i hp hn hrun
      rw [hpc] at this
      exact this.elim
    | @passWrite x k src j hpc =>
      rcases Finset.mem_insert.mp hp with he | hp
      · cases he
        simp [State.goto, copying]
      · have := h.copied tx g i hp hn hrun
        rw [hpc] at this
        exact this.elim
    | @copyWord x k src j v hpc =>
      rw [wrote_copyWord] at hn
      split_ifs at hn with hx
      have := h.copied tx g i hp hn hrun
      rw [hpc] at this
      exact (hx ⟨rfl, this.1.symm, this.2.symm⟩).elim
  · rw [hm.frame.elsewhere u hu]
    refine h.copied u g i ?_ (wrote_others hm hu ▸ hn) hrun
    cases hm with
    | passWrite =>
      rcases Finset.mem_insert.mp hp with he | hp
      · cases he
        exact (hu rfl).elim
      · exact hp
    | _ => exact hp

theorem readOnly_micro (h : Reads s) (hm : Micro s tx t) (u : Tx)
    (hro : isTxReadonly u = true) :
    writes (t.pc u) = false ∧ ∀ g i, (u, g, i) ∉ t.hist.passedWrite := by
  obtain ⟨hw, hp⟩ := h.readOnly u hro
  by_cases hu : u = tx
  · subst u
    cases hm with
    | pcOnly hl => exact ⟨by simpa [State.goto] using readOnly_local hl hw, hp⟩
    | passWrite hpc | copyWord hpc =>
      rw [hpc] at hw
      cases hw
    | _ =>
      refine ⟨?_, hp⟩
      simp [State.goto, writes]
  · refine ⟨by rwa [hm.frame.elsewhere u hu], fun g i hin => hp g i ?_⟩
    cases hm with
    | passWrite =>
      rcases Finset.mem_insert.mp hin with he | hin
      · cases he
        exact (hu rfl).elim
      · exact hin
    | _ => exact hin

theorem roPath_micro (h : Reads s) (hm : Micro s tx t) (u : Tx)
    (hc : copiesRo (t.pc u) = true) : isTxReadonly u = true := by
  by_cases hu : u = tx
  · subst u
    cases hm with
    | pcOnly hl =>
      simp only [State.goto, Function.update_self] at hc
      have old := h.roPath tx
      generalize s.pc tx = p at hl old
      cases hl with
      | readOnly _ hro => exact hro
      | fetchRo => exact old rfl
      | _ => cases hc
    | _ => simp [State.goto, copiesRo] at hc
  · exact h.roPath u (hm.frame.elsewhere u hu ▸ hc)

theorem marking_local (hi : Invariant s) (ho : Origins s) {q : Pc W}
    (hl : Local s tx (s.pc tx) q) {g : SegId} (hq : marking g q) : s.mine tx g := by
  have ok := hi.ok tx
  generalize s.pc tx = p at hl ok
  cases hl with
  | startRead hguard =>
    cases hq
    exact mine_of_guard ho ok.1 hguard
  | _ => exact hq.elim

theorem marking_micro (hi : Invariant s) (ho : Origins s) (h : Reads s) (hm : Micro s tx t)
    (u : Tx) (g : SegId) (hg : marking g (t.pc u)) : t.mine u g := by
  have mine : ∀ {v x}, x ∈ s.region.live → s.mine v x → t.mine v x := fun hx hv => by
    rw [State.mine, hm.frame.allocBy_live hi.lists hx]
    exact hv
  by_cases hu : u = tx
  · subst u
    have okt := hi.ok tx
    cases hm with
    | pcOnly hl =>
      simp only [State.goto, Function.update_self] at hg
      exact marking_local hi ho hl hg
    | passRead hp =>
      exact h.marking tx g (by simpa [hp, State.goto, marking] using hg)
    | _ => simp [State.goto, marking] at hg
  · rw [hm.frame.elsewhere u hu] at hg
    have live : g ∈ s.region.live := by
      have ok := hi.ok u
      cases hp : s.pc u <;> rw [hp] at hg ok <;> cases hg
      exact ok.1
    exact mine live (h.marking u g hg)

theorem got_micro (hi : Invariant s) (ho : Origins s) (h : Reads s) (hm : Micro s tx t)
    (u : Tx) (g : SegId) (k : ℕ) (target : List W) (hg : got (t.pc u) = some (g, k, target)) :
    g ∈ t.region.live ∧ t.mine u g ∧
      ∀ j v, target[j]? = some v → v = expected t u g (k + j) := by
  have hf := hm.frame
  -- what is expected changes only when the transaction itself copies a word
  have keep : t.hist.wrote u = s.hist.wrote u → (g ∈ s.region.live ∧ s.mine u g ∧
      ∀ j v, target[j]? = some v → v = expected s u g (k + j)) → g ∈ t.region.live ∧
      t.mine u g ∧ ∀ j v, target[j]? = some v → v = expected t u g (k + j) := by
    rintro hw ⟨hl, hmine, hval⟩
    have ha := hf.allocBy_live hi.lists hl
    refine ⟨hf.live hl, by rw [State.mine, ha]; exact hmine, fun j v hv => ?_⟩
    rw [hval j v hv, expected, expected, hw, ha, hf.epochStart]
  by_cases hu : u = tx
  · subst u
    cases hm with
    | pcOnly hl =>
      simp only [State.goto, Function.update_self] at hg
      exact keep rfl (got_local hi ho h hl hg)
    | @winDirty x ret hp | @listMove x ret hp =>
      simp only [State.goto, Function.update_self] at hg
      refine keep rfl (h.got tx g k target ?_)
      rw [hp]
      cases ret with
      | read => exact hg
      | _ => cases hg
    | _ => simp [State.goto, got] at hg
  · rw [hf.elsewhere u hu] at hg
    exact keep (wrote_others hm hu) (h.got u g k target hg)

theorem reads_micro (hi : Invariant s) (ho : Origins s) (h : Reads s) (hm : Micro s tx t) :
    Reads t where
  made := made_micro hi h hm
  held := held_micro hi h hm
  copied := copied_micro h hm
  readOnly := readOnly_micro h hm
  roPath := roPath_micro h hm
  marking := marking_micro hi ho h hm
  got := got_micro hi ho h hm

theorem reads_boundary {p q : Pc W} (h : Reads s) (hr : Relabel s t tx p q)
    (hb : Boundary Disciplined s tx p q) : Reads t := by
  obtain ⟨hcopy, hfail, hwrites, hpath, hmark, hgot⟩ := boundary_pcs hb
  have self : t.pc tx = q := by rw [hr.pc, Function.update_self]
  have other : ∀ u, u ≠ tx → t.pc u = s.pc u := fun u hu => by
    rw [hr.pc, Function.update_of_ne hu]
  have run : ∀ u, (t.pc u).failed = false → (s.pc u).failed = false := by
    intro u hu
    by_cases he : u = tx
    · subst u
      rw [hr.here]
      exact hfail (self ▸ hu)
    · exact other u he ▸ hu
  have mine : ∀ u g, t.mine u g ↔ s.mine u g := fun u g => by
    rw [State.mine, State.mine, hr.allocBy]
  have exp : ∀ u g i, expected t u g i = expected s u g i := fun u g i => by
    rw [expected, expected, hr.wrote, hr.allocBy, hr.epochStart]
  refine ⟨?_, ?_, ?_, ?_, ?_, ?_, ?_⟩
  · rw [hr.wrote, hr.passedWrite]
    exact h.made
  · intro u g i v hf hv
    rw [hr.seg]
    exact h.held u g i v (run u hf) (hr.wrote ▸ hv)
  · intro u g i hp hn hf
    have := h.copied u g i (hr.passedWrite ▸ hp) (hr.wrote ▸ hn) (run u hf)
    by_cases he : u = tx
    · subst u
      rw [hr.here] at this
      exact (hcopy g i this).elim
    · rwa [other u he]
  · intro u hro
    rw [hr.passedWrite]
    refine ⟨?_, (h.readOnly u hro).2⟩
    by_cases he : u = tx
    · subst u
      rw [self]
      exact hwrites hro
    · rw [other u he]
      exact (h.readOnly u hro).1
  · intro u hc
    by_cases he : u = tx
    · subst u
      rw [self, hpath] at hc
      cases hc
    · exact h.roPath u (other u he ▸ hc)
  · intro u g hg
    rw [mine]
    by_cases he : u = tx
    · subst u
      rw [self] at hg
      exact (hmark g hg).elim
    · exact h.marking u g (other u he ▸ hg)
  · intro u g k target hg
    by_cases he : u = tx
    · subst u
      rw [self, hgot] at hg
      cases hg
    · rw [hr.live, mine]
      simp only [exp]
      exact h.got u g k target (other u he ▸ hg)

theorem reads_close {p : Pc W} (hi : Invariant s) (hc : Closing s tx p) :
    Reads (leave s tx p) := by
  have pcs : ∀ u, writes ((leave s tx p).pc u) = false ∧ copiesRo ((leave s tx p).pc u) = false ∧
      (∀ g, ¬ marking g ((leave s tx p).pc u)) ∧ got ((leave s tx p).pc u) = none := by
    intro u
    rcases hc.idle hi u with h | h
    · rw [h]
      exact ⟨rfl, rfl, fun _ => id, rfl⟩
    · cases hq : (leave s tx p).pc u with
      | outside | waiting | committed | aborted => exact ⟨rfl, rfl, fun _ => id, rfl⟩
      | _ =>
        rw [hq] at h
        cases h
  have none : (leave s tx p).hist.wrote = fun _ _ _ => none := by rw [hc.hist]; rfl
  have empty : (leave s tx p).hist.passedWrite = ∅ := by rw [hc.hist]; rfl
  refine ⟨?_, ?_, ?_, ?_, ?_, ?_, ?_⟩
  · rw [none]
    exact nofun
  · rw [none]
    exact nofun
  · rw [empty]
    exact nofun
  · intro u _
    rw [empty]
    exact ⟨(pcs u).1, nofun⟩
  · intro u hu
    rw [(pcs u).2.1] at hu
    cases hu
  · exact fun u g hu => ((pcs u).2.2.1 g hu).elim
  · intro u g k target hu
    rw [(pcs u).2.2.2] at hu
    cases hu

theorem reachable_reads {size : ℕ} (h : Reachable (system W size) Disciplined s) : Reads s := by
  refine disciplined_with ?_ (fun _ _ _ hi ho hj hm => reads_micro hi ho hj hm)
    (fun _ _ _ _ _ _ hj hr hb => reads_boundary hj hr hb)
    (fun _ _ _ hi _ hc => reads_close hi hc) h
  exact ⟨nofun, nofun, nofun, fun _ _ => ⟨rfl, nofun⟩, nofun, nofun, nofun⟩

/-- What a `tm_read` is about to return, whatever becomes of its transaction: all the words it
was asked for, each with the last own write or the value that the epoch began with. -/
theorem opacity_of_reads {size : ℕ} {s : PendingCalls.State W}
    (h : Reachable (PendingCalls.system W size) (fun s e => Disciplined s.lock e) s) {g : SegId}
    {k n : ℕ} {ret : Return W} (hc : s.pending tx = some (.read g k n))
    (hr : s.lock.pc tx = .returning ret) :
    ∃ target, ret = .read g k target ∧ target.length = n ∧
      (∀ j < n, target[j]? = some ((s.lock.hist.wrote tx g (k + j)).getD
        (if s.lock.hist.allocBy g = some tx then 0 else s.lock.hist.epochStart g (k + j)))) ∧
      (s.lock.hist.allocBy g = none ∨ s.lock.hist.allocBy g = some tx) := by
  have hduring := PendingCalls.reachable_during (fun _ _ hd => hd.1) h tx
  rw [hr] at hduring
  obtain ⟨c, hpending, hanswer⟩ := hduring.answers
  obtain rfl : Call.read g k n = c := Option.some.inj (hc.symm.trans hpending)
  cases ret with
  | read g' k' target =>
    obtain ⟨rfl, rfl, hlen⟩ := hanswer
    obtain ⟨-, hm, hv⟩ := (reachable_reads (PendingCalls.lock_reachable h)).got tx g' k' target
      (by rw [hr]; rfl)
    refine ⟨target, rfl, hlen, fun j hj => ?_, hm⟩
    have hget := List.getElem?_eq_getElem (hlen ▸ hj : j < target.length)
    rw [hget]
    exact congrArg some (hv j _ hget)
  | wrote | freed | allocated | nomem => exact hanswer.elim

/-- Transaction 3 writes word 0. In the next epoch 1 reads words 0 and 1 after writing word 1,
2 fails on word 1 after writing word 0, and the reader 4 reads both words meanwhile. -/
def readBack : List (Event ℕ) :=
  [.begin 3, .begin 1, .begin 2, .begin (readOnlyTx ||| 4), .call 3 (.write 0 0 [9])] ++
    List.replicate 7 (.advance 3) ++ [.call 3 .finish, .advance 3, .call 1 (.write 0 1 [7])] ++
    List.replicate 7 (.advance 1) ++ [.call 2 (.write 0 0 [5, 6])] ++
    List.replicate 3 (.advance 2) ++ [.call (readOnlyTx ||| 4) (.read 0 0 2)] ++
    List.replicate 4 (.advance (readOnlyTx ||| 4)) ++ List.replicate 8 (.advance 2) ++
    [.call 1 (.read 0 0 2)] ++ List.replicate 8 (.advance 1)
def readingBack : PendingCalls.State ℕ :=
  (run (PendingCalls.system ℕ 2) (PendingCalls.initial 2) readBack).getD (PendingCalls.initial 2)

theorem readingBack_reachable :
    Reachable (PendingCalls.system ℕ 2) (fun s e => Disciplined s.lock e) readingBack :=
  Reachable.run (.init rfl) readBack (by decide) rfl

/-- The one that writes reads its own write, the read-only one what the epoch began with. -/
theorem opacity_of_reads_back :
    readingBack.lock.pc 1 = .returning (.read 0 0 [9, 7]) ∧
    readingBack.lock.pc (readOnlyTx ||| 4) = .returning (.read 0 0 [9, 0]) ∧
    (∃ target, Return.read 0 0 [9, 7] = .read 0 0 target ∧ target.length = 2 ∧ target[1]? =
      some ((readingBack.lock.hist.wrote 1 0 1).getD (readingBack.lock.hist.epochStart 0 1))) ∧
    ∃ target, Return.read 0 0 [9, 0] = .read 0 0 target ∧ target.length = 2 ∧ target[1]? =
      some ((readingBack.lock.hist.wrote (readOnlyTx ||| 4) 0 1).getD
        (readingBack.lock.hist.epochStart 0 1)) := by
  have hw : readingBack.lock.pc 1 = .returning (.read 0 0 [9, 7]) := rfl
  have hro : readingBack.lock.pc (readOnlyTx ||| 4) = .returning (.read 0 0 [9, 0]) := rfl
  obtain ⟨x, hx, hlen, hword, -⟩ := opacity_of_reads readingBack_reachable rfl hw
  obtain ⟨y, hy, hlen', hword', -⟩ := opacity_of_reads readingBack_reachable rfl hro
  exact ⟨hw, hro, ⟨x, hx, hlen, hword 1 (by decide)⟩, y, hy, hlen', hword' 1 (by decide)⟩

end OpacityOfReads
