import TransactionalMemory.CallWords

/-! # The accesses of an epoch at lock granularity

Access by access the log of an epoch is kept in step with the marks and the flags: what a
running transaction logged it passed a guard for, and what it stored is what its views hold. -/
namespace WordLog

open TransitionSystem
open BatcherState
open ControlWord
open RegionState
open LockLevel
open CallLog
open CommutingSteps
open PlainMemory
open SerialViews
open SerialRuns
open OpacityOfReads (Reads copiesRo)
open AnsweredCalls (Known Standing note)
open CallWords

variable {W : Type*}

/-- `dead` are the segments that an earlier epoch freed. -/
def Fits (s : State W) (dead : List SegId) (tx : Tx) : Pc W → Prop
  | .guardRead g _ _ | .guardWrite g _ _ => g ∉ dead
  | .copyRo g _ n target => g ∉ dead ∧ target.length ≤ n
  | .markRead g _ _ _ => g ∉ dead ∧ isTxReadonly tx = false
  | .copyRead g _ n target => g ∉ dead ∧ isTxReadonly tx = false ∧ target.length ≤ n
  | .markWrite g _ _ _ | .copyWrite g _ _ _ => g ∉ dead ∧ s.mine tx g
  | .allocate _ _ => isTxReadonly tx = false
  | .storeFree g => g ∉ dead ∧ isTxReadonly tx = false
  | _ => True

/-- The log against the history of the epoch. -/
structure Filed (s : State W) (words : Log W) : Prop where
  alloc : ∀ g, allocator words g = s.hist.allocBy g
  free : ∀ u g, (u, .free g) ∈ words ↔ (u, g) ∈ s.hist.freeBy
  member : ∀ u e, (u, e) ∈ words → u ∈ s.hist.members
  passed : ∀ u e g i, (u, e) ∈ words → isTxReadonly u = false → e.accesses g i = true →
    Passed s u g i
  stored : ∀ u e g i, (u, e) ∈ words → e.stores g i = true → (u, g, i) ∈ s.hist.passedWrite
  claimed : ∀ u e g, (u, e) ∈ words → e.claims = some g → g ∈ s.region.live
  abort : ∀ u, (u, .abort) ∈ words ↔ u ∈ s.hist.members ∧ (s.pc u).failed = true
  commit : ∀ u, (u, .commit) ∈ words ↔ u ∈ s.hist.members ∧ s.pc u = .committed

/-- What a step of `tx` does to the history, for the access `e` that it makes. -/
structure Deed (s t : State W) (tx : Tx) (e : Option (Entry W)) : Prop where
  alloc : ∀ g size, e = some (.alloc g size) →
    t.hist.allocBy = Function.update s.hist.allocBy g (some tx)
  old : (∀ g size, e ≠ some (.alloc g size)) → t.hist.allocBy = s.hist.allocBy
  fresh : ∀ g size, e = some (.alloc g size) → g ∉ s.region.live
  free : ∀ u g, (u, g) ∈ t.hist.freeBy ↔ (u, g) ∈ s.hist.freeBy ∨ (u = tx ∧ e = some (.free g))
  accesses : ∀ x g i, e = some x → isTxReadonly tx = false → x.accesses g i = true →
    Passed t tx g i
  stores : ∀ x g i, e = some x → x.stores g i = true → (tx, g, i) ∈ t.hist.passedWrite
  claims : ∀ x g, e = some x → x.claims = some g → g ∈ t.region.live
  failed : (t.pc tx).failed = true ↔ (s.pc tx).failed = true ∨ e = some .abort
  commit : e ≠ some .commit

namespace Deed

variable {s t : State W} {tx : Tx}

theorem quiet (ha : t.hist.allocBy = s.hist.allocBy) (hf : t.hist.freeBy = s.hist.freeBy)
    (hp : (t.pc tx).failed = (s.pc tx).failed) : Deed s t tx none where
  alloc := nofun
  old _ := ha
  fresh := nofun
  free u g := by simp [hf]
  accesses := nofun
  stores := nofun
  claims := nofun
  failed := by simp [hp]
  commit := nofun

/-- An access that claims nothing. -/
theorem access {e : Entry W} (hc : e.claims = none) (hends : e ≠ .abort ∧ e ≠ .commit)
    (ha : t.hist.allocBy = s.hist.allocBy) (hf : t.hist.freeBy = s.hist.freeBy)
    (hp : (t.pc tx).failed = (s.pc tx).failed)
    (accesses : ∀ g i, isTxReadonly tx = false → e.accesses g i = true → Passed t tx g i)
    (stores : ∀ g i, e.stores g i = true → (tx, g, i) ∈ t.hist.passedWrite) :
    Deed s t tx (some e) := by
  have hno : ∀ g, some e ≠ some (.free g) := by
    rintro g he
    cases he
    cases hc
  refine ⟨?_, fun _ => ha, ?_, fun u g => ?_, ?_, ?_, ?_, ?_, by simpa using hends.2⟩
  · rintro g size he
    cases he
    cases hc
  · rintro g size he
    cases he
    cases hc
  · rw [hf, or_iff_left]
    exact fun he => hno g he.2
  · rintro x g i he hro hx
    cases he
    exact accesses g i hro hx
  · rintro x g i he hx
    cases he
    exact stores g i hx
  · rintro x g he hx
    cases he
    rw [hc] at hx
    cases hx
  · rw [hp, or_iff_left]
    simpa using hends.1

theorem aborted (ha : t.hist.allocBy = s.hist.allocBy) (hf : t.hist.freeBy = s.hist.freeBy)
    (hp : (t.pc tx).failed = true) : Deed s t tx (some .abort) where
  alloc := by simp
  old _ := ha
  fresh := by simp
  free u g := by simp [hf]
  accesses x g i he _ hx := by
    cases he
    cases hx
  stores x g i he hx := by
    cases he
    cases hx
  claims x g he hx := by
    cases he
    cases hx
  failed := by simp [hp]
  commit := by simp

end Deed

theorem accesses_read {g x : SegId} {k i : ℕ} {target : List W}
    (h : (Entry.read g k target).accesses x i = true) :
    x = g ∧ ∃ j < target.length, i = k + j := by
  simp only [Entry.accesses, Bool.and_eq_true, decide_eq_true_eq, Calls.inRange_iff] at h
  exact ⟨h.1.symm, i - k, by omega, by omega⟩

theorem stores_write {g x : SegId} {k i : ℕ} {src : List W}
    (h : (Entry.write g k src).stores x i = true) : x = g ∧ ∃ j < src.length, i = k + j := by
  simp only [Entry.stores, Bool.and_eq_true, decide_eq_true_eq, Calls.inRange_iff] at h
  exact ⟨h.1.symm, i - k, by omega, by omega⟩

section deeds

variable {s t : State W} {tx : Tx} {dead : List SegId}

theorem deed_local (hi : Invariant s) (hfit : Fits s dead tx (s.pc tx))
    (hreads : copiesRo (s.pc tx) = true → isTxReadonly tx = true) {q : Pc W}
    (hl : Local s tx (s.pc tx) q) : Deed s (s.goto tx q) tx (noted (s.pc tx) q) := by
  have ok := hi.ok tx
  have hgo : ((s.goto tx q).pc tx).failed = q.failed := by simp [State.goto]
  have quiet : q.failed = (s.pc tx).failed → noted (s.pc tx) q = none →
      Deed s (s.goto tx q) tx (noted (s.pc tx) q) := by
    intro hq hn
    rw [hn]
    exact .quiet rfl rfl (hgo.trans hq)
  generalize hp : s.pc tx = p at *
  cases hl with
  | conflictRead | refusedRead | conflictWrite | tooFar | refusedWrite =>
    exact .aborted rfl rfl hgo
  | doneRo =>
    refine .access rfl (by simp) rfl rfl ?_ (fun g i hro => ?_) (by simp [Entry.stores])
    · rw [hgo, hp]
      rfl
    · rw [hreads rfl] at hro
      cases hro
  | done =>
    refine .access rfl (by simp) rfl rfl ?_ (fun x i _ hx => ?_) (by simp [Entry.stores])
    · rw [hgo, hp]
      rfl
    · obtain ⟨rfl, j, hj, rfl⟩ := accesses_read hx
      have hshort := hfit.2.2
      exact .inl (ok.2.2 j (by omega))
  | @stored g k src i hle =>
    cases src with
    | nil =>
      refine .access rfl (by simp) rfl rfl ?_ (fun x i _ hx => ?_) fun x i hx => ?_
      · rw [hgo, hp]
        rfl
      · obtain ⟨-, j, hj, -⟩ := stores_write hx
        cases hj
      · obtain ⟨-, j, hj, -⟩ := stores_write hx
        cases hj
    | cons v src => exact quiet rfl rfl
  | _ => exact quiet rfl rfl

theorem deed_micro [Zero W] (hi : Invariant s) (hr : Reads s) (hfit : Fits s dead tx (s.pc tx))
    (hm : Micro s tx t) : Deed s t tx (noted (s.pc tx) (t.pc tx)) := by
  cases hm with
  | pcOnly hl =>
    simpa [State.goto] using deed_local hi hfit (hr.roPath tx) hl
  | passRead hp | passWrite hp | winDirty hp | listMove hp | storeOwner hp | ownRollback hp
  | restoreWord hp =>
    simp only [hp, State.goto, Function.update_self]
    exact .quiet rfl rfl (by simp [hp, Pc.failed])
  | @copyWord g k src i v hp hv =>
    have ok := hi.ok tx
    rw [hp] at ok
    have hn : noted (.copyWrite g k src i) (.markWrite g k src (i + 1)) =
        some (.write g (k + i) [v]) := by simp [noted, hv]
    simp only [hp, State.goto, Function.update_self, hn]
    have hwrote : ∀ x j, (Entry.write g (k + i) [v]).stores x j = true →
        (tx, x, j) ∈ s.hist.passedWrite := by
      intro x j hx
      obtain ⟨rfl, l, hl, rfl⟩ := stores_write hx
      have hl0 : l = 0 := by simpa using hl
      subst l
      exact ok.2.2
    refine .access rfl (by simp) rfl rfl ?_ (fun x j _ hx => .inr (hwrote x j hx)) hwrote
    simp [hp, Pc.failed]
  | @allocate size hp =>
    simp only [hp, State.goto, Function.update_self]
    refine ⟨?_, fun h => (h _ _ rfl).elim, ?_, ?_, ?_, ?_, ?_, ?_, by simp [noted]⟩
    · rintro x n he
      cases he
      rfl
    · rintro x n he
      cases he
      exact hi.lists.nextSeg_free
    · simp [State.allocate, noted]
    · rintro x g i he - hx
      cases he
      cases hx
    · rintro x g i he hx
      cases he
      cases hx
    · rintro x g he hx
      cases he
      cases hx
      exact Finset.mem_insert_self _ _
    · simp [hp, Pc.failed, noted]
  | @storeFree g hp =>
    have hg : g ∈ s.region.live := by
      have ok := hi.ok tx
      rw [hp] at ok
      exact ok
    simp only [hp, State.goto, Function.update_self]
    refine ⟨by simp [noted], fun _ => rfl, by simp [noted], fun u x => ?_, ?_, ?_, ?_, ?_,
      by simp [noted]⟩
    · simp only [State.storeFree, noted, Finset.mem_insert, Prod.mk.injEq, Option.some.injEq,
        Entry.free.injEq]
      tauto
    · rintro x g i he - hx
      cases he
      cases hx
    · rintro x g i he hx
      cases he
      cases hx
    · rintro x y he hx
      cases he
      cases hx
      exact hg
    · simp [hp, Pc.failed, noted]

end deeds

section filed

variable {s t : State W} {tx : Tx} {words : Log W}

theorem mem_note {x : Tx × Entry W} {e : Option (Entry W)} :
    x ∈ words ++ note tx e ↔ x ∈ words ∨ (x.1 = tx ∧ e = some x.2) := by
  obtain ⟨u, f⟩ := x
  cases e with
  | none => simp
  | some e =>
    simp only [note_some, mem_snoc, Prod.mk.injEq, Option.some.injEq]
    exact or_congr_right (and_congr_right fun _ => eq_comm)

theorem Filed.micro [Zero W] (h : Filed s words) (hi : Invariant s) (hm : Micro s tx t)
    {e : Option (Entry W)} (hd : Deed s t tx e) : Filed t (words ++ note tx e) := by
  have hf := hm.frame
  have hrun : tx ∈ s.hist.members :=
    hi.ledger.members ((hi.ledger.running tx).mpr hf.runs.1)
  have hmem : t.hist.members = s.hist.members := hf.members
  refine ⟨fun g => ?_, fun u g => ?_, fun u f hin => ?_, fun u f g i hin hro ha => ?_,
    fun u f g i hin hs => ?_, fun u f g hin hc => ?_, fun u => ?_, fun u => ?_⟩
  · by_cases he : ∃ x size, e = some (.alloc x size)
    · obtain ⟨x, size, rfl⟩ := he
      rw [hd.alloc x size rfl, note_some]
      by_cases hx : g = x
      · subst g
        have hnone : allocator words x = none := by
          cases ha : allocator words x with
          | none => rfl
          | some u =>
            obtain ⟨n, hin⟩ := mem_of_allocator ha
            exact (hd.fresh x size rfl (h.claimed u _ x hin rfl)).elim
        rw [allocator_alloc size hnone, Function.update_self]
      · rw [allocator_snoc, Function.update_of_ne hx, h.alloc]
        intro n hn
        cases hn
        exact hx rfl
    · have hno : ∀ x size, e ≠ some (.alloc x size) := fun x size hx => he ⟨x, size, hx⟩
      rw [hd.old hno, ← h.alloc]
      cases e with
      | none => simp
      | some e => exact allocator_snoc fun n hn => hno g n (by rw [hn])
  · rw [mem_note, h.free, hd.free]
  · rw [hmem]
    rcases mem_note.mp hin with hin | ⟨hu, -⟩
    · exact h.member u f hin
    · exact (show u = tx from hu) ▸ hrun
  · rcases mem_note.mp hin with hin | ⟨hu, he⟩
    · exact (h.passed u f g i hin hro ha).imp (hf.passedRead ·) (hf.passedWrite ·)
    · have hu' : u = tx := hu
      subst u
      exact hd.accesses f g i he hro ha
  · rcases mem_note.mp hin with hin | ⟨hu, he⟩
    · exact hf.passedWrite (h.stored u f g i hin hs)
    · have hu' : u = tx := hu
      subst u
      exact hd.stores f g i he hs
  · rcases mem_note.mp hin with hin | ⟨-, he⟩
    · exact hf.live (h.claimed u f g hin hc)
    · exact hd.claims f g he hc
  · rw [mem_note, h.abort, hmem]
    by_cases hu : u = tx
    · subst u
      rw [hd.failed]
      simp [hrun]
    · rw [hf.elsewhere u hu]
      simp [hu]
  · rw [mem_note, h.commit, hmem]
    have hno : ¬ (u = tx ∧ e = some .commit) := fun hx => hd.commit hx.2
    rw [or_iff_left hno]
    by_cases hu : u = tx
    · subst u
      have left : ∀ {p : Pc W}, p.active = true → p ≠ .committed := by
        rintro p hp rfl
        cases hp
      simp [left hf.runs.1, left hf.runs.2]
    · rw [hf.elsewhere u hu]

end filed

section fits

variable {s t : State W} {tx u : Tx} {dead : List SegId}

theorem Fits.mono {p : Pc W} (h : Fits s dead u p) (hf : Frame s t tx) (hi : Invariant s)
    (ok : PcOk s u p) : Fits t dead u p := by
  cases p with
  | markWrite g | copyWrite g =>
    refine ⟨h.1, ?_⟩
    rw [State.mine, hf.allocBy_live hi.lists ok.1]
    exact h.2
  | _ => exact h

theorem fits_local [Zero W] (hi : Invariant s) (ho : Origins s) (h : Fits s dead tx (s.pc tx))
    {q : Pc W} (hl : Local s tx (s.pc tx) q) : Fits s dead tx q := by
  have ok := hi.ok tx
  generalize s.pc tx = p at *
  cases hl with
  | readOnly => exact ⟨h, Nat.zero_le _⟩
  | startRead _ hro => exact ⟨h, hro⟩
  | fetchRo hlt =>
    refine ⟨h.1, ?_⟩
    rw [List.length_append, List.length_singleton]
    omega
  | marked => exact ⟨h.1, h.2, Nat.zero_le _⟩
  | fetch hlt =>
    refine ⟨h.1, h.2.1, ?_⟩
    rw [List.length_append, List.length_singleton]
    omega
  | startWrite hguard => exact ⟨h, OpacityOfReads.mine_of_guard ho ok.1 hguard⟩
  | _ => trivial

theorem fits_micro [Zero W] (hi : Invariant s) (ho : Origins s) (hm : Micro s tx t)
    (h : ∀ u, Fits s dead u (s.pc u)) (u : Tx) : Fits t dead u (t.pc u) := by
  have hf := hm.frame
  by_cases hu : u = tx
  · subst u
    have here := h tx
    cases hm with
    | pcOnly hl =>
      simp only [State.goto, Function.update_self]
      exact fits_local hi ho here hl
    | passRead hp | passWrite hp | copyWord hp =>
      rw [hp] at here
      simp only [State.goto, Function.update_self]
      exact here
    | _ => simp [State.goto, Fits]
  · rw [hf.elsewhere u hu]
    exact (h u).mono hf hi (hi.ok u)

end fits

section views

variable [DecidableEq W] {s t : State W} {tx : Tx} {words : Log W} {r r' : Region W}
variable {dead : List SegId} {U : Finset Tx} {g : SegId} {seg : Segment W}

theorem view_setSeg (hz : seg.size = (r.seg g).size)
    (hv : visible U seg = visible U (r.seg g)) :
    view words (r.setSeg g seg) dead U = view words r dead U := by
  refine view_congr rfl (fun _ _ => rfl) (fun _ _ _ => Iff.rfl) fun x _ => ?_
  by_cases hx : x = g
  · subst x
    rw [Region.setSeg_same]
    exact ⟨hz, hv⟩
  · rw [Region.setSeg_other _ _ _ hx]
    exact ⟨rfl, rfl⟩

omit [DecidableEq W] in
theorem visible_passRead (j : ℕ) : visible U { seg with
    control := Function.update seg.control j (canReadWord tx (seg.control j)).2 } =
      visible U seg := by
  funext i
  by_cases hi : i = j
  · subst i
    cases hw : (seg.control j).written with
    | true => simp [visible, canReadWord_kept hw]
    | false => simp [visible, hw]
  · simp [visible, hi]

omit [DecidableEq W] in
theorem visible_passWrite {j : ℕ} (ok : (canWriteWord tx (seg.control j)).1 = true)
    (he : (seg.control j).written = false → seg.write j = seg.read j) : visible U { seg with
      control := Function.update seg.control j (canWriteWord tx (seg.control j)).2 } =
        visible U seg := by
  funext i
  by_cases hi : i = j
  · subst i
    have hafter := canWriteWord_taken ok
    cases hw : (seg.control j).written with
    | true =>
      have ha := canWriteWord_pass ok hw
      simp [visible, hafter, hw, ha]
    | false => simp [visible, hafter, hw, he hw]
  · simp [visible, hi]

omit [DecidableEq W] in
theorem visible_restore {j : ℕ} (hU : tx ∉ U)
    (ha : (seg.control j).access = tx) (hw : (seg.control j).written = true) :
    visible U { seg with
      write := Function.update seg.write j (seg.read j)
      control := Function.update seg.control j (rollbackWord tx (seg.control j)).2 } =
        visible U seg := by
  funext i
  by_cases hi : i = j
  · subst i
    simp [visible, rollbackWord, hw, ha, hU]
  · simp [visible, hi]

omit [DecidableEq W] in
theorem visible_copy {j : ℕ} (v : W) (ha : (seg.control j).access = tx)
    (hw : (seg.control j).written = true) (i : ℕ) :
    visible U { seg with write := Function.update seg.write j v } i =
      if tx ∈ U ∧ i = j then v else visible U seg i := by
  by_cases hi : i = j
  · subst i
    by_cases hU : tx ∈ U <;> simp [visible, ha, hw, hU]
  · simp [visible, hi]

theorem Serial.congr [Zero W] (h : Serial words r dead)
    (hv : ∀ U, (∀ u ∈ U, Writer words u) → view words r' dead U = view words r dead U) :
    Serial words r' dead where
  readonly := h.readonly
  writers U u hU hu hnot := by
    have hins : ∀ v ∈ insert u U, Writer words v := by
      rw [Finset.forall_mem_insert]
      exact ⟨hu, hU⟩
    rw [hv U hU, hv _ hins]
    exact h.writers U u hU hu hnot
  readers u hro hnot := by
    rw [hv ∅ (by simp)]
    exact h.readers u hro hnot

theorem Moves.congr [Zero W] {e : Entry W} {r₁ : Region W} (h : Moves words r dead tx e r₁)
    (hv : ∀ U, view (words ++ [(tx, e)]) r' dead U = view (words ++ [(tx, e)]) r₁ dead U) :
    Moves words r dead tx e r' where
  without U hU := (hv U).trans (h.without U hU)
  within U hU := by
    rw [hv U]
    exact h.within U hU

/-- The copy of one word by the transaction that holds it. -/
theorem copy_moves [Zero W] {j : ℕ} (v : W) (hg : g ∈ r.live) (hd : g ∉ dead)
    (own : ∀ u, allocator words g = some u → u = tx) (hj : j < (r.seg g).size)
    (ha : ((r.seg g).control j).access = tx) (hw : ((r.seg g).control j).written = true) :
    Moves words r dead tx (.write g j [v])
      (r.setSeg g { r.seg g with write := Function.update (r.seg g).write j v }) := by
  have hlog : ∀ x, allocator (words ++ [(tx, .write g j [v])]) x = allocator words x := fun x =>
    allocator_snoc (by simp)
  have hfree : ∀ x u, (u, .free x) ∈ words ++ [(tx, .write g j [v])] ↔ (u, .free x) ∈ words := by
    simp
  have hlive : g ∈ (r.setSeg g { r.seg g with
      write := Function.update (r.seg g).write j v }).live := hg
  have hcopy := fun U => @visible_copy W tx U (r.seg g) j v ha hw
  refine ⟨fun U hU => ?_, fun U hU => ?_⟩
  · rw [view_congr rfl (fun x _ => hlog x) (fun x u _ => hfree x u) fun x _ => ⟨rfl, rfl⟩]
    refine view_setSeg rfl (funext fun i => ?_)
    rw [hcopy, if_neg fun h => hU h.1]
  · have mem : ∀ u, allocator words g = some u → u ∈ U := fun u hu => own u hu ▸ hU
    refine modify_eq_some.mpr ⟨_, _, view_some hg hd mem, if_pos hj, ?_⟩
    funext x
    by_cases hx : x = g
    · subst x
      rw [Function.update_self, view_some hlive hd fun u hu => mem u (hlog g ▸ hu),
        Region.setSeg_same]
      have hvis : visible U { r.seg g with write := Function.update (r.seg g).write j v } =
          fun i => if Calls.inRange j 1 i then ([v][i - j]?).getD (visible U (r.seg g) i)
            else visible U (r.seg g) i := by
        funext i
        rw [hcopy]
        by_cases hi : i = j
        · subst i
          simp [hU, Calls.inRange_iff]
        · rw [if_neg fun h => hi h.2, if_neg]
          rw [Calls.inRange_iff]
          omega
      rw [hvis]
      simp [Block.store]
    · rw [Function.update_of_ne hx]
      simp [view, hlog, Region.setSeg, hx]

/-- A read that returns what its transaction sees. -/
theorem read_stays [Zero W] {k : ℕ} {target : List W} (hg : g ∈ r.live) (hd : g ∉ dead)
    (mem : ∀ u, allocator words g = some u → u ∈ U)
    (hk : k + target.length ≤ (r.seg g).size)
    (hword : ∀ j v, target[j]? = some v → visible U (r.seg g) (k + j) = v) :
    exec (view words r dead U) (.read g k target) = some (view words r dead U) := by
  refine modify_idle (view_some hg hd mem) (if_pos ⟨hk, ?_⟩)
  apply List.ext_getElem
  · simp [Calls.copyOut]
  · intro j hj hj'
    simpa [Calls.copyOut] using hword j _ (List.getElem?_eq_getElem hj')

end views

section apart

variable {s : State W} {words : Log W} {u v : Tx} {e e' : Entry W}

/-- A transaction that has not aborted is running or has committed. -/
theorem Filed.standing (h : Filed s words) (hu : Writer words u) (hin : (u, e) ∈ words) :
    (s.pc u).failed = false := by
  by_contra hf
  exact hu.2 ((h.abort u).mpr ⟨h.member u e hin, by simpa using hf⟩)

theorem Filed.meet (h : Filed s words) (hi : Invariant s) (hne : u ≠ v) (hu : Writer words u)
    (hv : Writer words v) (he : (u, e) ∈ words) (he' : (v, e') ∈ words) (g : SegId) (i : ℕ)
    (hs : e.stores g i = true) : e'.accesses g i = false := by
  by_contra ha
  have hacc : e'.accesses g i = true := by simpa using ha
  have hwrote := h.stored u e g i he hs
  have hpass := h.passed v e' g i he' hv.1 hacc
  have hg := (hi.passes.live u g i (.inr hwrote)).1
  exact hne ((hi.word g hg i).exclusive.writer_alone ⟨h.standing hu he, hwrote⟩
    ⟨h.standing hv he', hpass⟩).symm

/-- An access that its transaction passed the guards for is apart from those of the others. -/
theorem Filed.apart {tx : Tx} (h : Filed s (words ++ [(tx, e)])) (hi : Invariant s)
    (hx : Writer words tx) (he : e ≠ .abort)
    (hfresh : ∀ g size, e = .alloc g size → ∀ u e', (u, e') ∈ words → e'.claims ≠ some g)
    (hu : u ≠ tx) (hw : Writer words u) (hin : (u, e') ∈ words) : Apart e e' where
  stores := h.meet hi hu.symm ((writer_snoc he).mpr hx) ((writer_snoc he).mpr hw) (by simp)
    (by simp [hin])
  stored := h.meet hi hu ((writer_snoc he).mpr hw) ((writer_snoc he).mpr hx) (by simp [hin])
    (by simp)
  fresh g size hx := hfresh g size hx u e' hin

end apart

section serial

variable [DecidableEq W] [Zero W] {s t : State W} {tx : Tx} {words : Log W}
variable {dead : List SegId}

omit [DecidableEq W] in
/-- What a read of the write copies has copied is what its transaction sees. -/
theorem visible_copied (hk : Known s) {g : SegId} {k n : ℕ} {target : List W}
    (hp : s.pc tx = .copyRead g k n target) {U : Finset Tx} (hU : tx ∈ U)
    (hshort : target.length ≤ n) (j : ℕ) (v : W) (hv : target[j]? = some v) :
    visible U (s.region.seg g) (k + j) = v := by
  obtain ⟨hg, hmine, hgot⟩ := hk.reads.got tx g k target (by rw [hp]; rfl)
  have hlt : j < target.length := (List.getElem?_eq_some_iff.mp hv).1
  have ok := hk.invariant.ok tx
  rw [hp] at ok
  have hpass := ok.2.2 j (by omega)
  have hrun : (s.pc tx).failed = false := by rw [hp]; rfl
  have hcopy := OpacityOfReads.write_copy hk.invariant hk.origins hk.reads hg hmine hrun
    (by rw [hp]; exact id) hpass
  rw [hgot j v hv, ← hcopy]
  have word := hk.invariant.word g hg (k + j)
  cases hw : ((s.region.seg g).control (k + j)).written with
  | true =>
    have ha := word.exclusive.owner_of_written hw (t := tx) ⟨hrun, .inl hpass⟩
    simp [visible, hw, ← ha, hU]
  | false => simp [visible, hw, (word.equal hw).1]

omit [DecidableEq W] in
/-- What a read-only transaction has copied is in the read copies. -/
theorem visible_copiedRo (hk : Known s) {g : SegId} {k n : ℕ} {target : List W}
    (hp : s.pc tx = .copyRo g k n target) (j : ℕ) (v : W) (hv : target[j]? = some v) :
    (s.region.seg g).read (k + j) = v := by
  obtain ⟨hg, hmine, hgot⟩ := hk.reads.got tx g k target (by rw [hp]; rfl)
  have hro := hk.reads.roPath tx (by rw [hp]; rfl)
  rw [hgot j v hv, OpacityOfReads.expected_unwritten hk.origins hg hmine]
  cases hw : s.hist.wrote tx g (k + j) with
  | none => rfl
  | some w => exact ((hk.reads.readOnly tx hro).2 _ _ (hk.reads.made tx _ _ w hw)).elim

omit [DecidableEq W] [Zero W] in
theorem own_of_mine (hfiled : Filed s words) {g : SegId} (hm : s.mine tx g) (u : Tx)
    (hu : allocator words g = some u) : u = tx := by
  rw [hfiled.alloc] at hu
  rcases hm with hm | hm <;> rw [hm] at hu <;> cases hu
  rfl

theorem serial_local (hk : Known s) (hfit : Fits s dead tx (s.pc tx)) (hfiled : Filed s words)
    (h : Serial words s.region dead) {q : Pc W} (hl : Local s tx (s.pc tx) q)
    (ht : Filed (s.goto tx q) (words ++ note tx (noted (s.pc tx) q)))
    (hit : Invariant (s.goto tx q)) :
    Serial (words ++ note tx (noted (s.pc tx) q)) s.region dead := by
  have ok := hk.invariant.ok tx
  have standing : (s.pc tx).failed = false → (tx, .abort) ∉ words := by
    intro hf hin
    rw [((hfiled.abort tx).mp hin).2] at hf
    cases hf
  generalize hp : s.pc tx = p at *
  cases hl with
  | conflictRead | refusedRead | conflictWrite | tooFar | refusedWrite =>
    exact h.abort fun U _ => view_idle rfl U
  | @doneRo g k n target hle =>
    obtain ⟨hg, hmine, -⟩ := hk.reads.got tx g k target (by rw [hp]; rfl)
    have hro := hk.reads.roPath tx (by rw [hp]; rfl)
    refine h.idle (by simp) rfl (fun _ _ => rfl) (view_idle rfl) fun U hU => ?_
    cases hU hro
    have hshort := hfit.2
    have hsize := ok.2
    refine read_stays hg hfit.1 (fun u hu => ?_) (by omega) fun j v hv => ?_
    · have hux := own_of_mine hfiled hmine u hu
      subst u
      obtain ⟨m, hin⟩ := mem_of_allocator hu
      cases (h.readonly tx _ hin hro).1
    · rw [visible_empty]
      exact visible_copiedRo hk hp j v hv
  | @done g k n target hle =>
    obtain ⟨hg, hmine, -⟩ := hk.reads.got tx g k target (by rw [hp]; rfl)
    have hw : Writer words tx := ⟨hfit.2.1, standing rfl⟩
    have hshort := hfit.2.2
    have hsize := ok.2.1
    refine h.call hw (by simp) ⟨fun U _ => view_idle rfl U, fun U hU => ?_⟩
      fun u e' hu hwu hin => ht.apart hit hw (by simp) (by simp) hu hwu hin
    rw [view_idle rfl]
    refine read_stays hg hfit.1 (fun u hu => own_of_mine hfiled hmine u hu ▸ hU) (by omega) ?_
    exact visible_copied hk hp hU hshort
  | @stored g k src i hle =>
    cases src with
    | nil =>
      have hw : Writer words tx := by
        refine ⟨?_, standing rfl⟩
        by_contra hro
        have := (hk.reads.readOnly tx (by simpa using hro)).1
        rw [hp] at this
        cases this
      refine h.call hw (by simp) ⟨fun U _ => view_idle rfl U, fun U hU => ?_⟩
        fun u e' hu hwu hin => ht.apart hit hw (by simp) (by simp) hu hwu hin
      show exec _ (.write g k []) = some (view (words ++ [(tx, .write g k [])]) _ _ _)
      rw [view_idle rfl]
      refine modify_idle (view_some ok.1 hfit.1 fun u hu => ?_) ?_
      · exact own_of_mine hfiled hfit.2 u hu ▸ hU
      · simpa [Block.write, Block.store, Calls.inRange] using ok.2
    | cons v src => simpa [noted] using h
  | _ => simpa [noted] using h

theorem serial_micro (hk : Known s) (hfit : Fits s dead tx (s.pc tx))
    (hfresh : s.region.nextSeg ∉ dead) (hfiled : Filed s words)
    (h : Serial words s.region dead) (hm : Micro s tx t) :
    Serial (words ++ note tx (noted (s.pc tx) (t.pc tx))) t.region dead := by
  have hi := hk.invariant
  have hit := hi.micro hm
  have ok := hi.ok tx
  have hd := deed_micro hi hk.reads hfit hm
  have ht := hfiled.micro hi hm hd
  have standing : (s.pc tx).failed = false → (tx, .abort) ∉ words := by
    intro hf hin
    rw [((hfiled.abort tx).mp hin).2] at hf
    cases hf
  have gone : (s.pc tx).failed = true → ∀ U : Finset Tx, (∀ u ∈ U, Writer words u) →
      tx ∉ U := by
    intro hf U hU hin
    have hrun := hi.ledger.members ((hi.ledger.running tx).mpr hm.frame.runs.1)
    exact (hU tx hin).2 ((hfiled.abort tx).mpr ⟨hrun, hf⟩)
  cases hm with
  | @pcOnly q hl =>
    have hq : (s.goto tx q).pc tx = q := by simp [State.goto]
    rw [hq] at ht ⊢
    exact serial_local hk hfit hfiled h hl ht hit
  | @passRead g k n i hp =>
    simp only [hp, State.goto, Function.update_self, noted, note_none, List.append_nil]
    exact Serial.congr h fun U _ => view_setSeg rfl (visible_passRead (k + i))
  | @passWrite g k src i hp hlt hok =>
    rw [hp] at ok
    simp only [hp, State.goto, Function.update_self, noted, note_none, List.append_nil]
    refine Serial.congr h fun U _ => view_setSeg rfl (visible_passWrite hok fun hw => ?_)
    exact ((hi.word g ok.1 (k + i)).equal hw).1
  | storeOwner hp | winDirty hp =>
    simp only [hp, State.goto, Function.update_self, noted, note_none, List.append_nil]
    exact Serial.congr h fun U _ => view_setSeg rfl rfl
  | ownRollback hp =>
    simp only [hp, State.goto, Function.update_self, noted, note_none, List.append_nil]
    exact Serial.congr h fun U _ => view_setSeg rfl rfl
  | listMove hp =>
    simp only [hp, State.goto, Function.update_self, noted, note_none, List.append_nil]
    exact Serial.congr h fun U _ => rfl
  | restoreWord hp hlt hw ha =>
    simp only [hp, State.goto, Function.update_self, noted, note_none, List.append_nil]
    refine Serial.congr h fun U hU => view_setSeg rfl (visible_restore ?_ ha hw)
    exact gone (by rw [hp]; rfl) U hU
  | @copyWord g k src i v hp hv =>
    have hn : noted (.copyWrite g k src i) (.markWrite g k src (i + 1)) =
        some (.write g (k + i) [v]) := by simp [noted, hv]
    have hw : Writer words tx := by
      refine ⟨?_, standing (by rw [hp]; rfl)⟩
      by_contra hro
      have hno := (hk.reads.readOnly tx (by simpa using hro)).1
      rw [hp] at hno
      cases hno
    rw [hp] at ok hfit
    obtain ⟨hwr, ha⟩ := (hi.word g ok.1 (k + i)).held (by simp [hp, Pc.failed]) ok.2.2
    have hlt := (List.getElem?_eq_some_iff.mp hv).1
    have hsize := ok.2.1
    simp only [hp, State.goto, Function.update_self, hn, note_some] at ht ⊢
    refine h.call hw (by simp) (copy_moves v ok.1 hfit.1 ?_ (by omega) ha hwr)
      fun u e' hu hwu hin => ht.apart hit hw (by simp) (by simp) hu hwu hin
    exact own_of_mine hfiled hfit.2
  | @allocate size hp =>
    have hw : Writer words tx := by
      rw [hp] at hfit
      exact ⟨hfit, standing (by rw [hp]; rfl)⟩
    have unclaimed : ∀ u e, (u, e) ∈ words → e.claims ≠ some s.region.nextSeg :=
      fun u e hin hc => hi.lists.nextSeg_free (hfiled.claimed u e _ hin hc)
    simp only [hp, State.goto, Function.update_self, noted, note_some] at ht ⊢
    refine h.call hw (by simp) (alloc_moves_fresh hi.lists.nextSeg_free unclaimed hfresh size)
      fun u e' hu hwu hin => ht.apart hit hw (by simp) (fun g n he v f hf hc => ?_) hu hwu hin
    cases he
    exact unclaimed v f hf hc
  | @storeFree g hp =>
    have hmine := hk.origins.freeing tx g (by rw [hp]; rfl)
    rw [hp] at ok hfit
    have hw : Writer words tx := ⟨hfit.2, standing (by rw [hp]; rfl)⟩
    simp only [hp, State.goto, Function.update_self, noted, note_some] at ht ⊢
    have hmoves : Moves words s.region dead tx (.free g) _ :=
      free_moves ok hfit.1 (by rw [hfiled.alloc]; exact hmine)
    refine h.call hw (by simp) (Moves.congr hmoves fun U => ?_)
      fun u e' hu hwu hin => ht.apart hit hw (by simp) (by simp) hu hwu hin
    refine view_congr rfl (fun _ _ => rfl) (fun _ _ _ => Iff.rfl) fun x _ => ?_
    by_cases hx : x = g
    · subst x
      simp [State.storeFree, State.setSeg, CallEffects.touch]
      rfl
    · simp [State.storeFree, State.setSeg, CallEffects.touch, Region.setSeg, hx]

end serial

end WordLog
