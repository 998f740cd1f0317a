import TransactionalMemory.LockLevelWords

/-! # The invariant of runs at lock granularity

Every pc names live segments and words its transaction already passed, marks are passed
guards, and a segment with a marked word is on its way to the dirty list. -/
namespace LockLevel

open TransitionSystem
open BatcherState
open ControlWord
open RegionState

variable {W : Type*}

/-- What a transaction knows at its pc. -/
def PcOk (s : State W) (tx : Tx) : Pc W → Prop
  | .guardRead g k n | .copyRo g k n _ => g ∈ s.region.live ∧ k + n ≤ (s.region.seg g).size
  | .markRead g k n i => g ∈ s.region.live ∧ k + n ≤ (s.region.seg g).size ∧
      ∀ j < i, (tx, g, k + j) ∈ s.hist.passedRead
  | .copyRead g k n _ => g ∈ s.region.live ∧ k + n ≤ (s.region.seg g).size ∧
      ∀ j < n, (tx, g, k + j) ∈ s.hist.passedRead
  | .guardWrite g k src | .markWrite g k src _ =>
    g ∈ s.region.live ∧ k + src.length ≤ (s.region.seg g).size
  | .copyWrite g k src i => g ∈ s.region.live ∧ k + src.length ≤ (s.region.seg g).size ∧
      (tx, g, k + i) ∈ s.hist.passedWrite
  | .storeFree g | .storeOwner g | .casDirty g _ | .listMove g _ => g ∈ s.region.live
  | .testOwner _ link base | .clearWord _ link base _ | .advanceLink _ link base =>
    link ∈ s.region.dirtySegLinks ∧ s.region.dirtySegLinks.head? = some base
  | _ => True

/-- The transaction can no longer be refused at word `j` of `g`, nor at an earlier one. -/
def Pc.past (g : SegId) (j : ℕ) : Pc W → Prop
  | .markRead x k _ i | .markWrite x k _ i => x = g ∧ j < k + i
  | .copyWrite x k _ i => x = g ∧ j ≤ k + i
  | .copyRead x .. | .casDirty x _ => x = g
  | _ => False

/-- Words are marked in ascending order, so the transaction that marked the highest word
of a segment goes on to set the dirty flag. -/
def Ahead (s : State W) : Prop :=
  ∀ g, (s.region.seg g).dirty = false → (∃ u j, Passed s u g j) →
    ∃ u, ∀ v j, Passed s v g j → (s.pc u).past g j

/-- The transaction is between the stores of `tm_free` and the dirty flag. -/
def Pc.frees (g : SegId) : Pc W → Prop
  | .storeOwner x | .casDirty x _ => x = g
  | _ => False

structure Flags (s : State W) (g : SegId) : Prop where
  clean : (s.region.seg g).dirty = false →
    (s.region.seg g).newlyAlloc = false ∧ (s.region.seg g).rollback = false
  idle : (s.region.seg g).dirty = false → (∀ u, ¬ (s.pc u).frees g) →
    (s.region.seg g).owner = 0#64 ∧ (s.region.seg g).shouldFree = false

structure Invariant (s : State W) : Prop where
  ledger : Ledger s
  lists : Lists s
  word : ∀ g ∈ s.region.live, ∀ i, Word s g i
  passes : Passes s
  ahead : Ahead s
  flags : ∀ g ∈ s.region.live, Flags s g
  ok : ∀ tx, PcOk s tx (s.pc tx)

section preserved

variable {s t : State W} {tx : Tx}

theorem Frame.live_seg (hf : Frame s t tx) (hl : Lists s) {g : SegId}
    (hg : g ∈ s.region.live) : Kept (s.region.seg g) (t.region.seg g) :=
  hf.seg g (Nat.ne_of_lt (hl.fresh g hg))

theorem head?_of_prefix {α : Type*} {l m : List α} {a : α} (h : l <+: m)
    (ha : l.head? = some a) : m.head? = some a := by
  obtain ⟨r, rfl⟩ := h
  cases l with
  | nil => simp at ha
  | cons b l => simpa using ha

theorem PcOk.mono (hf : Frame s t tx) (hl : Lists s) {u : Tx} {p : Pc W} (h : PcOk s u p) :
    PcOk t u p := by
  have seg : ∀ {g m}, g ∈ s.region.live → m ≤ (s.region.seg g).size →
      g ∈ t.region.live ∧ m ≤ (t.region.seg g).size := fun hg hm =>
    ⟨hf.live hg, (hf.live_seg hl hg).size ▸ hm⟩
  cases p with
  | guardRead g k n | copyRo g k n target | guardWrite g k src | markWrite g k src i =>
    exact seg h.1 h.2
  | markRead g k n i | copyRead g k n target =>
    have := seg h.1 h.2.1
    exact ⟨this.1, this.2, fun j hj => hf.passedRead (h.2.2 j hj)⟩
  | copyWrite g k src i =>
    have := seg h.1 h.2.1
    exact ⟨this.1, this.2, hf.passedWrite h.2.2⟩
  | storeFree g | storeOwner g | casDirty g ret | listMove g ret => exact hf.live h
  | testOwner c link base | clearWord c link base i | advanceLink c link base =>
    exact ⟨hf.dirtySegLinks.subset h.1, head?_of_prefix hf.dirtySegLinks h.2⟩
  | _ => trivial

theorem nextLink_mem {l : List SegId} {link : SegId} (h : link ∈ l) : nextLink l link ∈ l := by
  unfold nextLink
  cases hn : l[l.idxOf link + 1]? with
  | some x => exact List.mem_of_getElem? hn
  | none =>
    cases l with
    | nil => cases h
    | cons a l => simp

theorem PcOk.local {p q : Pc W} (h : PcOk s tx p) (hl : Local s tx p q) :
    PcOk s tx q := by
  cases hl with
  | readOnly | fetchRo | cleared => exact h
  | startRead => exact ⟨h.1, h.2, fun j hj => absurd hj (Nat.not_lt_zero j)⟩
  | marked hi => exact ⟨h.1, h.2.1, fun j hj => h.2.2 j (by omega)⟩
  | fetch => exact h
  | done => exact h.1
  | startWrite => exact h
  | stored => exact h.1
  | head he => exact ⟨nextLink_mem (by simp [he]), by simp [he]⟩
  | notOwner | skipWord => exact h
  | nextLink hne => exact ⟨nextLink_mem h.1, h.2⟩
  | _ => trivial

theorem PcOk.micro [Zero W] (hm : Micro s tx t) (hl : Lists s) (h : ∀ u, PcOk s u (s.pc u))
    (u : Tx) : PcOk t u (t.pc u) := by
  have hf := hm.frame
  by_cases hu : u = tx
  · subst u
    have here := (h tx).mono hf hl
    cases hm with
    | pcOnly hloc =>
      simpa [State.goto] using ((h tx).local hloc).mono hf hl
    | @passRead g k n i hp =>
      rw [hp] at here
      simp only [State.goto, Function.update_self]
      refine ⟨here.1, here.2.1, fun j hj => ?_⟩
      rcases Nat.lt_succ_iff_lt_or_eq.mp hj with hj | rfl
      · exact here.2.2 j hj
      · exact Finset.mem_insert_self _ _
    | passWrite hp =>
      rw [hp] at here
      simp only [State.goto, Function.update_self]
      exact ⟨here.1, here.2, Finset.mem_insert_self _ _⟩
    | copyWord hp =>
      rw [hp] at here
      simp only [State.goto, Function.update_self]
      exact ⟨here.1, here.2.1⟩
    | storeFree hp | storeOwner hp | winDirty hp | ownRollback hp | restoreWord hp =>
      rw [hp] at here
      simp only [State.goto, Function.update_self]
      exact here
    | allocate | listMove =>
      simp only [State.goto, Function.update_self]
      trivial
  · rw [hf.elsewhere u hu]
    exact (h u).mono hf hl

/-- A step that leaves words, authors and passed guards alone. -/
theorem Word.same {g : SegId} {i : ℕ} (h : Word s g i)
    (hs : (t.region.seg g).control = (s.region.seg g).control ∧
      (t.region.seg g).write = (s.region.seg g).write ∧
      (t.region.seg g).read = (s.region.seg g).read)
    (hh : t.hist.author = s.hist.author ∧ t.hist.passedRead = s.hist.passedRead ∧
      t.hist.passedWrite = s.hist.passedWrite)
    (hf : ∀ u, (t.pc u).failed = false → (s.pc u).failed = false) : Word t g i :=
  h.frame (by rw [hs.1]) (by rw [hs.2.1]) (by rw [hs.2.2]) (by rw [hh.1])
    (fun _ => by rw [hh.2.1]) (fun _ => by rw [hh.2.2]) hf

theorem update_words {f : SegId → Segment W} {x : SegId} {seg : Segment W}
    (hc : seg.control = (f x).control) (hw : seg.write = (f x).write)
    (hr : seg.read = (f x).read) (g : SegId) :
    (Function.update f x seg g).control = (f g).control ∧
      (Function.update f x seg g).write = (f g).write ∧
      (Function.update f x seg g).read = (f g).read :=
  ⟨update_proj Segment.control hc g, update_proj Segment.write hw g,
    update_proj Segment.read hr g⟩

theorem Word.micro [Zero W] (hm : Micro s tx t) (hi : Invariant s) {g : SegId}
    (hg : g ∈ t.region.live) (i : ℕ) : Word t g i := by
  have hf : ∀ u, (t.pc u).failed = false → (s.pc u).failed = false :=
    fun u => hm.frame.failed_mono
  have h0 : tx ≠ 0#64 := hi.ledger.named tx (Ledger.ne_outside hm.frame.runs.1)
  have ok := hi.ok tx
  cases hm with
  | pcOnly => exact (hi.word g hg i).same ⟨rfl, rfl, rfl⟩ ⟨rfl, rfl, rfl⟩ hf
  | listMove => exact (hi.word g hg i).same ⟨rfl, rfl, rfl⟩ ⟨rfl, rfl, rfl⟩ hf
  | storeFree | storeOwner | winDirty | ownRollback =>
    exact (hi.word g hg i).same (update_words (by rfl) (by rfl) (by rfl) g) ⟨rfl, rfl, rfl⟩ hf
  | @passRead x k n j hp hj hok =>
    by_cases hx : g = x ∧ i = k + j
    · obtain ⟨rfl, rfl⟩ := hx
      exact (hi.word g hg _).passRead h0 hok hf
    · exact (hi.word g hg i).elsewhere (passRead_oneWord s tx x (k + j) _) hx hf
  | @passWrite x k src j hp hj hok =>
    by_cases hx : g = x ∧ i = k + j
    · obtain ⟨rfl, rfl⟩ := hx
      exact (hi.word g hg _).passWrite h0 hok hf
    · exact (hi.word g hg i).elsewhere (passWrite_oneWord s tx x (k + j) _) hx hf
  | @copyWord x k src j v hp hv =>
    by_cases hx : g = x ∧ i = k + j
    · obtain ⟨rfl, rfl⟩ := hx
      rw [hp] at ok
      exact (hi.word g hg _).copyWord (by simp [hp, Pc.failed]) ok.2.2 hf
    · exact (hi.word g hg i).elsewhere (copyWord_oneWord s tx x (k + j) _ v) hx hf
  | @restoreWord c x base j hp =>
    by_cases hx : g = x ∧ i = j
    · obtain ⟨rfl, rfl⟩ := hx
      exact (hi.word g hg _).restoreWord (by simp [hp, Pc.failed]) hf
    · exact (hi.word g hg i).elsewhere (restoreWord_oneWord s tx x j _) hx hf
  | @allocate size hp =>
    by_cases hn : g = s.region.nextSeg
    · -- the block is new to this epoch, so nobody passed one of its words
      subst g
      have out := hi.lists.nextSeg_free
      have none : s.hist.author s.region.nextSeg i = none := by
        cases ha : s.hist.author s.region.nextSeg i with
        | none => rfl
        | some u => exact (out (hi.passes.live u _ _ (.inr (hi.passes.author u _ _ ha))).1).elim
      refine Word.reset ?_ ?_ (fun u hu => out (hi.passes.live u _ _ hu).1) none <;>
        simp [State.goto, State.allocate, allocSegment]
    · have off : ((s.allocate tx size).goto tx
          (.returning (.allocated s.region.nextSeg))).region.seg g = s.region.seg g :=
        Region.setSeg_other _ _ _ hn
      have hold : g ∈ s.region.live := Finset.mem_of_mem_insert_of_ne hg hn
      exact (hi.word g hold i).same ⟨by rw [off], by rw [off], by rw [off]⟩ ⟨rfl, rfl, rfl⟩ hf

theorem Passes.same (h : Passes s) (hf : Frame s t tx) (hl : Lists s)
    (hr : t.hist.passedRead = s.hist.passedRead) (hw : t.hist.passedWrite = s.hist.passedWrite)
    (ha : ∀ u g i, t.hist.author g i = some u → (u, g, i) ∈ s.hist.passedWrite) : Passes t where
  member u g i hp := by
    rw [hf.members]
    exact h.member u g i (by simpa [Passed, hr, hw] using hp)
  live u g i hp := by
    have := h.live u g i (by simpa [Passed, hr, hw] using hp)
    exact ⟨hf.live this.1, (hf.live_seg hl this.1).size ▸ this.2⟩
  author u g i hp := hw ▸ ha u g i hp

theorem Passes.more (h : Passes s) (hf : Frame s t tx) (hl : Lists s) (hm : tx ∈ s.hist.members)
    {x : SegId} {j : ℕ} (hx : x ∈ s.region.live) (hj : j < (s.region.seg x).size)
    (hp : ∀ u g i, Passed t u g i → (u = tx ∧ g = x ∧ i = j) ∨ Passed s u g i)
    (ha : t.hist.author = s.hist.author) : Passes t where
  member u g i hu := by
    rw [hf.members]
    rcases hp u g i hu with ⟨rfl, -, -⟩ | hu
    · exact hm
    · exact h.member u g i hu
  live u g i hu := by
    have : g ∈ s.region.live ∧ i < (s.region.seg g).size := by
      rcases hp u g i hu with ⟨-, rfl, rfl⟩ | hu
      · exact ⟨hx, hj⟩
      · exact h.live u g i hu
    exact ⟨hf.live this.1, (hf.live_seg hl this.1).size ▸ this.2⟩
  author u g i hu := hf.passedWrite (h.author u g i (ha ▸ hu))

theorem Passes.micro [Zero W] (hm : Micro s tx t) (hi : Invariant s) : Passes t := by
  have hf := hm.frame
  have mem : tx ∈ s.hist.members := hi.ledger.members ((hi.ledger.running tx).mpr hf.runs.1)
  have ok := hi.ok tx
  have h := hi.passes
  cases hm with
  | pcOnly | listMove | allocate | storeFree | storeOwner | winDirty | ownRollback =>
    exact h.same hf hi.lists rfl rfl h.author
  | @passRead x k n j hp hj =>
    rw [hp] at ok
    refine h.more hf hi.lists mem ok.1 (by have := ok.2.1; omega : k + j < _) ?_ rfl
    rintro u g i (hu | hu)
    · rcases Finset.mem_insert.mp hu with he | hu
      · cases he
        exact .inl ⟨rfl, rfl, rfl⟩
      · exact .inr (.inl hu)
    · exact .inr (.inr hu)
  | @passWrite x k src j hp hj =>
    rw [hp] at ok
    refine h.more hf hi.lists mem ok.1 (by have := ok.2; omega : k + j < _) ?_ rfl
    rintro u g i (hu | hu)
    · exact .inr (.inl hu)
    · rcases Finset.mem_insert.mp hu with he | hu
      · cases he
        exact .inl ⟨rfl, rfl, rfl⟩
      · exact .inr (.inr hu)
  | @copyWord x k src j v hp =>
    rw [hp] at ok
    refine h.same hf hi.lists rfl rfl fun u g i hu => ?_
    by_cases hx : g = x ∧ i = k + j
    · obtain ⟨rfl, rfl⟩ := hx
      have : some tx = some u := by simpa [State.copyWord, State.goto] using hu
      rw [← Option.some.inj this]
      exact ok.2.2
    · exact h.author u g i (((copyWord_oneWord s tx x (k + j) _ v).author g i hx).symm.trans hu)
  | @restoreWord c x base j hp =>
    refine h.same hf hi.lists rfl rfl fun u g i hu => ?_
    by_cases hx : g = x ∧ i = j
    · obtain ⟨rfl, rfl⟩ := hx
      simp [State.restoreWord, State.goto] at hu
    · exact h.author u g i (((restoreWord_oneWord s tx x j _).author g i hx).symm.trans hu)

/-- A refused read met a word that another transaction of the epoch passed to write. -/
theorem Word.read_conflict {g : SegId} {i : ℕ} (h : Word s g i)
    (no : (canReadWord tx ((s.region.seg g).control i)).1 = false) :
    ∃ u, u ≠ tx ∧ (u, g, i) ∈ s.hist.passedWrite := by
  obtain ⟨-, hw, ha⟩ := canReadWord_refused no
  exact ⟨_, ha, h.traced.written hw⟩

theorem Word.write_conflict {g : SegId} {i : ℕ} (h : Word s g i)
    (no : (canWriteWord tx ((s.region.seg g).control i)).1 = false) :
    ∃ u, u ≠ tx ∧ Passed s u g i := by
  obtain ⟨-, h0, ha⟩ := h.exclusive.write_refused no
  by_cases he : ((s.region.seg g).control i).access = tx
  · obtain ⟨u, hu, hne⟩ := h.traced.many (ha.resolve_left (fun hn => hn he))
    exact ⟨u, fun hut => hne (hut.trans he.symm), hu⟩
  · exact ⟨_, he, h.traced.access h0⟩

theorem Pc.past_mono {p : Pc W} {g : SegId} {i j : ℕ} (h : p.past g j) (hij : i ≤ j) :
    p.past g i := by
  cases p <;> simp only [Pc.past] at h ⊢ <;> first | exact h | exact ⟨h.1, by omega⟩

theorem Ahead.same (h : Ahead s) (he : ∀ u, u ≠ tx → t.pc u = s.pc u)
    (hd : ∀ g, (t.region.seg g).dirty = false → (s.region.seg g).dirty = false)
    (hr : t.hist.passedRead = s.hist.passedRead) (hw : t.hist.passedWrite = s.hist.passedWrite)
    (hq : ∀ g, (t.region.seg g).dirty = false → (∃ v j, Passed s v g j) →
      (∀ v j, Passed s v g j → (s.pc tx).past g j) →
      ∀ v j, Passed s v g j → (t.pc tx).past g j) : Ahead t := by
  have hp : ∀ v g j, Passed t v g j ↔ Passed s v g j := fun v g j => by simp [Passed, hr, hw]
  intro g hg hex
  simp only [hp] at hex ⊢
  obtain ⟨u, hu⟩ := h g (hd g hg) hex
  by_cases hut : u = tx
  · subst u
    exact ⟨tx, hq g hg hex hu⟩
  · exact ⟨u, by simpa [he u hut] using hu⟩

/-- The transaction passes a word; either it is ahead of all now, or somebody was before. -/
theorem Ahead.more (h : Ahead s) (hf : Frame s t tx) {x : SegId} {j : ℕ}
    (hd : ∀ g, (t.region.seg g).dirty = (s.region.seg g).dirty)
    (hp : ∀ u g i, Passed t u g i → (u = tx ∧ g = x ∧ i = j) ∨ Passed s u g i)
    (hold : ∀ g i, (s.pc tx).past g i → g = x ∧ i < j)
    (hnew : ∀ i ≤ j, (t.pc tx).past x i) : Ahead t := by
  intro g hg hex
  rw [hd] at hg
  by_cases hx : g = x
  · subst g
    by_cases hprev : ∃ u i, Passed s u x i
    · obtain ⟨u, hu⟩ := h x hg hprev
      by_cases hpast : u ≠ tx ∧ (s.pc u).past x j
      · refine ⟨u, fun v i hv => ?_⟩
        rw [hf.elsewhere u hpast.1]
        rcases hp v x i hv with ⟨-, -, rfl⟩ | hv
        · exact hpast.2
        · exact hu v i hv
      · refine ⟨tx, fun v i hv => hnew i ?_⟩
        rcases hp v x i hv with ⟨-, -, rfl⟩ | hv
        · exact le_rfl
        · have hui := hu v i hv
          by_cases he : u = tx
          · subst u
            exact (hold x i hui).2.le
          · by_contra hlt
            exact hpast ⟨he, Pc.past_mono hui (by omega)⟩
    · refine ⟨tx, fun v i hv => hnew i ?_⟩
      rcases hp v x i hv with ⟨-, -, rfl⟩ | hv
      · exact le_rfl
      · exact (hprev ⟨v, i, hv⟩).elim
  · have hback : ∀ u i, Passed t u g i → Passed s u g i := fun u i hu =>
      (hp u g i hu).resolve_left fun hn => hx hn.2.1
    obtain ⟨u₀, i₀, h₀⟩ := hex
    obtain ⟨u, hu⟩ := h g hg ⟨u₀, i₀, hback u₀ i₀ h₀⟩
    have he : u ≠ tx := by
      rintro rfl
      exact hx (hold g i₀ (hu u₀ i₀ (hback u₀ i₀ h₀))).1
    exact ⟨u, fun v i hv => by
      rw [hf.elsewhere u he]
      exact hu v i (hback v i hv)⟩

/-- A transaction past every marked word cannot be refused: its next word is not marked. -/
theorem Ahead.local (hi : Invariant s) {q : Pc W} (hl : Local s tx (s.pc tx) q) {g : SegId}
    (hd : (s.region.seg g).dirty = false) (hex : ∃ v j, Passed s v g j)
    (hall : ∀ v j, Passed s v g j → (s.pc tx).past g j) :
    ∀ v j, Passed s v g j → q.past g j := by
  have ok := hi.ok tx
  obtain ⟨v₀, j₀, h₀⟩ := hex
  have hpast := hall v₀ j₀ h₀
  generalize hp : s.pc tx = p at hl ok hall hpast
  cases hl with
  | @refusedRead x k n i hin hno =>
    obtain ⟨rfl, -⟩ := hpast
    obtain ⟨u, -, hu⟩ := (hi.word x ok.1 (k + i)).read_conflict hno
    exact (Nat.lt_irrefl _ (hall u (k + i) (.inr hu)).2).elim
  | @refusedWrite x k src i hin hno =>
    obtain ⟨rfl, -⟩ := hpast
    obtain ⟨u, -, hu⟩ := (hi.word x ok.1 (k + i)).write_conflict hno
    exact (Nat.lt_irrefl _ (hall u (k + i) hu).2).elim
  | marked | stored => exact fun _ _ _ => hpast.1
  | fetch | done => exact fun _ _ _ => hpast
  | alreadyDirty hd' =>
    cases hpast
    rw [hd] at hd'
    cases hd'
  | _ => exact hpast.elim

theorem Ahead.micro [Zero W] (hm : Micro s tx t) (hi : Invariant s) : Ahead t := by
  have hf := hm.frame
  have h := hi.ahead
  have same : ∀ {x : SegId} {seg : Segment W}, seg.dirty = (s.region.seg x).dirty → ∀ g,
      (Function.update s.region.seg x seg g).dirty = (s.region.seg g).dirty :=
    fun he g => update_proj Segment.dirty he g
  cases hm with
  | pcOnly hl =>
    refine h.same hf.elsewhere (fun _ => id) rfl rfl fun g hd hex hall => ?_
    simpa [State.goto] using Ahead.local hi hl hd hex hall
  | @passRead x k n j hp =>
    refine h.more hf (same (by rfl)) ?_ ?_ ?_ (x := x) (j := k + j)
    · rintro u g i (hu | hu)
      · rcases Finset.mem_insert.mp hu with he | hu
        · cases he
          exact .inl ⟨rfl, rfl, rfl⟩
        · exact .inr (.inl hu)
      · exact .inr (.inr hu)
    · intro g i hg
      rw [hp] at hg
      exact ⟨hg.1.symm, hg.2⟩
    · intro i hij
      simp only [State.goto, Function.update_self]
      exact ⟨rfl, by omega⟩
  | @passWrite x k src j hp =>
    refine h.more hf (same (by rfl)) ?_ ?_ ?_ (x := x) (j := k + j)
    · rintro u g i (hu | hu)
      · exact .inr (.inl hu)
      · rcases Finset.mem_insert.mp hu with he | hu
        · cases he
          exact .inl ⟨rfl, rfl, rfl⟩
        · exact .inr (.inr hu)
    · intro g i hg
      rw [hp] at hg
      exact ⟨hg.1.symm, hg.2⟩
    · intro i hij
      simp only [State.goto, Function.update_self]
      exact ⟨rfl, hij⟩
  | @copyWord x k src j v hp =>
    refine h.same hf.elsewhere (fun g hg => (same (by rfl) g).symm.trans hg) rfl rfl ?_
    intro g _ _ hall u i hu
    have := hall u i hu
    rw [hp] at this
    simp only [State.goto, Function.update_self]
    exact ⟨this.1, by have := this.2; omega⟩
  | storeFree hp | storeOwner hp | ownRollback hp | restoreWord hp =>
    refine h.same hf.elsewhere (fun g hg => (same (by rfl) g).symm.trans hg) rfl rfl ?_
    intro g _ _ hall u i hu
    have := hall u i hu
    rw [hp] at this
    exact this.elim
  | listMove hp =>
    refine h.same hf.elsewhere (fun _ => id) rfl rfl ?_
    intro g _ _ hall u i hu
    have := hall u i hu
    rw [hp] at this
    exact this.elim
  | @winDirty x ret hp =>
    have hdx : ∀ g, ((Function.update s.region.seg x
        { s.region.seg x with dirty := true }) g).dirty = false →
        g ≠ x ∧ (s.region.seg g).dirty = false := by
      intro g hg
      by_cases he : g = x
      · subst g
        simp at hg
      · exact ⟨he, by simpa [he] using hg⟩
    refine h.same hf.elsewhere (fun g hg => (hdx g hg).2) rfl rfl ?_
    intro g hg _ hall u i hu
    have := hall u i hu
    rw [hp] at this
    exact ((hdx g hg).1 this.symm).elim
  | @allocate size hp =>
    refine h.same hf.elsewhere ?_ rfl rfl ?_
    · intro g hg
      by_cases he : g = s.region.nextSeg
      · subst g
        simp [State.goto, State.allocate, allocSegment] at hg
      · rw [← hg, show ((s.allocate tx size).goto tx
          (.returning (.allocated s.region.nextSeg))).region.seg g = s.region.seg g from
          Region.setSeg_other _ _ _ he]
    · intro g _ _ hall u i hu
      have := hall u i hu
      rw [hp] at this
      exact this.elim

theorem Flags.of_dirty {g : SegId} (h : (s.region.seg g).dirty = true) : Flags s g :=
  ⟨fun hd => by simp [h] at hd, fun hd => by simp [h] at hd⟩

theorem Flags.same {g : SegId} (h : Flags s g)
    (hs : (t.region.seg g).dirty = (s.region.seg g).dirty ∧
      (t.region.seg g).newlyAlloc = (s.region.seg g).newlyAlloc ∧
      (t.region.seg g).rollback = (s.region.seg g).rollback ∧
      (t.region.seg g).owner = (s.region.seg g).owner ∧
      (t.region.seg g).shouldFree = (s.region.seg g).shouldFree)
    (hf : (s.region.seg g).dirty = false → ∀ u, (s.pc u).frees g → ∃ v, (t.pc v).frees g) :
    Flags t g where
  clean hd := by
    rw [hs.2.1, hs.2.2.1]
    exact h.clean (hs.1 ▸ hd)
  idle hd hn := by
    have hd' := hs.1 ▸ hd
    rw [hs.2.2.2.1, hs.2.2.2.2]
    refine h.idle hd' fun u hu => ?_
    obtain ⟨v, hv⟩ := hf hd' u hu
    exact hn v hv

theorem update_flags {f : SegId → Segment W} {x : SegId} {seg : Segment W}
    (hd : seg.dirty = (f x).dirty) (hn : seg.newlyAlloc = (f x).newlyAlloc)
    (hr : seg.rollback = (f x).rollback) (ho : seg.owner = (f x).owner)
    (hs : seg.shouldFree = (f x).shouldFree) (g : SegId) :
    (Function.update f x seg g).dirty = (f g).dirty ∧
      (Function.update f x seg g).newlyAlloc = (f g).newlyAlloc ∧
      (Function.update f x seg g).rollback = (f g).rollback ∧
      (Function.update f x seg g).owner = (f g).owner ∧
      (Function.update f x seg g).shouldFree = (f g).shouldFree :=
  ⟨update_proj Segment.dirty hd g, update_proj Segment.newlyAlloc hn g,
    update_proj Segment.rollback hr g, update_proj Segment.owner ho g,
    update_proj Segment.shouldFree hs g⟩

theorem Local.frees {p q : Pc W} (h : Local s tx p q) {g : SegId}
    (hd : (s.region.seg g).dirty = false) : ¬ p.frees g := by
  cases h with
  | alreadyDirty hd' =>
    rintro rfl
    rw [hd] at hd'
    cases hd'
  | _ => exact id

/-- Who frees a segment that the step does not concern goes on doing so. -/
theorem frees_elsewhere (he : ∀ u, u ≠ tx → t.pc u = s.pc u) {g : SegId} (hn : ¬ (s.pc tx).frees g) :
    ∀ u, (s.pc u).frees g → ∃ v, (t.pc v).frees g := by
  intro u hu
  have hut : u ≠ tx := by
    rintro rfl
    exact hn hu
  exact ⟨u, by rwa [he u hut]⟩

theorem Flags.micro [Zero W] (hm : Micro s tx t) (hi : Invariant s) {g : SegId}
    (hg : g ∈ t.region.live) : Flags t g := by
  have hf := hm.frame
  have ok := hi.ok tx
  cases hm with
  | pcOnly hl =>
    exact (hi.flags g hg).same ⟨rfl, rfl, rfl, rfl, rfl⟩ fun hd => frees_elsewhere hf.elsewhere (hl.frees hd)
  | listMove hp =>
    exact (hi.flags g hg).same ⟨rfl, rfl, rfl, rfl, rfl⟩ fun _ => frees_elsewhere hf.elsewhere (by rw [hp]; exact id)
  | passRead hp | passWrite hp | copyWord hp | restoreWord hp =>
    exact (hi.flags g hg).same (update_flags (by rfl) (by rfl) (by rfl) (by rfl) (by rfl) g)
      fun _ => frees_elsewhere hf.elsewhere (by rw [hp]; exact id)
  | @storeFree x hp =>
    by_cases hx : g = x
    · subst g
      have hseg : ((s.storeFree tx x).goto tx (.storeOwner x)).region.seg x =
          { s.region.seg x with shouldFree := true } := Region.setSeg_same _ _ _
      refine ⟨fun hd => ?_, fun _ hn => ?_⟩
      · rw [hseg] at hd ⊢
        exact (hi.flags _ hg).clean hd
      · exact (hn tx (by simp [State.goto, Pc.frees])).elim
    · have off : ((s.storeFree tx x).goto tx (.storeOwner x)).region.seg g = s.region.seg g :=
        Region.setSeg_other _ _ _ hx
      exact (hi.flags g hg).same (by rw [off]; exact ⟨rfl, rfl, rfl, rfl, rfl⟩)
        fun _ => frees_elsewhere hf.elsewhere (by rw [hp]; exact id)
  | @storeOwner x hp =>
    by_cases hx : g = x
    · subst g
      refine ⟨fun hd => ?_, fun _ hn => ?_⟩
      · rw [setSeg_at] at hd ⊢
        exact (hi.flags _ hg).clean hd
      · exact (hn tx (by simp [State.goto, Pc.frees])).elim
    · exact (hi.flags g hg).same (by rw [setSeg_off _ _ _ _ hx]; exact ⟨rfl, rfl, rfl, rfl, rfl⟩)
        fun _ => frees_elsewhere hf.elsewhere (by rw [hp]; exact fun he => hx he.symm)
  | @winDirty x ret hp =>
    by_cases hx : g = x
    · subst g
      exact .of_dirty (by rw [setSeg_at])
    · exact (hi.flags g hg).same (by rw [setSeg_off _ _ _ _ hx]; exact ⟨rfl, rfl, rfl, rfl, rfl⟩)
        fun _ => frees_elsewhere hf.elsewhere (by rw [hp]; exact fun he => hx he.symm)
  | @ownRollback c x base hp =>
    by_cases hx : g = x
    · subst g
      rw [hp] at ok
      exact .of_dirty (by rw [setSeg_at]; exact hi.lists.flagged _ ok.1)
    · exact (hi.flags g hg).same (by rw [setSeg_off _ _ _ _ hx]; exact ⟨rfl, rfl, rfl, rfl, rfl⟩)
        fun _ => frees_elsewhere hf.elsewhere (by rw [hp]; exact id)
  | @allocate size hp =>
    by_cases hx : g = s.region.nextSeg
    · subst g
      exact .of_dirty (by simp [State.goto, State.allocate, allocSegment])
    · have off : ((s.allocate tx size).goto tx
          (.returning (.allocated s.region.nextSeg))).region.seg g = s.region.seg g :=
        Region.setSeg_other _ _ _ hx
      have hold : g ∈ s.region.live := Finset.mem_of_mem_insert_of_ne hg hx
      exact (hi.flags g hold).same (by rw [off]; exact ⟨rfl, rfl, rfl, rfl, rfl⟩)
        fun _ => frees_elsewhere hf.elsewhere (by rw [hp]; exact id)

theorem Invariant.settled (hi : Invariant s) (tx : Tx) : Settled s tx := by
  intro g k src i hp no
  have ok := hi.ok tx
  rw [hp] at ok
  exact ((hi.word g ok.1 (k + i)).exclusive.write_refused no).1

theorem Invariant.micro [Zero W] (hm : Micro s tx t) (hi : Invariant s) : Invariant t where
  ledger := hi.ledger.frame hm.frame
  lists := hi.lists.micro hm fun g ret hp => by
    have ok := hi.ok tx
    rw [hp] at ok
    exact ok
  word _ hg := Word.micro hm hi hg
  passes := Passes.micro hm hi
  ahead := Ahead.micro hm hi
  flags _ := Flags.micro hm hi
  ok := PcOk.micro hm hi.lists hi.ok

/-- What a step in the batcher, or the start of a call, leaves alone. -/
structure Relabel (s t : State W) (tx : Tx) (p q : Pc W) : Prop where
  here : s.pc tx = p
  pc : t.pc = Function.update s.pc tx q
  seg : t.region.seg = s.region.seg
  live : t.region.live = s.region.live
  segLinks : t.region.segLinks = s.region.segLinks
  dirtySegLinks : t.region.dirtySegLinks = s.region.dirtySegLinks
  nextSeg : t.region.nextSeg = s.region.nextSeg
  passedRead : t.hist.passedRead = s.hist.passedRead
  passedWrite : t.hist.passedWrite = s.hist.passedWrite
  author : t.hist.author = s.hist.author
  wrote : t.hist.wrote = s.hist.wrote
  allocBy : t.hist.allocBy = s.hist.allocBy
  freeBy : t.hist.freeBy = s.hist.freeBy
  epochStart : t.hist.epochStart = s.hist.epochStart
  members : s.hist.members ⊆ t.hist.members

/-- The moves a `Relabel` stands for, with the contract of a call. -/
inductive Boundary (P : State W → Event W → Prop) (s : State W) (tx : Tx) :
    Pc W → Pc W → Prop where
  | enter : Boundary P s tx .outside .idle
  | wait : Boundary P s tx .outside .waiting
  | call {c} : P s (.call tx c) → Boundary P s tx .idle c.entry
  | abort {c} : Boundary P s tx (.leaveFailed c) .aborted
  | commit : Boundary P s tx .ending .committed

theorem PcOk.relabel {p q r : Pc W} (hr : Relabel s t tx p q) {u : Tx} (h : PcOk s u r) :
    PcOk t u r := by
  cases r <;> simp only [PcOk, hr.seg, hr.live, hr.dirtySegLinks, hr.passedRead,
    hr.passedWrite] at h ⊢ <;> exact h

theorem Invariant.relabel {p q : Pc W} (hi : Invariant s) (hr : Relabel s t tx p q)
    (hl : Ledger t) (hm : ∀ g, ¬ p.moves g) (hm' : ∀ g, ¬ q.moves g)
    (hp : ∀ g j, ¬ p.past g j) (hf : ∀ g, ¬ p.frees g)
    (hx : q.failed = false → p.failed = false) (ok : PcOk s tx q) : Invariant t := by
  have else_ : ∀ u, u ≠ tx → t.pc u = s.pc u := fun u hu => by simp [hr.pc, hu]
  have self : t.pc tx = q := by simp [hr.pc]
  have failed : ∀ u, (t.pc u).failed = false → (s.pc u).failed = false := by
    intro u hu
    by_cases he : u = tx
    · subst u
      rw [self] at hu
      rw [hr.here]
      exact hx hu
    · exact else_ u he ▸ hu
  have passed : ∀ u g i, Passed t u g i ↔ Passed s u g i := fun u g i => by
    simp [Passed, hr.passedRead, hr.passedWrite]
  refine ⟨hl, ?_, ?_, ?_, ?_, ?_, ?_⟩
  · refine hi.lists.frame hr.segLinks hr.dirtySegLinks hr.live hr.nextSeg
      (fun g => by rw [hr.seg]) ?_
    rw [hr.pc]
    exact Lists.moves_congr hr.here hm hm'
  · intro g hg i
    exact (hi.word g (hr.live ▸ hg) i).same (by simp [hr.seg])
      ⟨hr.author, hr.passedRead, hr.passedWrite⟩ failed
  · refine ⟨?_, ?_, ?_⟩
    · exact fun u g i hu => hr.members (hi.passes.member u g i ((passed u g i).mp hu))
    · intro u g i hu
      rw [hr.live, hr.seg]
      exact hi.passes.live u g i ((passed u g i).mp hu)
    · intro u g i hu
      rw [hr.passedWrite]
      exact hi.passes.author u g i (hr.author ▸ hu)
  · refine hi.ahead.same else_ (fun g hg => hr.seg ▸ hg) hr.passedRead hr.passedWrite ?_
    rintro g - ⟨v, j, hv⟩ hall
    have := hall v j hv
    rw [hr.here] at this
    exact (hp g j this).elim
  · intro g hg
    exact (hi.flags g (hr.live ▸ hg)).same (by simp [hr.seg])
      fun _ => frees_elsewhere else_ (by rw [hr.here]; exact hf g)
  · intro u
    by_cases hu : u = tx
    · subst u
      rw [self]
      exact ok.relabel hr
    · rw [else_ u hu]
      exact (hi.ok u).relabel hr

theorem PcOk.of_inactive {u : Tx} {p : Pc W} (h : p.active = false) : PcOk s u p := by
  cases p with
  | outside | waiting | committed | aborted => trivial
  | _ => cases h

theorem begin_relabel (P : State W → Event W → Prop) (hp : s.pc tx = .outside) :
    ∃ q, Relabel s (tmBegin s tx) tx .outside q ∧ Boundary P s tx .outside q := by
  by_cases hz : s.region.batcher.remaining = 0
  · refine ⟨.idle, ?_, .enter⟩
    rw [tmBegin, if_pos hz]
    exact ⟨hp, rfl, rfl, rfl, rfl, rfl, rfl, rfl, rfl, rfl, rfl, rfl, rfl, rfl,
      Finset.subset_insert _ _⟩
  · refine ⟨.waiting, ?_, .wait⟩
    rw [tmBegin, if_neg hz]
    exact ⟨hp, rfl, rfl, rfl, rfl, rfl, rfl, rfl, rfl, rfl, rfl, rfl, rfl, rfl,
      Finset.Subset.refl _⟩

theorem call_relabel {c : Call W} (hp : s.pc tx = .idle) :
    Relabel s (s.goto tx c.entry) tx .idle c.entry :=
  ⟨hp, rfl, rfl, rfl, rfl, rfl, rfl, rfl, rfl, rfl, rfl, rfl, rfl, rfl, Finset.Subset.refl _⟩

theorem stay_relabel (p : Pc W) (hb : lastToLeave s.region.batcher = false) :
    Relabel s (leave s tx p) tx (s.pc tx) p := by
  rw [Ledger.leave_staying hb]
  exact ⟨rfl, rfl, rfl, rfl, rfl, rfl, rfl, rfl, rfl, rfl, rfl, rfl, rfl, rfl,
    Finset.Subset.refl _⟩

theorem Invariant.boundary {p q : Pc W} (hi : Invariant s) (hr : Relabel s t tx p q)
    (hb : Boundary Lawful s tx p q) (hl : Ledger t) : Invariant t := by
  cases hb with
  | enter | wait | commit =>
    exact hi.relabel hr hl (fun _ => id) (fun _ => id) (fun _ _ => id) (fun _ => id)
      (fun _ => rfl) trivial
  | abort =>
    exact hi.relabel hr hl (fun _ => id) (fun _ => id) (fun _ _ => id) (fun _ => id)
      (fun h => by cases h) trivial
  | @call c hc =>
    refine hi.relabel hr hl (fun _ => id) ?_ (fun _ _ => id) (fun _ => id) (fun _ => rfl) ?_
    · cases c <;> exact fun _ => id
    · cases c with
      | alloc | finish => trivial
      | read | write | free => exact hc

/-- `tx` is about to close the epoch. -/
structure Closing (s : State W) (tx : Tx) (p : Pc W) : Prop where
  last : lastToLeave s.region.batcher = true
  here : (∃ c, s.pc tx = .leaveFailed c ∧ p = .aborted) ∨ (s.pc tx = .ending ∧ p = .committed)

namespace Closing

variable {p : Pc W}

theorem active (h : Closing s tx p) : (s.pc tx).active = true := by
  rcases h.here with ⟨c, hp, -⟩ | ⟨hp, -⟩ <;> rw [hp] <;> rfl

theorem left (h : Closing s tx p) : p = .committed ∨ p = .aborted := by
  rcases h.here with ⟨c, -, rfl⟩ | ⟨-, rfl⟩
  · exact .inr rfl
  · exact .inl rfl

theorem alone (h : Closing s tx p) (hi : Invariant s) {u : Tx} (hu : u ≠ tx) :
    (s.pc u).active = false := by
  have hs := hi.ledger.sole h.active h.last
  by_contra ha
  have := (hi.ledger.running u).mpr (by simpa using ha)
  rw [hs, Finset.mem_singleton] at this
  exact hu this

/-- Nobody is inside an operation. -/
theorem quiet (h : Closing s tx p) (hi : Invariant s) (u : Tx) (g : SegId) :
    ¬ (s.pc u).moves g ∧ ¬ (s.pc u).frees g ∧ ∀ j, ¬ (s.pc u).past g j := by
  by_cases hu : u = tx
  · subst u
    rcases h.here with ⟨c, hp, -⟩ | ⟨hp, -⟩ <;> rw [hp] <;> exact ⟨id, id, fun _ => id⟩
  · have := h.alone hi hu
    cases hp : s.pc u with
    | outside | waiting | committed | aborted => exact ⟨id, id, fun _ => id⟩
    | _ =>
      rw [hp] at this
      cases this

/-- Every segment with a marked word is on the dirty list when the epoch closes. -/
theorem marked_dirty (h : Closing s tx p) (hi : Invariant s) {u : Tx} {g : SegId} {i : ℕ}
    (hp : Passed s u g i) : g ∈ s.region.dirtySegLinks := by
  have hg := (hi.passes.live u g i hp).1
  rw [← hi.lists.dirty_iff (fun u g => (h.quiet hi u g).1) hg]
  by_contra hd
  obtain ⟨v, hv⟩ := hi.ahead g (by simpa using hd) ⟨u, i, hp⟩
  exact (h.quiet hi v g).2.2 i (hv u i hp)

theorem untouched (h : Closing s tx p) (hi : Invariant s) {g : SegId} (hg : g ∈ s.region.live)
    (hd : g ∉ s.region.dirtySegLinks) : Quiescent (s.region.seg g) := by
  have clean : (s.region.seg g).dirty = false := by
    rw [← hi.lists.dirty_iff (fun u g => (h.quiet hi u g).1) hg] at hd
    simpa using hd
  have word : ∀ i, _ := fun i =>
    (hi.word g hg i).untouched fun u hu => hd (h.marked_dirty hi hu)
  obtain ⟨hn, hr⟩ := (hi.flags g hg).clean clean
  obtain ⟨ho, hs⟩ := (hi.flags g hg).idle clean fun u => (h.quiet hi u g).2.1
  exact ⟨fun i => (word i).1, funext fun i => (word i).2, ho, hn, hs, clean, hr⟩

theorem region (h : Closing s tx p) : (leave s tx p).region = { epochCleanup s.region with
    batcher := BatcherState.leaveBatcher s.region.batcher } :=
  (congrArg State.region (Ledger.leave_closing h.last p)).trans (Lists.leave_batcher_last h.last)

theorem pc (h : Closing s tx p) (u : Tx) : (leave s tx p).pc u =
    if u ∈ s.region.batcher.waiters then .idle else Function.update s.pc tx p u := by
  rw [Ledger.leave_closing h.last]

theorem hist (h : Closing s tx p) : (leave s tx p).hist =
    .fresh s.region.batcher.waiters s.region.leaveBatcher := by
  rw [Ledger.leave_closing h.last]

/-- When the next epoch starts, every transaction is idle or outside the batcher. -/
theorem idle (h : Closing s tx p) (hi : Invariant s) (u : Tx) :
    (leave s tx p).pc u = .idle ∨ ((leave s tx p).pc u).active = false := by
  rw [h.pc]
  split_ifs with hw
  · exact .inl rfl
  · by_cases he : u = tx
    · subst u
      rw [Function.update_self]
      rcases h.left with rfl | rfl <;> exact .inr rfl
    · rw [Function.update_of_ne he]
      exact .inr (h.alone hi he)

/-- A segment that outlives the epoch: either it was untouched or the cleanup reset it. -/
theorem survives (h : Closing s tx p) (hi : Invariant s) {g : SegId} :
    g ∈ (leave s tx p).region.live ↔
      g ∈ s.region.live ∧ ¬ (g ∈ s.region.dirtySegLinks ∧ (s.region.seg g).dropped = true) := by
  rw [h.region]
  exact hi.lists.cleanup_live

theorem seg (h : Closing s tx p) (hi : Invariant s) {g : SegId}
    (hg : g ∈ (leave s tx p).region.live) : (leave s tx p).region.seg g =
      if g ∈ s.region.dirtySegLinks then (s.region.seg g).commit.resetFlags
      else s.region.seg g := by
  rw [h.region] at hg ⊢
  exact hi.lists.cleanup_seg hg

theorem quiescent (h : Closing s tx p) (hi : Invariant s) {g : SegId}
    (hg : g ∈ (leave s tx p).region.live) : Quiescent ((leave s tx p).region.seg g) := by
  rw [h.seg hi hg]
  split_ifs with hd
  · exact commit_quiescent _
  · exact h.untouched hi ((h.survives hi).mp hg).1 hd

theorem invariant (h : Closing s tx p) (hi : Invariant s) : Invariant (leave s tx p) := by
  have none : ∀ u g i, ¬ Passed (leave s tx p) u g i := by
    intro u g i hu
    rw [Passed, h.hist] at hu
    simp [History.fresh] at hu
  have author : ∀ g i, (leave s tx p).hist.author g i = Option.none := by
    intro g i
    rw [h.hist]
    rfl
  refine ⟨hi.ledger.close h.active h.last h.left, ?_, ?_, ?_, ?_, ?_, ?_⟩
  · refine hi.lists.close (fun u g => (h.quiet hi u g).1) h.last fun g => ?_
    rcases h.left with rfl | rfl <;> exact id
  · intro g hg i
    have hq := h.quiescent hi hg
    exact .reset (hq.control i) (congrFun hq.equal i) (fun u => none u g i) (author g i)
  · exact ⟨fun u g i hu => (none u g i hu).elim, fun u g i hu => (none u g i hu).elim,
      fun u g i hu => by simp [author] at hu⟩
  · rintro g - ⟨u, i, hu⟩
    exact (none u g i hu).elim
  · intro g hg
    have hq := h.quiescent hi hg
    exact ⟨fun _ => ⟨hq.newlyAlloc, hq.rollback⟩, fun _ _ => ⟨hq.owner, hq.shouldFree⟩⟩
  · intro u
    rcases h.idle hi u with hu | hu
    · rw [hu]
      trivial
    · exact PcOk.of_inactive hu

end Closing

end preserved

private theorem initial_invariant [Zero W] (size : ℕ) : Invariant (initial size : State W) := by
  have none : ∀ u g i, ¬ Passed (initial size : State W) u g i := by
    intro u g i hu
    simp [Passed, initial, History.fresh] at hu
  refine ⟨Ledger.initial_ledger size, Lists.initial_lists size, ?_, ?_, ?_, ?_, ?_⟩
  · exact fun g _ i => .reset rfl rfl (fun u => none u g i) rfl
  · exact ⟨fun u g i hu => (none u g i hu).elim, fun u g i hu => (none u g i hu).elim,
      fun u g i hu => by simp [initial, History.fresh] at hu⟩
  · rintro g - ⟨u, i, hu⟩
    exact (none u g i hu).elim
  · exact fun g _ => ⟨fun _ => ⟨rfl, rfl⟩, fun _ _ => ⟨rfl, rfl⟩⟩
  · exact fun u => PcOk.of_inactive rfl

theorem Closing.of_leave {s t : State W} {tx : Tx}
    (h : (∃ c, s.pc tx = .leaveFailed c ∧ t = leave s tx .aborted) ∨
      (s.pc tx = .ending ∧ t = leave s tx .committed)) :
    ∃ p, t = leave s tx p ∧ (∀ P, Boundary P s tx (s.pc tx) p) ∧
      (s.pc tx).active = true ∧ (p = .committed ∨ p = .aborted) ∧
      (lastToLeave s.region.batcher = true → Closing s tx p) := by
  rcases h with ⟨c, hp, rfl⟩ | ⟨hp, rfl⟩ <;> rw [hp]
  · exact ⟨_, rfl, fun _ => .abort, rfl, .inr rfl, fun hl => ⟨hl, .inl ⟨c, hp, rfl⟩⟩⟩
  · exact ⟨_, rfl, fun _ => .commit, rfl, .inl rfl, fun hl => ⟨hl, .inr ⟨hp, rfl⟩⟩⟩

theorem closing_step [Zero W] {s t : State W} {e : Event W} (hs : step s e = some t)
    (hc : ClosesEpoch s e) : ∃ tx p, Closing s tx p ∧ t = leave s tx p := by
  cases e with
  | begin tx | call tx c => exact hc.elim
  | advance tx =>
    obtain ⟨hp | hp, hl⟩ := hc
    · obtain ⟨c, hp⟩ := hp
      simp only [step, advance, hp, Option.some.injEq] at hs
      exact ⟨tx, .aborted, ⟨hl, .inl ⟨c, hp, rfl⟩⟩, hs.symm⟩
    · simp only [step, advance, hp, Option.some.injEq] at hs
      exact ⟨tx, .committed, ⟨hl, .inr ⟨hp, rfl⟩⟩, hs.symm⟩

theorem step_preserves [Zero W] {s t : State W} {e : Event W} (hi : Invariant s)
    (hc : Lawful s e) (h : step s e = some t) : Invariant t := by
  rcases step_cases h with ⟨tx, rfl, hp, rfl⟩ | ⟨tx, c, rfl, hp, rfl⟩ | ⟨tx, rfl, h⟩
  · obtain ⟨q, hr, hb⟩ := begin_relabel Lawful hp
    exact hi.boundary hr hb (hi.ledger.begin hp hc.1 hc.2)
  · exact hi.boundary (call_relabel hp) (.call hc) (hi.ledger.frame (frame_goto
      (by rw [hp]; rfl) c.entry_active (by simp [hp, Pc.failed])))
  · rcases advance_cases (hi.settled tx) h with hm | hleave
    · exact hi.micro hm
    · obtain ⟨p, rfl, hb, ha, hq, hclose⟩ := Closing.of_leave hleave
      cases hl : lastToLeave s.region.batcher with
      | true => exact (hclose hl).invariant hi
      | false => exact hi.boundary (stay_relabel p hl) (hb Lawful) (hi.ledger.stay ha hl hq)

theorem reachable_invariant [Zero W] {size : ℕ} {s : State W}
    (h : Reachable (system W size) Lawful s) : Invariant s := by
  refine h.invariant ?_ fun s e t hi hc ht => step_preserves hi hc ht
  rintro s rfl
  exact initial_invariant size

/-- The rule for further invariants: micro steps, boundaries of calls, closing an epoch. -/
theorem reachable_with [Zero W] {size : ℕ} {P : State W → Event W → Prop} {J : State W → Prop}
    (lawful : ∀ s e, P s e → Lawful s e) (start : J (initial size))
    (micro : ∀ s t tx, Invariant s → J s → P s (.advance tx) → Micro s tx t → J t)
    (boundary : ∀ s t tx p q, Invariant s → J s → Relabel s t tx p q → Boundary P s tx p q → J t)
    (close : ∀ s tx p, Invariant s → J s → Closing s tx p → J (leave s tx p))
    {s : State W} (h : Reachable (system W size) P s) : J s := by
  refine h.invariant_under (I := Invariant) (fun s hs => reachable_invariant (hs.mono lawful))
    ?_ ?_
  · rintro s rfl
    exact start
  · intro s e t hi hj hc h
    rcases step_cases h with ⟨tx, rfl, hp, rfl⟩ | ⟨tx, c, rfl, hp, rfl⟩ | ⟨tx, rfl, h⟩
    · obtain ⟨q, hr, hb⟩ := begin_relabel P hp
      exact boundary _ _ _ _ _ hi hj hr hb
    · exact boundary _ _ _ _ _ hi hj (call_relabel hp) (.call hc)
    · rcases advance_cases (hi.settled tx) h with hm | hleave
      · exact micro _ _ _ hi hj hc hm
      · obtain ⟨p, rfl, hb, -, -, hclose⟩ := Closing.of_leave hleave
        cases hl : lastToLeave s.region.batcher with
        | true => exact close _ _ _ hi hj (hclose hl)
        | false => exact boundary _ _ _ _ _ hi hj (stay_relabel p hl) (hb P)

end LockLevel
