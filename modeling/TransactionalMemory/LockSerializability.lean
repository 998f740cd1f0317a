import TransactionalMemory.WordLog

/-! # Serializability at lock granularity

In runs where no rollback overlooks a segment, the calls that the committed transactions saw
answered are those of a serial run on plain memory, epoch by epoch. -/
namespace LockSerializability

open TransitionSystem
open BatcherState
open ControlWord
open RegionState
open LockLevel
open CallLog
open CommutingSteps
open PlainMemory
open SerialViews
open SerialRuns
open Serializability (committedFrees mem_committedFrees writersOf mem_writersOf)
open AnsweredCalls (Known Standing Client note answered closes freedBefore)
open PendingCalls (Answers)
open CallWords
open WordLog

variable {W : Type*} {s t : State W} {tx u : Tx} {words : Log W} {dead : List SegId}

/-- `words` are the accesses of the running epoch. -/
structure Written [DecidableEq W] [Zero W] (s : State W) (dead : List SegId) (words : Log W) :
    Prop where
  filed : Filed s words
  serial : Serial words s.region dead
  fits : ∀ u, Fits s dead u (s.pc u)
  began : ∀ u ∈ s.hist.members, s.pc u ≠ .outside ∧ s.pc u ≠ .waiting
  rolled : ∀ g ∈ s.region.live, (s.region.seg g).rollback = true →
    ∀ u, s.hist.allocBy g = some u → (s.pc u).failed = true

/-! ### One step -/

/-- Only the owner of a segment flags it as rolled back. -/
theorem rolled_micro [Zero W] (hi : Invariant s) (ho : Origins s) (hm : Micro s tx t)
    (h : ∀ g ∈ s.region.live, (s.region.seg g).rollback = true →
      ∀ u, s.hist.allocBy g = some u → (s.pc u).failed = true)
    {g : SegId} (hg : g ∈ t.region.live) (hr : (t.region.seg g).rollback = true)
    (hu : t.hist.allocBy g = some u) : (t.pc u).failed = true := by
  have hf := hm.frame
  have stay : ∀ {u}, (s.pc u).failed = true → (t.pc u).failed = true := by
    intro u hfail
    by_contra hno
    rw [hf.failed_mono (by simpa using hno)] at hfail
    cases hfail
  have old : g ∈ s.region.live → (s.region.seg g).rollback = true →
      (t.pc u).failed = true := by
    intro hg hr
    rw [hf.allocBy_live hi.lists hg] at hu
    exact stay (h g hg hr u hu)
  have same : ∀ {x : SegId} {seg : Segment W}, seg.rollback = (s.region.seg x).rollback →
      (Function.update s.region.seg x seg g).rollback = (s.region.seg g).rollback :=
    fun he => update_proj Segment.rollback he g
  cases hm with
  | pcOnly | listMove => exact old hg hr
  | passRead | passWrite | copyWord | storeFree | storeOwner | winDirty | restoreWord =>
    exact old hg ((same (by rfl)).symm.trans hr)
  | @allocate size hp =>
    by_cases hx : g = s.region.nextSeg
    · subst g
      simp [State.goto, State.allocate, allocSegment] at hr
    · have off : ((s.allocate tx size).goto tx
          (.returning (.allocated s.region.nextSeg))).region.seg g = s.region.seg g :=
        Region.setSeg_other _ _ _ hx
      exact old (Finset.mem_of_mem_insert_of_ne hg hx) (off ▸ hr)
  | @ownRollback c x base hp howner =>
    by_cases hx : g = x
    · subst g
      have hux : u = tx := ((ho.seg x hg).owner u hu).symm.trans howner
      subst u
      simp [State.goto, Pc.failed]
    · rw [setSeg_off _ _ _ _ hx] at hr
      exact old hg hr

/-- At the boundary of a call or of a transaction only a commit is noted. -/
theorem filed_boundary {P : State W → Event W → Prop} {p q : Pc W} (h : Filed s words)
    (hr : Relabel s t tx p q) (hb : Boundary P s tx p q)
    (hmem : ∀ u ∈ t.hist.members, u ∈ s.hist.members ∨ u = tx)
    (hin : p ≠ .outside → tx ∈ s.hist.members) : Filed t (words ++ note tx (noted p q)) := by
  have self : t.pc tx = q := by rw [hr.pc, Function.update_self]
  have other : ∀ u, u ≠ tx → t.pc u = s.pc u := fun u hu => by
    rw [hr.pc, Function.update_of_ne hu]
  have passed : ∀ u g i, Passed t u g i ↔ Passed s u g i := fun u g i => by
    rw [Passed, Passed, hr.passedRead, hr.passedWrite]
  have far : ∀ u, u ≠ tx → (u ∈ t.hist.members ↔ u ∈ s.hist.members) := fun u hu =>
    ⟨fun h => (hmem u h).resolve_right hu, fun h => hr.members h⟩
  have hnote : (noted p q = none ∧ q ≠ .committed) ∨
      (noted p q = some .commit ∧ p = .ending ∧ q = .committed) := by
    cases hb with
    | commit => exact .inr ⟨rfl, rfl, rfl⟩
    | @call c => cases c <;> exact .inl ⟨rfl, by simp [Call.entry]⟩
    | _ => exact .inl ⟨rfl, by simp⟩
  have hfail : (tx ∈ s.hist.members ∧ p.failed = true) ↔
      (tx ∈ t.hist.members ∧ q.failed = true) := by
    cases hb with
    | abort => exact and_congr_left fun _ => ⟨fun h => hr.members h, fun _ => hin (by simp)⟩
    | @call c => cases c <;> simp [Pc.failed, Call.entry]
    | _ => simp [Pc.failed]
  have hopen : p ≠ .committed := by
    cases hb <;> simp
  have plain : ∀ {e}, noted p q = some e → e = .commit := by
    intro e he
    rcases hnote with ⟨hn, -⟩ | ⟨hn, -⟩ <;> rw [hn] at he <;> cases he
    rfl
  refine ⟨fun g => ?_, fun u g => ?_, fun u e hin' => ?_, fun u e g i hin' hro ha => ?_,
    fun u e g i hin' hs => ?_, fun u e g hin' hc => ?_, fun u => ?_, fun u => ?_⟩
  · rw [hr.allocBy, ← h.alloc]
    rcases hnote with ⟨hn, -⟩ | ⟨hn, -⟩
    · rw [hn, note_none, List.append_nil]
    · rw [hn, note_some]
      exact allocator_snoc (by simp)
  · rw [mem_note, h.free, hr.freeBy, or_iff_left]
    rintro ⟨-, he⟩
    cases plain he
  · rcases mem_note.mp hin' with hold | ⟨hu, he⟩
    · exact hr.members (h.member u e hold)
    · have hu' : u = tx := hu
      subst u
      refine hr.members (hin ?_)
      rcases hnote with ⟨hn, -⟩ | ⟨-, hp, -⟩
      · rw [hn] at he
        cases he
      · simp [hp]
  · rw [passed]
    rcases mem_note.mp hin' with hold | ⟨-, he⟩
    · exact h.passed u e g i hold hro ha
    · cases plain he
      cases ha
  · rw [hr.passedWrite]
    rcases mem_note.mp hin' with hold | ⟨-, he⟩
    · exact h.stored u e g i hold hs
    · cases plain he
      cases hs
  · rw [hr.live]
    rcases mem_note.mp hin' with hold | ⟨-, he⟩
    · exact h.claimed u e g hold hc
    · cases plain he
      cases hc
  · rw [mem_note, h.abort, or_iff_left]
    · by_cases hu : u = tx
      · subst u
        rw [self, hr.here]
        exact hfail
      · rw [far u hu, other u hu]
    · rintro ⟨-, he⟩
      cases plain he
  · rw [mem_note, h.commit]
    by_cases hu : u = tx
    · subst u
      rw [self, hr.here]
      rcases hnote with ⟨hn, hq⟩ | ⟨hn, hp, hq⟩
      · simp [hn, hopen, hq]
      · rw [hn]
        simp [hq, hr.members (hin (by simp [hp]))]
    · simp [far u hu, other u hu, hu]

section steps

variable [DecidableEq W] [Zero W]

theorem Written.micro (h : Written s dead words) (hk : Known s)
    (hfresh : s.region.nextSeg ∉ dead) (hm : Micro s tx t) :
    Written t dead (words ++ note tx (noted (s.pc tx) (t.pc tx))) where
  filed := h.filed.micro hk.invariant hm (deed_micro hk.invariant hk.reads (h.fits tx) hm)
  serial := serial_micro hk (h.fits tx) hfresh h.filed h.serial hm
  fits := fits_micro hk.invariant hk.origins hm h.fits
  began u hu := by
    have hf := hm.frame
    by_cases hx : u = tx
    · subst u
      exact ⟨Ledger.ne_outside hf.runs.2, Ledger.ne_waiting hf.runs.2⟩
    · rw [hf.elsewhere u hx]
      exact h.began u (hf.members ▸ hu)
  rolled g hg hr u hu := rolled_micro hk.invariant hk.origins hm h.rolled hg hr hu

/-- The contract that a boundary needs: accesses to segments still standing, by read-write
transactions where they do more than read. -/
def Decent (dead : List SegId) (_ : State W) : Event W → Prop
  | .call tx (.free g) => g ∉ dead ∧ isTxReadonly tx = false
  | .call _ (.read g ..) | .call _ (.write g ..) => g ∉ dead
  | .call tx (.alloc ..) => isTxReadonly tx = false
  | _ => True

theorem Written.boundary (h : Written s dead words) {p q : Pc W} (hr : Relabel s t tx p q)
    (hb : Boundary (Decent dead) s tx p q)
    (hmem : ∀ u ∈ t.hist.members, u ∈ s.hist.members ∨ u = tx ∧ q ≠ .waiting)
    (hin : p ≠ .outside → tx ∈ s.hist.members) :
    Written t dead (words ++ note tx (noted p q)) := by
  have self : t.pc tx = q := by rw [hr.pc, Function.update_self]
  have other : ∀ u, u ≠ tx → t.pc u = s.pc u := fun u hu => by
    rw [hr.pc, Function.update_of_ne hu]
  have hq : q ≠ .outside := by
    cases hb with
    | @call c => cases c <;> simp [Call.entry]
    | _ => simp
  have mine : ∀ u g, t.mine u g ↔ s.mine u g := fun u g => by
    rw [State.mine, State.mine, hr.allocBy]
  have fits : ∀ u p, Fits s dead u p → Fits t dead u p := by
    intro u p hfit
    cases p with
    | markWrite | copyWrite => exact ⟨hfit.1, (mine _ _).mpr hfit.2⟩
    | _ => exact hfit
  have seen : ∀ U, view words t.region dead U = view words s.region dead U := fun U =>
    view_congr hr.live (fun _ _ => rfl) (fun _ _ _ => Iff.rfl) fun x _ => by
      rw [hr.seg]
      exact ⟨rfl, rfl⟩
  have same : Serial words t.region dead := Serial.congr h.serial fun U _ => seen U
  refine ⟨filed_boundary h.filed hr hb (fun u hu => (hmem u hu).imp_right And.left) hin, ?_,
    fun u => ?_, fun u hu => ?_, fun g hg hroll u hu => ?_⟩
  · cases hb with
    | commit => exact same.commit tx
    | @call c => cases c <;> simpa [noted, Call.entry] using same
    | _ => simpa [noted] using same
  · by_cases hu : u = tx
    · subst u
      rw [self]
      cases hb with
      | @call c hc => cases c <;> exact hc
      | _ => trivial
    · rw [other u hu]
      exact fits u _ (h.fits u)
  · by_cases hx : u = tx
    · subst u
      rw [self]
      refine ⟨hq, fun hw => ?_⟩
      rcases hmem tx hu with hold | ⟨-, hno⟩
      · -- who waits was outside, so no member of the epoch
        have hp : q = .waiting → p = .outside := by
          cases hb with
          | wait => exact fun _ => rfl
          | @call c => cases c <;> simp [Call.entry]
          | _ => simp
        exact (h.began tx hold).1 (hr.here.trans (hp hw))
      · exact hno hw
    · rw [other u hx]
      exact h.began u ((hmem u hu).resolve_right fun hy => hx hy.1)
  · rw [hr.seg] at hroll
    rw [hr.allocBy] at hu
    have hfail := h.rolled g (hr.live ▸ hg) hroll u hu
    by_cases hx : u = tx
    · subst u
      rw [self]
      rw [hr.here] at hfail
      cases hb with
      | abort => rfl
      | _ => cases hfail
    · rw [other u hx]
      exact hfail

end steps

/-! ### The end of an epoch -/

section closing

variable [DecidableEq W] [Zero W] {p : Pc W} {g : SegId} {order : List Tx}

omit [DecidableEq W] [Zero W] in
theorem goto_relabel (s : State W) (tx : Tx) (p : Pc W) :
    Relabel s (s.goto tx p) tx (s.pc tx) p :=
  ⟨rfl, rfl, rfl, rfl, rfl, rfl, rfl, rfl, rfl, rfl, rfl, rfl, rfl, rfl, Finset.Subset.refl _⟩

omit [DecidableEq W] [Zero W] in
theorem failed_before (hc : Closing s tx p) (hf : ((s.goto tx p).pc u).failed = true) :
    (s.pc u).failed = true := by
  by_cases hu : u = tx
  · subst u
    rcases hc.here with ⟨c, hp, -⟩ | ⟨-, rfl⟩
    · rw [hp]
      rfl
    · simp [State.goto, Pc.failed] at hf
  · simpa [State.goto, hu] using hf

/-- Everyone who took part has committed or aborted. -/
theorem closing_ended (hc : Closing s tx p) (hi : Invariant s)
    (hw : Written (s.goto tx p) dead words) (hu : u ∈ s.hist.members) :
    (u, .commit) ∈ words ∨ ((u, .abort) ∈ words ∧ (s.pc u).failed = true) := by
  have hout := hw.began u hu
  have hleft : ((s.goto tx p).pc u).active = false := by
    by_cases hx : u = tx
    · subst u
      rcases hc.left with rfl | rfl <;> simp [State.goto, Pc.active]
    · simpa [State.goto, hx] using hc.alone hi hx
  cases hp : (s.goto tx p).pc u with
  | outside => exact (hout.1 hp).elim
  | waiting => exact (hout.2 hp).elim
  | committed => exact .inl ((hw.filed.commit u).mpr ⟨hu, hp⟩)
  | aborted =>
    have hf : ((s.goto tx p).pc u).failed = true := by rw [hp]; rfl
    exact .inr ⟨(hw.filed.abort u).mpr ⟨hu, hf⟩, failed_before hc hf⟩
  | _ =>
    rw [hp] at hleft
    cases hleft

theorem closing_ends (hc : Closing s tx p) (hi : Invariant s)
    (hw : Written (s.goto tx p) dead words) :
    AtomicCalls.Ends (words.map Prod.fst).toFinset ∅ words where
  logged u e hin := by
    rw [List.mem_toFinset, List.mem_map]
    exact ⟨(u, e), hin, rfl⟩
  running := by simp
  ended u e hin := by
    rcases closing_ended hc hi hw (hw.filed.member u e hin) with h | h
    · exact .inr (.inl h)
    · exact .inr (.inr h.1)
  once u hcommit habort := by
    have hp := ((hw.filed.commit u).mp hcommit).2
    have hf := ((hw.filed.abort u).mp habort).2
    rw [hp] at hf
    cases hf

/-- A member that has not failed is among the committed. -/
theorem committed_of_standing (hc : Closing s tx p) (hi : Invariant s)
    (hw : Written (s.goto tx p) dead words) (hu : u ∈ s.hist.members)
    (hf : (s.pc u).failed = false) : (u, .commit) ∈ words := by
  rcases closing_ended hc hi hw hu with h | ⟨-, h⟩
  · exact h
  · rw [hf] at h
    cases h

/-- The write copies hold what the committed writers stored. -/
theorem closing_visible (hk : Known s) (hc : Closing s tx p)
    (hw : Written (s.goto tx p) dead words) (ho : SerialOrder words order)
    (hg : g ∈ s.region.live) :
    visible (writersOf order) (s.region.seg g) = (s.region.seg g).write := by
  funext i
  have word := hk.invariant.word g hg i
  cases hwr : ((s.region.seg g).control i).written with
  | false => simpa [visible, hwr] using (word.equal hwr).1.symm
  | true =>
    have hpass := word.traced.written hwr
    obtain ⟨-, hlt⟩ := hk.invariant.passes.live _ g i (.inr hpass)
    have hmem := hk.invariant.passes.member _ g i (.inr hpass)
    have hrun : (s.pc ((s.region.seg g).control i).access).failed = false := by
      by_contra hf
      have clean := AbortAtomicity.closing_clean hk.invariant hk.rollbacks hc
        (by simpa using hf) g hg
      exact clean.words i hlt ⟨hwr, rfl⟩
    have hrw : isTxReadonly ((s.region.seg g).control i).access = false := by
      by_contra hro
      exact (hk.reads.readOnly _ (by simpa using hro)).2 g i hpass
    have hin := (mem_writersOf ho).mpr
      ⟨committed_of_standing hc hk.invariant hw hmem hrun, hrw⟩
    simp [visible, hwr, hin]

omit [DecidableEq W] [Zero W] in
theorem dropped_cases {seg : Segment W} : seg.dropped = true ↔
    (seg.rollback = false ∧ seg.shouldFree = true) ∨
      (seg.rollback = true ∧ seg.newlyAlloc = true) := by
  cases hr : seg.rollback <;> simp [Segment.dropped, Segment.successFree, Segment.failureAlloc, hr]

/-- Who allocated or freed a segment and has committed is a writer. -/
theorem writer_of_claim (hw : Written s dead words) (ho : SerialOrder words order)
    {e : Entry W} (he : (u, e) ∈ words) (hclaim : e.claims ≠ none)
    (hcommit : (u, .commit) ∈ words) : u ∈ writersOf order := by
  refine (mem_writersOf ho).mpr ⟨hcommit, ?_⟩
  by_contra hro
  exact hclaim (hw.serial.readonly u e he (by simpa using hro)).1

/-- A segment that the cleanup drops was freed by a committed transaction or allocated by an
aborted one. -/
theorem closing_dropped (hk : Known s) (hc : Closing s tx p)
    (hw : Written (s.goto tx p) dead words) (ho : SerialOrder words order)
    (hg : g ∈ s.region.live) (hd : (s.region.seg g).dropped = true) :
    (∃ u ∈ writersOf order, (u, .free g) ∈ words) ∨
      ∃ u, allocator words g = some u ∧ u ∉ writersOf order := by
  have hi := hk.invariant
  rcases dropped_cases.mp hd with ⟨hr, hs⟩ | ⟨hr, hn⟩
  · rcases hk.rollbacks.freed g hg hs with ⟨u, hu⟩ | hin
    · exact ((hc.quiet hi u g).2.1 (by rw [hu]; rfl)).elim
    · have hfree := (hw.filed.free _ g).mpr hin
      have hmem : (s.region.seg g).owner ∈ s.hist.members := hw.filed.member _ _ hfree
      have hrun : (s.pc (s.region.seg g).owner).failed = false := by
        by_contra hf
        have clean := AbortAtomicity.closing_clean hi hk.rollbacks hc (by simpa using hf) g hg
        rw [clean.owner rfl] at hr
        cases hr
      have hcommit := committed_of_standing hc hi hw hmem hrun
      exact .inl ⟨_, writer_of_claim hw ho hfree (by simp [Entry.claims]) hcommit, hfree⟩
  · have hnew := (hk.origins.seg g hg).new
    rw [hn] at hnew
    obtain ⟨u, hu⟩ := Option.isSome_iff_exists.mp hnew.symm
    refine .inr ⟨u, by rw [hw.filed.alloc]; exact hu, fun hin => ?_⟩
    have hfail := hw.rolled g hg hr u hu
    rw [((hw.filed.commit u).mp ((mem_writersOf ho).mp hin).1).2] at hfail
    cases hfail

/-- The new segments of an aborted transaction are dropped. -/
theorem closing_allocated (hk : Known s) (hc : Closing s tx p)
    (hw : Written (s.goto tx p) dead words) (ho : SerialOrder words order)
    (hg : g ∈ (leave s tx p).region.live) (hu : allocator words g = some u) :
    u ∈ writersOf order := by
  have hi := hk.invariant
  obtain ⟨hlive, hkeep⟩ := (hc.survives hi).mp hg
  obtain ⟨n, hin⟩ := mem_of_allocator hu
  have horigin := hk.origins.seg g hlive
  have halloc : s.hist.allocBy g = some u := (hw.filed.alloc g).symm.trans hu
  have hnew : (s.region.seg g).newlyAlloc = true := by rw [horigin.new, halloc]; rfl
  have hrun : (s.pc u).failed = false := by
    by_contra hf
    have clean := AbortAtomicity.closing_clean hi hk.rollbacks hc (by simpa using hf) g hlive
    have hroll := clean.owner (horigin.owner u halloc)
    refine hkeep ⟨?_, dropped_cases.mpr (.inr ⟨hroll, hnew⟩)⟩
    rw [← hi.lists.dirty_iff (fun u g => (hc.quiet hi u g).1) hlive]
    by_contra hd
    rw [((hi.flags g hlive).clean (by simpa using hd)).1] at hnew
    cases hnew
  have hcommit := committed_of_standing hc hi hw (hw.filed.member u _ hin) hrun
  exact writer_of_claim hw ho hin (by simp [Entry.claims]) hcommit

theorem closing_survives (hk : Known s) (hc : Closing s tx p)
    (hw : Written (s.goto tx p) dead words) (ho : SerialOrder words order) :
    (g ∈ (leave s tx p).region.live ∧ g ∉ dead ∧ g ∉ committedFrees words) ↔
      (g ∈ s.region.live ∧ g ∉ dead ∧ (allocator words g).all (· ∈ writersOf order) = true) ∧
        ¬ ∃ u ∈ writersOf order, (u, .free g) ∈ words := by
  have hfreed : (∃ u ∈ writersOf order, (u, .free g) ∈ words) ↔ g ∈ committedFrees words := by
    rw [mem_committedFrees]
    constructor
    · rintro ⟨u, hu, hf⟩
      exact ⟨u, ((mem_writersOf ho).mp hu).1, hf⟩
    · rintro ⟨u, hcommit, hf⟩
      exact ⟨u, writer_of_claim hw ho hf (by simp [Entry.claims]) hcommit, hf⟩
  rw [hfreed]
  constructor
  · rintro ⟨hg, hd, hno⟩
    refine ⟨⟨((hc.survives hk.invariant).mp hg).1, hd, ?_⟩, hno⟩
    cases ha : allocator words g with
    | none => rfl
    | some u => simpa using closing_allocated hk hc hw ho hg ha
  · rintro ⟨⟨hg, hd, hall⟩, hno⟩
    refine ⟨(hc.survives hk.invariant).mpr ⟨hg, fun hdrop => ?_⟩, hd, hno⟩
    rcases closing_dropped hk hc hw ho hg hdrop.2 with hf | ⟨u, ha, hu⟩
    · exact hno (hfreed.mp hf)
    · rw [ha] at hall
      exact hu (by simpa using hall)

/-- The cleanup leaves what the committed writers leave. -/
theorem closing_view (hk : Known s) (hc : Closing s tx p)
    (hw : Written (s.goto tx p) dead words) (ho : SerialOrder words order) {dead' : List SegId}
    (hdead : ∀ g, g ∈ dead' ↔ g ∈ dead ∨ g ∈ committedFrees words) :
    view ([] : Log W) (leave s tx p).region dead' ∅ =
      endEpoch (view words s.region dead (writersOf order)) := by
  funext g
  have hiff := closing_survives (g := g) hk hc hw ho
  have hsplit : g ∉ dead' ↔ g ∉ dead ∧ g ∉ committedFrees words := by
    rw [hdead, not_or]
  by_cases hs : g ∈ (leave s tx p).region.live ∧ g ∉ dead'
  · obtain ⟨⟨hg, hd, hall⟩, hfree⟩ := hiff.mp ⟨hs.1, hsplit.mp hs.2⟩
    have hseg := hc.seg hk.invariant hs.1
    have hsize : ((leave s tx p).region.seg g).size = (s.region.seg g).size := by
      rw [hseg]
      split_ifs <;> rfl
    have hread : ((leave s tx p).region.seg g).read = (s.region.seg g).write := by
      rw [hseg]
      split_ifs with hdirty
      · rfl
      · exact (hc.untouched hk.invariant hg hdirty).equal.symm
    have hnone : ∀ u, allocator ([] : Log W) g = some u → u ∈ (∅ : Finset Tx) := by
      simp [allocator]
    rw [endEpoch, view_some hs.1 hs.2 hnone, show view words s.region dead (writersOf order) g =
      some ⟨(s.region.seg g).size, visible (writersOf order) (s.region.seg g), false⟩ from by
        rw [view, if_pos ⟨hg, hd, hall⟩, decide_eq_false hfree]]
    rw [closing_visible hk hc hw ho hg, hsize, visible_empty, hread]
    simp [Option.filter]
  · have hl : view ([] : Log W) (leave s tx p).region dead' ∅ g = none :=
      if_neg fun h => hs ⟨h.1, h.2.1⟩
    rw [hl, endEpoch, view]
    split_ifs with hin
    · have hfree : ∃ u ∈ writersOf order, (u, .free g) ∈ words := by
        by_contra hno
        obtain ⟨hg, hd⟩ := hiff.mpr ⟨hin, hno⟩
        exact hs ⟨hg, hsplit.mpr hd⟩
      simp [hfree, Option.filter]
    · rfl

end closing

/-! ### Runs -/

section runs

variable [DecidableEq W] [Zero W] {x y : AnsweredCalls.State W} {size : ℕ} {log : Log W}

/-- The serial runs of the closed epochs, and what is logged of the running one. -/
structure Consistent (size : ℕ) (x : AnsweredCalls.State W) (words : Log W) : Prop where
  written : Written x.lock (freedBefore x) words
  told : Told x.lock.pc x.pending x.log words
  old : ∀ g ∈ freedBefore x, g < x.lock.region.nextSeg
  replay : ∀ orders, List.Forall₂ SerialOrder x.closed orders →
    (x.closed.zip orders).foldlM runEpoch (initialMemory size) = some (AnsweredCalls.committed x)

/-- A step inside the epoch moves nothing that was there when it began. -/
theorem committed_micro (hi : Invariant x.lock) (hm : Micro x.lock tx y.lock)
    (hfreed : freedBefore y = freedBefore x) :
    AnsweredCalls.committed y = AnsweredCalls.committed x := by
  have hf := hm.frame
  have hold : ∀ g ∈ y.lock.region.live, y.lock.hist.allocBy g = none → g ∈ x.lock.region.live := by
    intro g hg ha
    generalize y.lock = t at *
    cases hm with
    | allocate =>
      refine Finset.mem_of_mem_insert_of_ne hg ?_
      rintro rfl
      simp [State.goto, State.allocate] at ha
    | _ => exact hg
  funext g
  rw [AnsweredCalls.committed, AnsweredCalls.committed, hfreed]
  by_cases hg : g ∈ x.lock.region.live
  · have kept := hf.live_seg hi.lists hg
    rw [hf.allocBy_live hi.lists hg, kept.size, kept.read]
    simp [hg, hf.live hg]
  · rw [if_neg fun h => hg (hold g h.1 h.2.2), if_neg fun h => hg h.1]

omit [Zero W] in
theorem committed_boundary {p q : Pc W} (hr : Relabel x.lock y.lock tx p q)
    (hfreed : freedBefore y = freedBefore x) :
    AnsweredCalls.committed y = AnsweredCalls.committed x := by
  funext g
  rw [AnsweredCalls.committed, AnsweredCalls.committed, hfreed, hr.live, hr.seg, hr.allocBy]

omit [DecidableEq W] [Zero W] in
theorem told_leave (h : Told x.lock.pc x.pending x.log words) {p : Pc W}
    (hp : (∃ c, x.lock.pc tx = .leaveFailed c ∧ p = .aborted) ∨
      (x.lock.pc tx = .ending ∧ p = .committed)) :
    Told (Function.update x.lock.pc tx p) x.pending (x.log ++ note tx (answered x tx))
      (words ++ note tx (noted (x.lock.pc tx) p)) := by
  have moved := @Told.move W x.lock.pc x.pending x.log words tx h p (x.pending tx)
    (answered x tx) (noted (x.lock.pc tx) p)
  rw [Function.update_eq_self] at moved
  rcases hp with ⟨c, hp, rfl⟩ | ⟨hp, rfl⟩
  · exact moved (by simp [Pc.failed]) (by simp [Pc.failed]) (.outside rfl)
      (by simp [answered, hp]) (by simp [hp])
  · refine moved (fun _ => by rw [hp]; rfl) (fun _ => ?_) (.outside rfl) (fun _ => rfl)
      (by simp [hp])
    simp [answered, hp, noted, inProgress, spread]

omit [DecidableEq W] [Zero W] in
theorem advance_open (h : closes x tx = false) (t : State W) : x.advance tx t =
    { x with lock := t, log := x.log ++ note tx (answered x tx) } := by
  simp [AnsweredCalls.State.advance, h]

omit [DecidableEq W] [Zero W] in
theorem closes_leave {p : Pc W} (hp : (∃ c, x.lock.pc tx = .leaveFailed c ∧ p = .aborted) ∨
    (x.lock.pc tx = .ending ∧ p = .committed)) :
    closes x tx = lastToLeave x.lock.region.batcher := by
  rcases hp with ⟨c, hp, -⟩ | ⟨hp, -⟩ <;> simp [closes, hp]

omit [DecidableEq W] in
theorem closes_micro {t : State W} (hm : Micro x.lock tx t) : closes x tx = false := by
  obtain ⟨hfail, hend⟩ := Micro.inside hm
  unfold closes
  split
  · exact (hfail _ ‹_›).elim
  · exact (hend ‹_›).elim
  · rfl

omit [Zero W] in
theorem decent_of_client {tx : Tx} {c : Call W} (hc : Client x (.call tx c)) :
    Decent (freedBefore x) x.lock (.call tx c) := by
  obtain ⟨⟨-, hro, -⟩, -, hstand⟩ := hc
  cases c with
  | read | write => exact hstand
  | alloc => exact hro
  | free => exact ⟨hstand, hro⟩
  | finish => trivial

namespace Consistent

theorem micro (h : Consistent size x words) (hk : Known x.lock) {t : State W}
    (hm : Micro x.lock tx t) :
    Consistent size { x with lock := t, log := x.log ++ note tx (answered x tx) }
      (words ++ note tx (noted (x.lock.pc tx) (t.pc tx))) where
  written := h.written.micro hk (fun hin => Nat.lt_irrefl _ (h.old _ hin)) hm
  told := h.told.micro hm
  old g hg := by
    have hlt := h.old g hg
    cases hm with
    | allocate => exact Nat.lt_succ_of_lt hlt
    | _ => exact hlt
  replay orders ho := by
    have same : AnsweredCalls.committed
        { x with lock := t, log := x.log ++ note tx (answered x tx) } =
          AnsweredCalls.committed x := committed_micro hk.invariant hm rfl
    rw [same]
    exact h.replay orders ho

theorem boundary (h : Consistent size x words) {p q : Pc W}
    (hr : Relabel x.lock y.lock tx p q) (hb : Boundary (Decent (freedBefore x)) x.lock tx p q)
    (hmem : ∀ u ∈ y.lock.hist.members, u ∈ x.lock.hist.members ∨ u = tx ∧ q ≠ .waiting)
    (hin : p ≠ .outside → tx ∈ x.lock.hist.members) (hclosed : y.closed = x.closed)
    (told : Told y.lock.pc y.pending y.log (words ++ note tx (noted p q))) :
    Consistent size y (words ++ note tx (noted p q)) := by
  have hfreed : freedBefore y = freedBefore x := by rw [freedBefore, freedBefore, hclosed]
  refine ⟨?_, told, ?_, fun orders ho => ?_⟩
  · rw [hfreed]
    exact h.written.boundary hr hb hmem hin
  · rw [hfreed, hr.nextSeg]
    exact h.old
  · rw [hclosed] at ho ⊢
    rw [h.replay orders ho, committed_boundary hr hfreed]

end Consistent

/-- What a committed transaction told its callers is what it did. -/
theorem runTransaction_told {pc : Tx → Pc W} {pending : Tx → Option (Call W)}
    (h : Told pc pending log words) (hw : ∀ u, (u, .commit) ∈ words → pc u = .committed)
    (hu : (u, .commit) ∈ words) (m : Memory W) :
    runTransaction log m u = runTransaction words m u := by
  rw [runTransaction, runTransaction, (h.committed hw).2 hu, foldlM_flatMap_spread]

omit [DecidableEq W] [Zero W] in
theorem serialOrder_told {pc : Tx → Pc W} {pending : Tx → Option (Call W)}
    (h : Told pc pending log words) (hw : ∀ u, (u, .commit) ∈ words → pc u = .committed)
    {order : List Tx} (ho : SerialOrder log order) : SerialOrder words order where
  nodup := ho.nodup
  committed u := by rw [ho.committed, (h.committed hw).1]
  readersFirst := ho.readersFirst

omit [Zero W] in
theorem committedFrees_told {pc : Tx → Pc W} {pending : Tx → Option (Call W)}
    (h : Told pc pending log words) (hw : ∀ u, (u, .commit) ∈ words → pc u = .committed)
    (g : SegId) : g ∈ committedFrees log ↔ g ∈ committedFrees words := by
  rw [mem_committedFrees, mem_committedFrees]
  refine exists_congr fun u => ?_
  rw [(h.committed hw).1]
  refine and_congr_right fun hu => ?_
  rw [← mem_calls, ← mem_calls, (h.committed hw).2 hu, mem_flatMap_spread (by simp)]

/-- The epoch that closes runs serially, as its callers saw it. -/
theorem runEpoch_told {pc : Tx → Pc W} {pending : Tx → Option (Call W)}
    (h : Told pc pending log words) (hw : ∀ u, (u, .commit) ∈ words → pc u = .committed)
    {order : List Tx} (ho : SerialOrder log order) (m : Memory W) :
    runEpoch m (log, order) = runEpoch m (words, order) := by
  have hsame : ∀ l : List Tx, (∀ u ∈ l, u ∈ order) → ∀ m : Memory W,
      l.foldlM (runTransaction log) m = l.foldlM (runTransaction words) m := by
    intro l hl
    induction l with
    | nil => exact fun _ => rfl
    | cons u l ih =>
      intro m
      have hu : (u, .commit) ∈ words :=
        ((h.committed hw).1).mp ((ho.committed u).mp (hl u (by simp)))
      rw [List.foldlM_cons, List.foldlM_cons, runTransaction_told h hw hu]
      exact bind_congr fun m' => ih (fun v hv => hl v (by simp [hv])) m'
  rw [runEpoch, runEpoch, hsame order (fun _ => id)]

/-- A new epoch: nothing is logged, and every program counter is between calls. -/
theorem Written.opened {p : Pc W} (hc : Closing s tx p) (hi : Invariant s) (dead : List SegId) :
    Written (leave s tx p) dead [] := by
  have hpc : ∀ u ∈ (leave s tx p).hist.members, (leave s tx p).pc u = .idle := by
    intro u hu
    rw [hc.hist] at hu
    have hwait : u ∈ s.region.batcher.waiters := hu
    rw [hc.pc, if_pos hwait]
  have hhist := hc.hist
  refine ⟨⟨fun g => ?_, fun u g => ?_, by simp, by simp, by simp, by simp, fun u => ?_,
      fun u => ?_⟩,
    Serial.opened fun g hg => hc.quiescent hi hg, fun u => ?_, fun u hu => ?_, fun g hg hr => ?_⟩
  · rw [hhist]
    rfl
  · rw [hhist]
    simp [History.fresh]
  · refine ⟨by simp, fun hu => ?_⟩
    rw [hpc u hu.1] at hu
    cases hu.2
  · refine ⟨by simp, fun hu => ?_⟩
    rw [hpc u hu.1] at hu
    cases hu.2
  · rcases hc.idle hi u with hu | hu
    · rw [hu]
      trivial
    · cases hp : (leave s tx p).pc u with
      | outside | waiting | committed | aborted => trivial
      | _ =>
        rw [hp] at hu
        cases hu
  · rw [hpc u hu]
    simp
  · rw [(hc.quiescent hi hg).rollback] at hr
    cases hr

theorem Consistent.close (h : Consistent size x words) (hk : Known x.lock) {p : Pc W}
    (hc : Closing x.lock tx p) (hp : ∀ P, Boundary P x.lock tx (x.lock.pc tx) p) :
    Consistent size { x with
      lock := leave x.lock tx p
      log := []
      closed := x.closed ++ [x.log ++ note tx (answered x tx)] } [] := by
  have hi := hk.invariant
  have hin : tx ∈ x.lock.hist.members := hi.ledger.members ((hi.ledger.running tx).mpr hc.active)
  have hw : Written (x.lock.goto tx p) (freedBefore x)
      (words ++ note tx (noted (x.lock.pc tx) p)) :=
    h.written.boundary (goto_relabel _ _ _) (hp _) (fun u hu => .inl hu) fun _ => hin
  have told : Told (x.lock.goto tx p).pc x.pending (x.log ++ note tx (answered x tx))
      (words ++ note tx (noted (x.lock.pc tx) p)) := told_leave h.told hc.here
  have hcommit : ∀ u, (u, .commit) ∈ words ++ note tx (noted (x.lock.pc tx) p) →
      (x.lock.goto tx p).pc u = .committed := fun u hu => ((hw.filed.commit u).mp hu).2
  refine ⟨.opened hc hi _, .opened (hc.idle hi), fun g hg => ?_, fun orders ho => ?_⟩
  · simp only [freedBefore, List.flatMap_append, List.mem_append, List.flatMap_cons,
      List.flatMap_nil, List.append_nil] at hg
    have hnext : (leave x.lock tx p).region.nextSeg = x.lock.region.nextSeg := by
      rw [hc.region]
      exact hi.lists.cleaned.nextSeg
    rw [hnext]
    rcases hg with hg | hg
    · exact h.old g hg
    · rw [committedFrees_told told hcommit, mem_committedFrees] at hg
      obtain ⟨u, -, hf⟩ := hg
      exact hi.lists.fresh g (hw.filed.claimed u _ g hf rfl)
  · obtain ⟨before, order, rfl, hbefore, horder⟩ := Serializability.forall₂_snoc ho
    have hwords := serialOrder_told told hcommit horder
    have hview : AnsweredCalls.committed x = view (words ++ note tx (noted (x.lock.pc tx) p))
        x.lock.region (freedBefore x) ∅ := by
      funext g
      rw [view_empty, hw.filed.alloc]
      rfl
    have hrun := Serializability.epoch_runs hw.serial (closing_ends hc hi hw) hwords
    have hdead : ∀ g, g ∈ freedBefore (AnsweredCalls.State.mk ⟨leave x.lock tx p, x.pending⟩ []
        (x.closed ++ [x.log ++ note tx (answered x tx)])) ↔ g ∈ freedBefore x ∨
          g ∈ committedFrees (words ++ note tx (noted (x.lock.pc tx) p)) := fun g => by
      rw [← committedFrees_told told hcommit]
      simp [freedBefore]
    have hnew : AnsweredCalls.committed (AnsweredCalls.State.mk ⟨leave x.lock tx p, x.pending⟩ []
        (x.closed ++ [x.log ++ note tx (answered x tx)])) =
          view ([] : Log W) (leave x.lock tx p).region (freedBefore (AnsweredCalls.State.mk
            ⟨leave x.lock tx p, x.pending⟩ [] (x.closed ++ [x.log ++ note tx (answered x tx)])))
              ∅ := by
      funext g
      rw [view_empty, AnsweredCalls.committed, hc.hist]
      rfl
    rw [List.zip_append hbefore.length_eq, List.zip_cons_cons, List.zip_nil_left, foldlM_snoc,
      h.replay before hbefore, Option.bind_some, runEpoch_told told hcommit horder, runEpoch,
      hview, hnew, closing_view hk hc hw hwords hdead]
    exact congrArg (Option.map endEpoch) hrun

theorem Consistent.init : Consistent size (AnsweredCalls.initial size : AnsweredCalls.State W)
    [] where
  written := by
    refine ⟨⟨fun g => rfl, fun u g => ?_, by simp, by simp, by simp, by simp, fun u => ?_,
        fun u => ?_⟩,
      .opened Serializability.Consistent.initial_quiescent, fun _ => trivial, fun u hu => ?_,
      fun g _ hr => ?_⟩
    · simp [AnsweredCalls.initial, PendingCalls.initial, initial, History.fresh]
    · simp [AnsweredCalls.initial, PendingCalls.initial, initial, History.fresh]
    · simp [AnsweredCalls.initial, PendingCalls.initial, initial, History.fresh]
    · cases Finset.notMem_empty u hu
    · cases hr
  told := .opened fun _ => .inr rfl
  old := by simp [freedBefore, AnsweredCalls.initial]
  replay orders ho := by
    cases ho
    refine congrArg some (funext fun g => ?_)
    simp [initialMemory, AnsweredCalls.committed, AnsweredCalls.initial, PendingCalls.initial,
      initial, History.fresh, tmCreate, allocSegment, freedBefore, Block.zero]

namespace Consistent

theorem begin (h : Consistent size x words) (hp : x.lock.pc tx = .outside) :
    Consistent size { x with lock := tmBegin x.lock tx } words := by
  obtain ⟨q, hr, hb⟩ := begin_relabel (Decent (freedBefore x)) hp
  have quiet : noted .outside q = none := rfl
  have told : Told (tmBegin x.lock tx).pc x.pending x.log words := by
    rw [hr.pc]
    refine h.told.relabel (fun _ => by rw [hp]; rfl) (fun _ => ?_) ?_ (by simp [hp])
    · rw [hp]
      cases hb <;> rfl
    · apply PendingCalls.During.outside
      cases hb <;> rfl
  have next := h.boundary (y := { x with lock := tmBegin x.lock tx }) hr hb (fun u hu => ?_)
    (fun hno => (hno rfl).elim) rfl
  · rw [quiet, note_none, List.append_nil] at next
    exact next told
  · by_cases hz : x.lock.region.batcher.remaining = 0
    · have hq : q = .idle := by
        have hpc := congrFun hr.pc tx
        simpa [tmBegin, hz] using hpc.symm
      rw [tmBegin, if_pos hz] at hu
      rcases Finset.mem_insert.mp hu with rfl | hold
      · exact .inr ⟨rfl, by simp [hq]⟩
      · exact .inl hold
    · rw [tmBegin, if_neg hz] at hu
      exact .inl hu

theorem call (h : Consistent size x words) (hi : Invariant x.lock) {c : Call W}
    (hc : Client x (.call tx c)) (hp : x.lock.pc tx = .idle) :
    Consistent size { x with
      lock := x.lock.goto tx c.entry
      pending := Function.update x.pending tx (some c) } words := by
  have quiet : noted .idle c.entry = none := rfl
  have told : Told (x.lock.goto tx c.entry).pc (Function.update x.pending tx (some c)) x.log
      words := by
    have moved : Told (x.lock.goto tx c.entry).pc (Function.update x.pending tx (some c))
        (x.log ++ note tx none) (words ++ note tx none) :=
      h.told.move (fun _ => by rw [hp]; rfl) (fun _ => ?_) ?_ (by simp) (by simp [hp])
    · rw [note_none, List.append_nil, List.append_nil] at moved
      exact moved
    · rw [hp]
      cases c <;> rfl
    · exact fun _ => ⟨c, rfl, .entry c⟩
  have next := h.boundary (y := { x with
      lock := x.lock.goto tx c.entry
      pending := Function.update x.pending tx (some c) }) (call_relabel hp)
    (.call (decent_of_client hc)) (fun u hu => .inl hu) (fun _ => ?_) rfl
  · rw [quiet, note_none, List.append_nil] at next
    exact next told
  · exact hi.ledger.members ((hi.ledger.running tx).mpr (by rw [hp]; rfl))

/-- The last to leave closes the log of its epoch. -/
theorem leave (h : Consistent size x words) (hk : Known x.lock) {p : Pc W}
    (here : (∃ c, x.lock.pc tx = .leaveFailed c ∧ p = .aborted) ∨
      (x.lock.pc tx = .ending ∧ p = .committed))
    (hb : ∀ P, Boundary P x.lock tx (x.lock.pc tx) p) :
    ∃ words', Consistent size (x.advance tx (leave x.lock tx p)) words' := by
  have hi := hk.invariant
  have hin : tx ∈ x.lock.hist.members := by
    refine hi.ledger.members ((hi.ledger.running tx).mpr ?_)
    rcases here with ⟨c, hp, -⟩ | ⟨hp, -⟩ <;> rw [hp] <;> rfl
  rw [AnsweredCalls.State.advance, closes_leave here]
  cases hl : lastToLeave x.lock.region.batcher with
  | true => exact ⟨[], h.close hk ⟨hl, here⟩ hb⟩
  | false =>
    have hr : Relabel x.lock (LockLevel.leave x.lock tx p) tx (x.lock.pc tx) p :=
      stay_relabel p hl
    refine ⟨_, h.boundary hr (hb _) (fun u hu => ?_) (fun _ => hin) rfl ?_⟩
    · have same : (LockLevel.leave x.lock tx p).hist.members = x.lock.hist.members := by
        rw [Ledger.leave_staying hl]
      exact .inl (same ▸ hu)
    · have told := told_leave h.told here
      rw [← hr.pc] at told
      exact told

end Consistent

theorem step_consistent {e : Event W} (h : Consistent size x words) (hk : Known x.lock)
    (hc : Client x e) (hs : AnsweredCalls.step x e = some y) :
    ∃ words', Consistent size y words' := by
  obtain ⟨t, ht, rfl⟩ := Option.map_eq_some_iff.mp hs
  have hi := hk.invariant
  rcases step_cases ht with ⟨tx, rfl, hp, rfl⟩ | ⟨tx, c, rfl, hp, rfl⟩ | ⟨tx, rfl, hadv⟩
  · exact ⟨words, h.begin hp⟩
  · exact ⟨words, h.call hi hc hp⟩
  · rcases advance_cases (hi.settled tx) hadv with hm | ⟨c, hp, rfl⟩ | ⟨hp, rfl⟩
    · rw [AnsweredCalls.State.after, advance_open (closes_micro hm)]
      exact ⟨_, h.micro hk hm⟩
    · exact h.leave hk (.inl ⟨c, hp, rfl⟩) fun _ => by rw [hp]; exact .abort
    · exact h.leave hk (.inr ⟨hp, rfl⟩) fun _ => by rw [hp]; exact .commit

theorem reachable_consistent (h : Reachable (AnsweredCalls.system W size) Client x) :
    ∃ words, Consistent size x words := by
  induction h with
  | init hs =>
    cases hs
    exact ⟨[], .init⟩
  | step hr hc ht ih =>
    obtain ⟨words, ih⟩ := ih
    exact step_consistent ih (AnsweredCalls.reachable_known hr) hc ht

/-- However the steps of the transactions interleave, what a call returns answers what was
asked, and the calls that the committed transactions saw answered run one transaction at a
time on plain memory, epoch by epoch, those that only read first and the writers in any
order. Each call gets the same answer, and the read copies hold the outcome. -/
theorem lock_level_serializability {x : AnsweredCalls.State W} {size : ℕ}
    (h : Reachable (AnsweredCalls.system W size) Client x) :
    (∀ tx ret, x.lock.pc tx = .returning ret → ∃ c, x.pending tx = some c ∧ Answers c ret) ∧
      ∀ orders, List.Forall₂ SerialOrder x.closed orders →
        (x.closed.zip orders).foldlM runEpoch (initialMemory size) =
          some (AnsweredCalls.committed x) := by
  obtain ⟨words, hx⟩ := reachable_consistent h
  refine ⟨fun tx ret hp => ?_, hx.replay⟩
  have hduring := hx.told.during tx
  rw [hp] at hduring
  exact hduring.answers

end runs

/-- In the second epoch 2 and 3 write two words of a segment step by step in turn, 5 reads all
three meanwhile, and 4 writes the first, finds the next one taken and rolls back. -/
def crowd : List (Event ℕ) :=
  [.begin 1, .begin 2, .begin 3, .begin 4, .begin (Calls.txId 5 true),
    .call 1 (.write 0 0 [7])] ++ List.replicate 7 (.advance 1) ++ [.call 1 .finish, .advance 1] ++
    [.call 2 (.write 0 1 [5]), .call 3 (.write 0 2 [6]), .call (Calls.txId 5 true) (.read 0 0 3)] ++
    (List.replicate 6 [.advance 2, .advance 3, .advance (Calls.txId 5 true)]).flatten ++
    [.advance 2, .call 4 (.write 0 0 [8, 9])] ++ List.replicate 12 (.advance 4) ++
    [.call 2 .finish, .advance 2, .call (Calls.txId 5 true) .finish, .advance (Calls.txId 5 true),
      .call 3 .finish, .advance 3]
/-- The three words that 5 reads are copied. -/
def halfway : AnsweredCalls.State ℕ :=
  (run (AnsweredCalls.system ℕ 3) (AnsweredCalls.initial 3) (crowd.take 33)).getD
    (AnsweredCalls.initial 3)
def crowded : AnsweredCalls.State ℕ :=
  (run (AnsweredCalls.system ℕ 3) (AnsweredCalls.initial 3) crowd).getD (AnsweredCalls.initial 3)

theorem halfway_reachable : Reachable (AnsweredCalls.system ℕ 3) Client halfway :=
  Reachable.run (.init rfl) (crowd.take 33) (by decide) rfl

theorem crowded_reachable : Reachable (AnsweredCalls.system ℕ 3) Client crowded :=
  Reachable.run (.init rfl) crowd (by decide) rfl

theorem lock_level_serializability_crowded :
    (∃ c, halfway.pending (Calls.txId 5 true) = some c ∧ Answers c (.read 0 0 [7, 0, 0])) ∧
      (crowded.closed.zip [[1], [Calls.txId 5 true, 3, 2]]).foldlM runEpoch (initialMemory 3) =
        some (AnsweredCalls.committed crowded) ∧
      (Calls.txId 5 true, .read 0 0 [7, 0, 0]) ∈ crowded.closed.flatten ∧
      (4, .abort) ∈ crowded.closed.flatten ∧
      (List.range 3).map (crowded.lock.region.seg 0).read = [7, 5, 6] := by
  refine ⟨?_, ?_, ?_, ?_, ?_⟩
  · exact (lock_level_serializability halfway_reachable).1 _ _ rfl
  · exact (lock_level_serializability crowded_reachable).2 _ (by decide)
  · decide
  · decide
  · decide

end LockSerializability
