import TransactionalMemory.ExactDeallocation
import TransactionalMemory.SerialRuns

/-! # Serializability

The committed transactions of the closed epochs, run one at a time on plain memory, read
what they have read, and the read copies hold what they leave. The writers of an epoch may
run in any order, its readers before them. -/
namespace Serializability

open TransitionSystem
open BatcherState
open ControlWord
open RegionState
open Calls
open CallEffects
open CallLog
open EpochBooks
open CallOutcomes
open AtomicCalls
open ExactDeallocation
open CommutingSteps
open PlainMemory
open SerialViews
open SerialRuns

variable {W : Type*} {log : Log W} {r : Region W} {s t : State W} {tx : Tx} {e : Entry W}
variable {g : SegId} {dead : List SegId} {used : Finset Tx}

/-! ### One epoch -/

def writersOf (order : List Tx) : Finset Tx := (order.filter fun u => !isTxReadonly u).toFinset

/-- Segments that a committed transaction freed. -/
def committedFrees [DecidableEq W] (log : Log W) : List SegId :=
  log.filterMap fun x =>
    match x.2 with
    | .free g => if (x.1, .commit) ∈ log then some g else none
    | _ => none

theorem mem_committedFrees [DecidableEq W] :
    g ∈ committedFrees log ↔ ∃ u, (u, .commit) ∈ log ∧ (u, .free g) ∈ log := by
  simp only [committedFrees, List.mem_filterMap]
  constructor
  · rintro ⟨⟨u, e⟩, hin, hx⟩
    cases e with
    | free x =>
      simp only [Option.ite_none_right_eq_some, Option.some.injEq] at hx
      obtain ⟨hc, rfl⟩ := hx
      exact ⟨u, hc, hin⟩
    | _ => cases hx
  · rintro ⟨u, hc, hf⟩
    exact ⟨(u, .free g), hf, by simp [hc]⟩

theorem mem_writersOf {order : List Tx} (ho : SerialOrder log order) {u : Tx} :
    u ∈ writersOf order ↔ (u, .commit) ∈ log ∧ isTxReadonly u = false := by
  simp [writersOf, ho.committed]

variable [DecidableEq W] [Zero W]

/-- An epoch runs serially, in any order of its writers. -/
theorem epoch_runs (h : Serial log r dead) (hends : Ends used ∅ log) {order : List Tx}
    (ho : SerialOrder log order) : order.foldlM (runTransaction log) (view log r dead ∅) =
      some (view log r dead (writersOf order)) := by
  have standing : ∀ u ∈ order, (u, .abort) ∉ log := fun u hu =>
    hends.once u ((ho.committed u).mp hu)
  have hn := ho.nodup
  have hf := ho.readersFirst
  clear ho
  induction order with
  | nil => rfl
  | cons u l ih =>
    rw [List.nodup_cons] at hn
    rw [List.pairwise_cons] at hf
    cases hro : isTxReadonly u with
    | true =>
      rw [List.foldlM_cons, h.readers u hro (standing u (by simp))]
      have : writersOf (u :: l) = writersOf l := by simp [writersOf, hro]
      rw [this]
      exact ih (fun v hv => standing v (by simp [hv])) hn.2 hf.2
    | false =>
      -- behind the first writer there are writers only
      have hall : ∀ v ∈ u :: l, isTxReadonly v = false := by
        intro v hv
        rcases List.mem_cons.mp hv with rfl | hv
        · exact hro
        · by_contra hv'
          rw [hf.1 v hv (by simpa using hv')] at hro
          cases hro
      have hw : writersOf (u :: l) = ∅ ∪ (u :: l).toFinset := by
        rw [writersOf, List.filter_eq_self.mpr fun v hv => by simp [hall v hv],
          Finset.empty_union]
      rw [hw]
      exact foldlM_view (p := Writer log) h.writers (List.nodup_cons.mpr hn)
        (fun v hv => ⟨hall v hv, standing v hv⟩) (by simp) (by simp)

/-- Once everyone has ended, the committed writers see what is in the write copies. -/
theorem visible_committed (hb : Books log r) (h : Serial log r dead) (hends : Ends used ∅ log)
    {order : List Tx} (ho : SerialOrder log order) (hg : g ∈ r.live) :
    visible (writersOf order) (r.seg g) = (r.seg g).write := by
  funext i
  have word := (hb.kept g hg).words i
  cases hw : ((r.seg g).control i).written with
  | false => simpa [visible, hw] using (word.equal hw).symm
  | true =>
    obtain ⟨hstand, e, hin, hs⟩ := word.held hw
    have hro : isTxReadonly ((r.seg g).control i).access = false := by
      by_contra hro
      have hno := (h.readonly _ e hin (by simpa using hro)).2 g i
      have hyes : e.stores g i = true := hs
      rw [hno] at hyes
      cases hyes
    have hmem : ((r.seg g).control i).access ∈ writersOf order := by
      refine (mem_writersOf ho).mpr ⟨?_, hro⟩
      rcases hends.ended _ e hin with ha | hc | hab
      · simp at ha
      · exact hc
      · exact (hstand hab).elim
    simp [visible, hw, hmem]

/-- The segments that go at the end of the epoch, or are not to be used any more. -/
theorem survives_iff (hb : Books log r) (h : Serial log r dead) (hends : Ends used ∅ log)
    {order : List Tx} (ho : SerialOrder log order) :
    (g ∈ (epochCleanup r).live ∧ g ∉ dead ++ committedFrees log) ↔
      (g ∈ r.live ∧ g ∉ dead ∧ (allocator log g).all (· ∈ writersOf order) = true) ∧
        ¬ ∃ u ∈ writersOf order, (u, .free g) ∈ log := by
  have hfreed : (∃ u ∈ writersOf order, (u, .free g) ∈ log) ↔ g ∈ committedFrees log := by
    rw [mem_committedFrees]
    refine exists_congr fun u => and_congr_left fun hf => ?_
    rw [mem_writersOf ho, and_iff_left_iff_imp]
    intro hc
    by_contra hro
    have := (h.readonly u _ hf (by simpa using hro)).1
    cases this
  rw [hfreed, List.mem_append, not_or]
  by_cases hg : g ∈ r.live
  · have flags := (hb.kept g hg).toFlags
    rw [← not_not (a := g ∈ (epochCleanup r).live), hb.tidy.cleanup_gone hg]
    have hkeep : g ∉ committedFrees log → (¬ (r.seg g).dropped = true ↔
        (allocator log g).all (· ∈ writersOf order) = true) := by
      intro hno
      rw [flags.dropped_iff, mem_committedFrees] at *
      constructor
      · intro hd
        cases ha : allocator log g with
        | none => rfl
        | some u =>
          obtain ⟨size, hin⟩ := mem_of_allocator ha
          have hro : isTxReadonly u = false := by
            by_contra hro
            have := (h.readonly u _ hin (by simpa using hro)).1
            cases this
          have hc : (u, .commit) ∈ log := by
            rcases hends.ended u _ hin with hact | hc | hab
            · simp at hact
            · exact hc
            · exact (hd (.inr ⟨(flags.overruled_new ha).mpr hab, u, ha⟩)).elim
          simpa using (mem_writersOf ho).mpr ⟨hc, hro⟩
      · rintro hall (⟨hov, u, hf⟩ | ⟨hov, u, ha⟩)
        · exact hno (freed_committed flags hends hov hf)
        · rw [ha] at hall
          have hu : u ∈ writersOf order := by simpa using hall
          exact hends.once u ((mem_writersOf ho).mp hu).1 ((flags.overruled_new ha).mp hov)
    tauto
  · have hgone : g ∉ (epochCleanup r).live := fun hin => hg (hb.tidy.cleanup_live.mp hin).1
    tauto

/-- The cleanup leaves what the committed writers leave. -/
theorem closing_view (hb : Books log r) (h : Serial log r dead) (hends : Ends used ∅ log)
    {order : List Tx} (ho : SerialOrder log order) (b : Batcher Tx) :
    view ([] : Log W) { epochCleanup r with batcher := b } (dead ++ committedFrees log) ∅ =
      endEpoch (view log r dead (writersOf order)) := by
  funext g
  have hiff := survives_iff (g := g) hb h hends ho
  by_cases hs : g ∈ (epochCleanup r).live ∧ g ∉ dead ++ committedFrees log
  · obtain ⟨⟨hg, hd, hall⟩, hfree⟩ := hiff.mp hs
    have hsize : ((epochCleanup r).seg g).size = (r.seg g).size := by
      rw [hb.tidy.cleanup_seg hs.1]
      split_ifs <;> rfl
    have hword : visible ∅ ((epochCleanup r).seg g) = visible (writersOf order) (r.seg g) := by
      rw [visible_committed hb h hends ho hg]
      funext i
      rw [hb.tidy.cleanup_seg hs.1]
      split_ifs with hdirty
      · simp [visible, Segment.commit, Segment.resetFlags]
      · simp [visible, (hb.tidy.clean hg hdirty).equal]
    have hnew : ∀ u, allocator ([] : Log W) g = some u → u ∈ (∅ : Finset Tx) := by
      simp [allocator]
    have hlive : g ∈ { epochCleanup r with batcher := b }.live := hs.1
    rw [endEpoch, view_some hlive hs.2 hnew,
      show view log r dead (writersOf order) g = some ⟨(r.seg g).size,
        visible (writersOf order) (r.seg g), false⟩ from by
          rw [view, if_pos ⟨hg, hd, hall⟩, decide_eq_false hfree]]
    simp [hsize, hword, Option.filter]
  · have hl : view ([] : Log W) { epochCleanup r with batcher := b }
        (dead ++ committedFrees log) ∅ g = none := if_neg fun hc => hs ⟨hc.1, hc.2.1⟩
    rw [hl, endEpoch, view]
    split_ifs with hc
    · have hfree : ∃ u ∈ writersOf order, (u, .free g) ∈ log := by
        by_contra hno
        exact hs (hiff.mpr ⟨hc, hno⟩)
      simp [hfree, Option.filter]
    · rfl

/-! ### Runs -/

/-- The segments that a committed transaction of an earlier epoch freed. -/
def freedBefore (s : State W) : List SegId := s.closed.flatMap committedFrees

/-- The read copies of the segments older than the epoch. -/
def committed (s : State W) : Memory W := fun g =>
  if g ∈ s.region.live ∧ g ∉ freedBefore s ∧ allocator s.log g = none then
    some ⟨(s.region.seg g).size, (s.region.seg g).read, false⟩
  else none

/-- Fewer than `2 ^ 31` transactions begin, read-only transactions only read, accesses stay
in bounds of segments that no earlier epoch freed, and a transaction frees only segments
older than the epoch or its own allocations. -/
def Client (s : State W) : Event W → Prop
  | .begin _ => s.transCounter.toNat < 2 ^ 31
  | .read _ g k n =>
    g ∈ s.region.live ∧ k + n ≤ (s.region.seg g).size ∧ g ∉ freedBefore s
  | .write tx g k src =>
    isTxReadonly tx = false ∧ g ∈ s.region.live ∧ k + src.length ≤ (s.region.seg g).size ∧
      g ∉ freedBefore s
  | .alloc tx _ _ => isTxReadonly tx = false
  | .free tx g =>
    isTxReadonly tx = false ∧ g ∈ s.region.live ∧ g ∉ freedBefore s ∧
      (allocator s.log g = none ∨ allocator s.log g = some tx)
  | .finish _ => True

instance (s : State W) : ∀ e : Event W, Decidable (Client s e)
  | .begin _ => inferInstanceAs (Decidable (_ < _))
  | .read .. => inferInstanceAs (Decidable (_ ∧ _))
  | .write .. => inferInstanceAs (Decidable (_ ∧ _))
  | .alloc .. => inferInstanceAs (Decidable (_ = _))
  | .free .. => inferInstanceAs (Decidable (_ ∧ _))
  | .finish _ => isTrue trivial

/-- The handles given out are numbered by the counter. -/
structure Numbered (s : State W) : Prop where
  pos : 0 < s.transCounter.toNat
  card : s.used.card < s.transCounter.toNat
  below : ∀ u ∈ s.used, u.toNat % 2 ^ 63 < s.transCounter.toNat

omit [Zero W] in
theorem Numbered.lawful (h : Numbered s) (hi : Invariant s) {e : Event W} (hc : Client s e) :
    Lawful s e := by
  cases e with
  | begin isRo =>
    have hid := txId_toNat hc isRo
    have hlow : (txId s.transCounter isRo).toNat % 2 ^ 63 = s.transCounter.toNat := by
      have : s.transCounter.toNat < 2 ^ 31 := hc
      rw [hid]
      split_ifs <;> omega
    refine ⟨fun h0 => ?_, fun hin => ?_, ?_⟩
    · have := h.pos
      rw [h0] at hlow
      simp at hlow
      omega
    · have := h.below _ hin
      omega
    · have hdis : Disjoint s.active s.region.batcher.waiters :=
        Finset.disjoint_left.mpr hi.crew.roster.apart
      have hsub : s.active ∪ s.region.batcher.waiters ⊆ s.used :=
        Finset.union_subset hi.crew.member hi.crew.waiter
      have hle := Finset.card_le_card hsub
      rw [Finset.card_union_of_disjoint hdis] at hle
      have := h.card
      have : s.transCounter.toNat < 2 ^ 31 := hc
      omega
  | read => exact ⟨hc.1, hc.2.1⟩
  | write => exact ⟨hc.2.1, hc.2.2.1⟩
  | alloc => trivial
  | free => exact ⟨hc.2.1, hc.2.2.2⟩
  | finish => trivial

omit [DecidableEq W] [Zero W] in
theorem counter_begun (isRo : Bool) (hc : s.transCounter.toNat < 2 ^ 31) :
    (tmBegin s isRo).transCounter.toNat = s.transCounter.toNat + 1 := by
  show (s.transCounter + 1).toNat = s.transCounter.toNat + 1
  rw [BitVec.toNat_add]
  have : (1 : BitVec 32).toNat = 1 := rfl
  omega

omit [DecidableEq W] [Zero W] in
theorem Numbered.begun (h : Numbered s) (isRo : Bool) (hc : s.transCounter.toNat < 2 ^ 31) :
    Numbered (tmBegin s isRo) := by
  have hnext := counter_begun isRo hc
  have hlow : (txId s.transCounter isRo).toNat % 2 ^ 63 = s.transCounter.toNat := by
    rw [txId_toNat hc]
    split_ifs <;> omega
  refine ⟨?_, ?_, fun u hu => ?_⟩
  · rw [hnext]
    omega
  · rw [hnext]
    show (insert (txId s.transCounter isRo) s.used).card < _
    have := Finset.card_insert_le (txId s.transCounter isRo) s.used
    have := h.card
    omega
  · rw [hnext]
    rcases Finset.mem_insert.mp hu with rfl | hu
    · omega
    · have := h.below u hu
      omega

/-- The serial runs of the closed epochs, and of the calls so far of the running one. -/
structure Consistent (size : ℕ) (s : State W) : Prop where
  numbered : Numbered s
  old : ∀ g ∈ freedBefore s, g < s.region.nextSeg
  serial : Serial s.log s.region (freedBefore s)
  replay : ∀ orders, List.Forall₂ SerialOrder s.closed orders →
    (s.closed.zip orders).foldlM runEpoch (initialMemory size) =
      some (view s.log s.region (freedBefore s) ∅)

omit [DecidableEq W] [Zero W] in
theorem forall₂_snoc {α β : Type*} {R : α → β → Prop} {l : List α} {a : α} {l' : List β}
    (h : List.Forall₂ R (l ++ [a]) l') :
    ∃ l₁ b, l' = l₁ ++ [b] ∧ List.Forall₂ R l l₁ ∧ R a b := by
  induction l generalizing l' with
  | nil =>
    cases h with
    | cons hab hnil =>
      cases hnil
      exact ⟨[], _, rfl, .nil, hab⟩
  | cons x l ih =>
    cases h with
    | cons hx h =>
      obtain ⟨l₁, b, rfl, hl, hb⟩ := ih h
      exact ⟨_ :: l₁, b, rfl, .cons hx hl, hb⟩

namespace Consistent

variable {size : ℕ}

omit [DecidableEq W] in
theorem initial_quiescent : ∀ g ∈ (initial size : State W).region.live,
    Quiescent ((initial size : State W).region.seg g) := fun g hg =>
  (tmCreate_tidy size).quiet g (by simpa [initial, tmCreate, linkInsert] using hg)

theorem init : Consistent size (initial size : State W) where
  numbered := ⟨Nat.one_pos, Nat.one_pos, nofun⟩
  old := nofun
  serial := Serial.opened initial_quiescent
  replay orders h := by
    cases h
    show some (initialMemory size) = some (view [] _ _ ∅)
    rw [view_open initial_quiescent]
    congr 1
    funext g
    simp [initialMemory, initial, tmCreate, allocSegment, freedBefore, Block.zero]

theorem record (h : Consistent size s) (hnext : s.region.nextSeg ≤ r.nextSeg)
    (hs : Serial (s.log ++ [(tx, e)]) r (freedBefore s))
    (hv : view (s.log ++ [(tx, e)]) r (freedBefore s) ∅ =
      view s.log s.region (freedBefore s) ∅) : Consistent size (s.record tx e r) where
  numbered := ⟨h.numbered.pos, h.numbered.card, h.numbered.below⟩
  old g hg := Nat.lt_of_lt_of_le (h.old g hg) hnext
  serial := hs
  replay orders ho := by
    refine (h.replay orders ho).trans ?_
    exact congrArg some hv.symm

theorem leave (h : Consistent size s) (hi : Invariant s) (ha : tx ∈ s.active)
    (he : e = .commit ∨ e = .abort) (hb : r.batcher = s.region.batcher)
    (hbooks : Books (s.log ++ [(tx, e)]) r) (hnext : r.nextSeg = s.region.nextSeg)
    (hs : Serial (s.log ++ [(tx, e)]) r (freedBefore s))
    (hv : view (s.log ++ [(tx, e)]) r (freedBefore s) ∅ =
      view s.log s.region (freedBefore s) ∅) :
    Consistent size (s.leave tx e r.leaveBatcher) := by
  have hnum : ∀ t : State W, t.transCounter = s.transCounter → t.used = s.used → Numbered t := by
    intro t hc hu
    refine ⟨hc ▸ h.numbered.pos, ?_, ?_⟩
    · rw [hc, hu]
      exact h.numbered.card
    · rw [hc, hu]
      exact h.numbered.below
  cases hl : lastToLeave s.region.batcher with
  | false =>
    have heq : s.leave tx e r.leaveBatcher = { s with
        region := { r with batcher := BatcherState.leaveBatcher r.batcher }
        active := s.active.erase tx, log := s.log ++ [(tx, e)] } := by
      simp [State.leave, Region.leaveBatcher, hb, hl]
    rw [heq]
    exact ⟨hnum _ rfl rfl, fun g hg => hnext ▸ h.old g hg, ⟨hs.readonly, hs.writers, hs.readers⟩,
      fun orders ho => (h.replay orders ho).trans (congrArg some hv.symm)⟩
  | true =>
    have heq : s.leave tx e r.leaveBatcher = { s with
        region := { epochCleanup r with batcher := BatcherState.leaveBatcher r.batcher }
        active := s.region.batcher.waiters, log := []
        closed := s.closed ++ [s.log ++ [(tx, e)]] } := by
      simp [State.leave, Region.leaveBatcher, hb, hl]
    have hends : Ends s.used ∅ (s.log ++ [(tx, e)]) := by
      have := hi.crew.leaving ha he
      rwa [hi.crew.roster.sole ha hl, Finset.erase_singleton] at this
    have hfreed : freedBefore (s.leave tx e r.leaveBatcher) =
        freedBefore s ++ committedFrees (s.log ++ [(tx, e)]) := by
      rw [heq]
      simp [freedBefore]
    refine ⟨hnum _ (by rw [heq]) (by rw [heq]), fun g hg => ?_, ?_, fun orders ho => ?_⟩
    · rw [hfreed, List.mem_append] at hg
      rw [heq]
      show g < (epochCleanup r).nextSeg
      rw [hbooks.tidy.cleaned.nextSeg]
      rcases hg with hg | hg
      · exact hnext ▸ h.old g hg
      · obtain ⟨u, -, hf⟩ := mem_committedFrees.mp hg
        exact hbooks.tidy.fresh g ((hbooks.filed u _ hf).claimed g rfl)
    · rw [hfreed, heq]
      exact Serial.opened fun g hg => hbooks.tidy.cleanup_quiescent hg
    · rw [hfreed]
      rw [heq] at ho ⊢
      obtain ⟨before, order, rfl, hbefore, horder⟩ := forall₂_snoc ho
      rw [List.zip_append hbefore.length_eq, List.zip_cons_cons, List.zip_nil_left, foldlM_snoc,
        h.replay before hbefore, ← hv, Option.bind_some, runEpoch, epoch_runs hs hends horder,
        closing_view hbooks hs hends horder]
      rfl

theorem step (h : Consistent size s) (hi : Invariant s) {e : Event W} (hc : Client s e)
    (ht : AtomicCalls.step s e = some t) : Consistent size t := by
  have hlaw := h.numbered.lawful hi hc
  have hnext : s.region.nextSeg ∉ freedBefore s := fun hin => Nat.lt_irrefl _ (h.old _ hin)
  have writes : ∀ {tx e r}, tx ∈ s.active → isTxReadonly tx = false →
      Done s.log s.region tx e r → (∀ g, e.segment = some g → g ∉ freedBefore s) →
      Consistent size (s.record tx e r) := by
    intro tx e r ha hro hd hseg
    have hrun := (hi.crew.running tx ha).2
    have he := (done_batcher hd).2.2
    have hbooks := hi.books.done (hi.crew.named tx (hi.crew.member tx ha)) hrun hd
    have hm := done_moves hi.books hro hd hseg
    refine h.record (done_nextSeg hd) (h.serial.call ⟨hro, hrun⟩ he hm fun u e' hu hw hin => ?_)
      (hm.without ∅ (by simp))
    refine apart_of_books hbooks ⟨hro, hrun⟩ he (fun g size hx v f hf hcl => ?_) hu hw hin
    exact hi.books.done_fresh hd hx ((hi.books.filed v f hf).claimed g hcl)
  cases step_effect hi.books hlaw ht with
  | begin =>
    exact ⟨h.numbered.begun _ hc, h.old, ⟨h.serial.readonly, h.serial.writers, h.serial.readers⟩,
      h.replay⟩
  | nomem => exact h
  | @read tx g k n target r ha hd =>
    cases hro : isTxReadonly tx with
    | false =>
      refine writes ha hro hd fun x hx => ?_
      cases hx
      exact hc.2.2
    | true =>
      cases hd with
      | read _ _ _ hrw =>
        rw [hro] at hrw
        cases hrw
      | readCopy hg hk hu =>
        refine h.record le_rfl
          (h.serial.idle (by simp) rfl (fun _ _ => rfl) (view_idle rfl) ?_) (view_idle rfl ∅)
        intro U hU
        cases hU hro
        refine readCopy_stays hg hc.2.2 hk ?_
        cases ha' : allocator s.log g with
        | none => rfl
        | some u =>
          obtain ⟨m, hin⟩ := mem_of_allocator ha'
          have htx := usable_allocator (hi.books.kept g hg).toFlags hu ha'
          subst u
          cases (h.serial.readonly tx _ hin hro).1
  | write ha hd =>
    refine writes ha hc.1 hd fun x hx => ?_
    cases hx
    exact hc.2.2.2
  | alloc ha hd =>
    refine writes ha hc hd fun x hx => ?_
    cases hx
    exact hnext
  | free ha hd =>
    refine writes ha hc.1 hd fun x hx => ?_
    cases hx
    exact hc.2.2.1
  | @fail tx e r ha _ hf =>
    have hmove : ∀ U, tx ∉ U → view (s.log ++ [(tx, .abort)]) r (freedBefore s) U =
        view s.log s.region (freedBefore s) U := fun U hU => view_failed hf hU
    have hnext : r.nextSeg = s.region.nextSeg := by cases hf <;> rfl
    exact h.leave hi ha (.inr rfl) (failed_batcher hf).1 (hi.failed ha hf) hnext
      (h.serial.abort hmove) (hmove ∅ (by simp))
  | @finish tx ha =>
    exact h.leave hi ha (.inl rfl) rfl (hi.finished ha) rfl (h.serial.commit tx)
      (view_idle rfl ∅)

end Consistent

theorem reachable_consistent {size : ℕ} (h : Reachable (system W size) Client s) :
    Invariant s ∧ Consistent size s := by
  induction h with
  | init hs =>
    cases hs
    exact ⟨Invariant.init size, Consistent.init⟩
  | step _ hc ht ih =>
    exact ⟨step_preserves ih.1 (ih.2.numbered.lawful ih.1 hc) ht, ih.2.step ih.1 hc ht⟩

/-- In a run every call is answered: a read of `n` words that does not fail delivers `n`
words. Whatever the interleaving was, the committed transactions of the closed epochs run one
at a time on plain memory, epoch by epoch, with the writers of an epoch in any order: each of
their reads returns what it returned then, and the read copies hold the outcome. -/
theorem serializability {size : ℕ} {es : List (Event W)}
    (hm : Meets (system W size) Client (initial size) es)
    (hr : run (system W size) (initial size) es = some s) :
    List.Forall₂ Answer (es.filter Event.logged) (history s) ∧
      ∀ orders, List.Forall₂ SerialOrder s.closed orders →
        (s.closed.zip orders).foldlM runEpoch (initialMemory size) = some (committed s) := by
  have h : Reachable (system W size) Client s := Reachable.run (.init rfl) es hm hr
  refine ⟨run_history hr, fun orders ho => ?_⟩
  rw [(reachable_consistent h).2.replay orders ho]
  exact congrArg some (funext fun g => view_empty _ _ _ g)

/-- Transaction 1 writes a word. In the next epoch 2 reads it, 3 writes another word, 4 finds
that one taken and aborts, and the reader 5 reads both. -/
def mixEpochs : List (Event ℕ) :=
  [.begin false, .begin false, .begin false, .begin false, .begin true,
    .write 1 0 0 [7], .alloc 1 1 true, .finish 1,
    .read 2 0 0 1, .write 3 0 1 [5], .free 3 1, .write 4 0 1 [6],
    .read (txId 5 true) 0 0 2, .finish 3, .finish 2, .finish (txId 5 true)]
def mixed : State ℕ := (run (system ℕ 2) (initial 2) mixEpochs).getD (initial 2)

/-- The writers 2 and 3 of the second epoch may run in either order. -/
theorem serializability_mixed :
    List.Forall₂ Answer (mixEpochs.filter Event.logged) (history mixed) ∧
      (mixed.closed.zip [[1], [txId 5 true, 2, 3]]).foldlM runEpoch (initialMemory 2) =
        some (committed mixed) ∧
      (mixed.closed.zip [[1], [txId 5 true, 3, 2]]).foldlM runEpoch (initialMemory 2) =
        some (committed mixed) ∧
      (txId 5 true, .read 0 0 [7, 0]) ∈ history mixed ∧ (mixed.region.seg 0).read 1 = 5 := by
  have hm : Meets (system ℕ 2) Client (initial 2) mixEpochs := by decide
  obtain ⟨hanswers, hreplay⟩ := serializability hm (s := mixed) rfl
  refine ⟨hanswers, hreplay _ ?_, hreplay _ ?_, ?_, ?_⟩
  · decide
  · decide
  · decide
  · decide

end Serializability
