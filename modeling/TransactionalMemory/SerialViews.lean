import TransactionalMemory.CallOutcomes
import TransactionalMemory.PlainMemory

/-! # The plain memory that a set of transactions sees

The words written by the transactions of the set count, those of the others do not. A
call of a transaction moves the views of the sets it belongs to and no other. -/
namespace SerialViews

open ControlWord
open RegionState
open Calls
open CallEffects
open CallLog
open EpochBooks
open CallOutcomes
open CommutingSteps
open PlainMemory

variable {W : Type*} {log : Log W} {r t : Region W} {tx : Tx} {e : Entry W} {g : SegId}
variable {seg : Segment W} {U : Finset Tx} {dead : List SegId}

def visible (U : Finset Tx) (seg : Segment W) (i : ℕ) : W :=
  if (seg.control i).written = true ∧ (seg.control i).access ∈ U then seg.write i
  else seg.read i

/-- `dead` are the segments that a committed transaction of an earlier epoch freed. -/
def view [DecidableEq W] (log : Log W) (r : Region W) (dead : List SegId) (U : Finset Tx) :
    Memory W := fun g =>
  if g ∈ r.live ∧ g ∉ dead ∧ (allocator log g).all (· ∈ U) = true then
    some ⟨(r.seg g).size, visible U (r.seg g), decide (∃ u ∈ U, (u, .free g) ∈ log)⟩
  else none

theorem visible_marked (tx : Tx) (k n : ℕ) (dirty : Bool) :
    visible U { marked tx seg k n with dirty } = visible U seg := by
  funext i
  by_cases hi : inRange k n i = true
  · cases hw : (seg.control i).written with
    | true => simp [visible, marked, hi, canReadWord_kept hw]
    | false => simp [visible, marked, hi, hw]
  · simp [visible, marked, hi]

theorem canWriteWord_taken {c : Control} (ok : (canWriteWord tx c).1 = true) :
    (canWriteWord tx c).2.written = true ∧ (canWriteWord tx c).2.access = tx := by
  cases hw : c.written with
  | true =>
    have ha := canWriteWord_pass ok hw
    by_cases hm : c.manyAccesses = true
    · simp [canWriteWord, hw, ha, hm] at ok
    · simp [canWriteWord, hw, ha, hm]
  | false =>
    by_cases hc : (c.claim tx).access = tx ∧ (c.claim tx).manyAccesses = false
    · simp [canWriteWord, hw, hc]
    · simp [canWriteWord, hw, hc] at ok

theorem visible_stored_without {k m : ℕ} {src : List W} (dirty : Bool) (hU : tx ∉ U)
    (ok : ∀ i, inRange k m i = true → (canWriteWord tx (seg.control i)).1 = true) :
    visible U { stored tx seg k src m with dirty } = visible U seg := by
  funext i
  by_cases hi : inRange k m i = true
  · have hout : ¬ ((seg.control i).written = true ∧ (seg.control i).access ∈ U) := by
      rintro ⟨hw, ha⟩
      rw [canWriteWord_pass (ok i hi) hw] at ha
      exact hU ha
    simp [visible, stored, hi, canWriteWord_taken (ok i hi), hU, hout]
  · simp [visible, stored, hi]

theorem visible_stored_within {k m : ℕ} {src : List W} {dirty : Bool} (hU : tx ∈ U)
    (ok : ∀ i, inRange k m i = true → (canWriteWord tx (seg.control i)).1 = true)
    (hm : m = src.length) (i : ℕ) : visible U { stored tx seg k src m with dirty } i =
      if inRange k m i then (src[i - k]?).getD (visible U seg i) else visible U seg i := by
  by_cases hi : inRange k m i = true
  · have hlt : i - k < src.length := by
      rw [inRange_iff] at hi
      omega
    simp [visible, stored, hi, canWriteWord_taken (ok i hi), hU, List.getElem?_eq_getElem hlt]
  · simp [visible, stored, hi]

theorem visible_rolledBack (hU : tx ∉ U) : visible U (rolledBack tx seg) = visible U seg := by
  funext i
  by_cases hi : i < seg.size
  · cases hit : (rollbackWord tx (seg.control i)).1 with
    | true =>
      obtain ⟨hw, ha⟩ := rollbackWord_hit.mp hit
      have hafter : (rollbackWord tx (seg.control i)).2.written = false := by
        simp [rollbackWord, hw, ha]
      simp [visible, rolledBack, hi, hafter, ha, hU]
    | false => simp [visible, rolledBack, hi, hit, rollbackWord_miss hit]
  · simp [visible, rolledBack, hi]

@[simp] theorem visible_empty (seg : Segment W) : visible ∅ seg = seg.read := by
  funext i
  simp [visible]

theorem visible_quiescent (h : Quiescent seg) : visible U seg = seg.read := by
  funext i
  simp [visible, h.control, Control.zero]

theorem usable_allocator (h : Flags log g seg) (hu : Usable tx seg) {u : Tx}
    (ha : allocator log g = some u) : u = tx := by
  have hnew : seg.newlyAlloc = true := by rw [h.newlyAlloc, ha]; rfl
  have ho : seg.owner = tx := by
    by_contra hne
    exact hu ⟨hnew, hne⟩
  rw [h.owner, h.holder_new ha] at ho
  exact ho

section Views

variable [DecidableEq W]

theorem view_some (hg : g ∈ r.live) (hd : g ∉ dead)
    (ha : ∀ u, allocator log g = some u → u ∈ U) : view log r dead U g =
      some ⟨(r.seg g).size, visible U (r.seg g), decide (∃ u ∈ U, (u, .free g) ∈ log)⟩ := by
  refine if_pos ⟨hg, hd, ?_⟩
  cases hx : allocator log g with
  | none => rfl
  | some u => simpa using ha u hx

theorem view_empty (log : Log W) (r : Region W) (dead : List SegId) (g : SegId) :
    view log r dead ∅ g = if g ∈ r.live ∧ g ∉ dead ∧ allocator log g = none then
      some ⟨(r.seg g).size, (r.seg g).read, false⟩ else none := by
  have hall : (allocator log g).all (· ∈ (∅ : Finset Tx)) = true ↔ allocator log g = none := by
    cases allocator log g <;> simp
  simp only [view, hall, visible_empty]
  simp

/-- At the start of an epoch all views are the same. -/
theorem view_open (h : ∀ g ∈ r.live, Quiescent (r.seg g)) (U : Finset Tx) :
    view ([] : Log W) r dead U = fun g =>
      if g ∈ r.live ∧ g ∉ dead then some ⟨(r.seg g).size, (r.seg g).read, false⟩ else none := by
  funext g
  by_cases hg : g ∈ r.live
  · simp [view, hg, allocator, visible_quiescent (h g hg)]
  · simp [view, hg]

/-- Views depend on the log through its allocations and frees only. -/
theorem view_congr {log' : Log W} (hl : t.live = r.live)
    (ha : ∀ x ∈ r.live, allocator log' x = allocator log x)
    (hf : ∀ x, ∀ u ∈ U, ((u, .free x) ∈ log' ↔ (u, .free x) ∈ log))
    (hs : ∀ x ∈ r.live, (t.seg x).size = (r.seg x).size ∧
      visible U (t.seg x) = visible U (r.seg x)) :
    view log' t dead U = view log r dead U := by
  funext x
  by_cases hx : x ∈ r.live
  · have hfree : (∃ u ∈ U, (u, .free x) ∈ log') ↔ ∃ u ∈ U, (u, .free x) ∈ log :=
      exists_congr fun u => and_congr_right fun hu => hf x u hu
    simp only [view, hl, ha x hx, hs x hx, hfree]
  · simp only [view, hl, hx, false_and, if_false]

theorem view_snoc (hc : e.claims = none) (hl : t.live = r.live)
    (hs : ∀ x ∈ r.live, (t.seg x).size = (r.seg x).size ∧
      visible U (t.seg x) = visible U (r.seg x)) :
    view (log ++ [(tx, e)]) t dead U = view log r dead U := by
  refine view_congr hl (fun x _ => allocator_snoc fun size he => ?_) (fun x u _ => ?_) hs
  · rw [he] at hc
    cases hc
  · rw [mem_snoc, or_iff_left]
    rintro ⟨rfl, rfl⟩
    cases hc

/-- A read from the read copies, or an end, leaves every view as it was. -/
theorem view_idle (hc : e.claims = none) (U : Finset Tx) :
    view (log ++ [(tx, e)]) r dead U = view log r dead U :=
  view_snoc hc rfl fun _ _ => ⟨rfl, rfl⟩

/-- A call that replaces one segment by one that looks the same. -/
theorem view_touch (hc : e.claims = none) (hs : seg.size = (r.seg g).size)
    (hv : visible U { seg with dirty := true } = visible U (r.seg g)) :
    view (log ++ [(tx, e)]) (touch r g seg) dead U = view log r dead U := by
  refine view_snoc hc rfl fun x _ => ?_
  by_cases hx : x = g
  · subst x
    rw [touch_same]
    exact ⟨hs, hv⟩
  · rw [touch_other hx]
    exact ⟨rfl, rfl⟩

/-- An abort moves no view its transaction does not belong to. -/
theorem view_failed (hf : Failed r tx t) (hU : tx ∉ U) :
    view (log ++ [(tx, .abort)]) t dead U = view log r dead U := by
  have rolled : ∀ {g seg}, seg.size = (r.seg g).size →
      visible U seg = visible U (r.seg g) →
      view (log ++ [(tx, .abort)]) (undo r tx g seg) dead U = view log r dead U := by
    intro g seg hs hv
    refine view_snoc rfl rfl fun x _ => ?_
    by_cases hx : x ∈ r.dirtySegLinks
    · by_cases hxg : x = g
      · subst x
        have he : (undo r tx g seg).seg g = rolledBack tx seg := by simp [undo, hx]
        rw [he, visible_rolledBack hU]
        exact ⟨hs, hv⟩
      · have he : (undo r tx g seg).seg x = rolledBack tx (r.seg x) := by simp [undo, hx, hxg]
        rw [he, visible_rolledBack hU]
        exact ⟨rfl, rfl⟩
    · have he : (undo r tx g seg).seg x = r.seg x := by simp [undo, hx]
      rw [he]
      exact ⟨rfl, rfl⟩
  cases hf with
  | @read g k m _ _ ok => exact rolled rfl (visible_marked tx k m (r.seg g).dirty)
  | @write g k m src _ _ ok =>
    exact rolled rfl (visible_stored_without (r.seg g).dirty hU ok)

variable [Zero W]

/-- How a call moves the views: it takes place in those of its own transaction. -/
structure Moves (log : Log W) (r : Region W) (dead : List SegId) (tx : Tx) (e : Entry W)
    (t : Region W) : Prop where
  without : ∀ U, tx ∉ U → view (log ++ [(tx, e)]) t dead U = view log r dead U
  within : ∀ U, tx ∈ U →
    exec (view log r dead U) e = some (view (log ++ [(tx, e)]) t dead U)

theorem read_moves (hb : Books log r) (hg : g ∈ r.live) (hd : g ∉ dead) {k n : ℕ}
    (hk : k + n ≤ (r.seg g).size) (hu : Usable tx (r.seg g))
    (ok : ∀ i, inRange k n i = true → (canReadWord tx ((r.seg g).control i)).1 = true) :
    Moves log r dead tx (.read g k (copyOut (r.seg g).write k n))
      (touch r g (marked tx (r.seg g) k n)) := by
  have same : ∀ U, view (log ++ [(tx, .read g k (copyOut (r.seg g).write k n))])
      (touch r g (marked tx (r.seg g) k n)) dead U = view log r dead U :=
    fun U => view_touch rfl rfl (visible_marked tx k n true)
  refine ⟨fun U _ => same U, fun U hU => ?_⟩
  rw [same]
  have flags := (hb.kept g hg).toFlags
  refine modify_idle (view_some hg hd fun u ha => usable_allocator flags hu ha ▸ hU) (if_pos ?_)
  rw [copyOut_length]
  refine ⟨hk, List.map_congr_left fun j hj => ?_⟩
  rw [List.mem_range] at hj
  -- an unwritten word has equal copies, a written one is the reader's own
  have hi := ok (k + j) (by rw [inRange_iff]; omega)
  cases hw : ((r.seg g).control (k + j)).written with
  | true =>
    have ha : ((r.seg g).control (k + j)).access = tx := by
      simpa [hw] using canReadWord_pass.mp hi
    simp [visible, hw, ha, hU]
  | false => simpa [visible, hw] using (((hb.kept g hg).words (k + j)).equal hw).symm

theorem write_moves (hb : Books log r) (hg : g ∈ r.live) (hd : g ∉ dead) {k : ℕ} {src : List W}
    (hk : k + src.length ≤ (r.seg g).size) (hu : Usable tx (r.seg g))
    (ok : ∀ i, inRange k src.length i = true →
      (canWriteWord tx ((r.seg g).control i)).1 = true) :
    Moves log r dead tx (.write g k src)
      (touch r g (stored tx (r.seg g) k src src.length)) := by
  refine ⟨fun U hU => view_touch rfl rfl (visible_stored_without true hU ok), fun U hU => ?_⟩
  have own : ∀ u, allocator log g = some u → u ∈ U := fun u ha =>
    usable_allocator (hb.kept g hg).toFlags hu ha ▸ hU
  refine modify_eq_some.mpr ⟨_, _, view_some hg hd own, if_pos hk, ?_⟩
  have hlog : ∀ x, allocator (log ++ [(tx, .write g k src)]) x = allocator log x := fun x =>
    allocator_snoc (by simp)
  funext x
  by_cases hx : x = g
  · subst x
    have hlive : g ∈ (touch r g (stored tx (r.seg g) k src src.length)).live := hg
    rw [Function.update_self, view_some hlive hd fun u ha => own u (hlog g ▸ ha), touch_same]
    have hvis : visible U { stored tx (r.seg g) k src src.length with dirty := true } =
        fun i => if inRange k src.length i then (src[i - k]?).getD (visible U (r.seg g) i)
          else visible U (r.seg g) i := funext fun i => visible_stored_within hU ok rfl i
    rw [hvis]
    simp [Block.store, stored]
  · rw [Function.update_of_ne hx]
    simp [view, hlog, touch, hx]

theorem alloc_moves_fresh (hfree : r.nextSeg ∉ r.live)
    (unclaimed : ∀ u e, (u, e) ∈ log → e.claims ≠ some r.nextSeg) (hd : r.nextSeg ∉ dead)
    (size : ℕ) : Moves log r dead tx (.alloc r.nextSeg size) (tmAlloc r tx size) := by
  have hnone : allocator log r.nextSeg = none := by
    cases ha : allocator log r.nextSeg with
    | none => rfl
    | some u =>
      obtain ⟨n, hin⟩ := mem_of_allocator ha
      exact (unclaimed _ _ hin rfl).elim
  have new : allocator (log ++ [(tx, .alloc r.nextSeg size)]) r.nextSeg = some tx :=
    allocator_alloc size hnone
  have other : ∀ U x, x ≠ r.nextSeg →
      view (log ++ [(tx, .alloc r.nextSeg size)]) (tmAlloc r tx size) dead U x =
        view log r dead U x := by
    intro U x hx
    have ha : allocator (log ++ [(tx, .alloc r.nextSeg size)]) x = allocator log x :=
      allocator_snoc fun n he => hx (by injection he with h; exact h.symm)
    have hseg : (tmAlloc r tx size).seg x = r.seg x := Region.setSeg_other _ _ _ hx
    have hlive : x ∈ (tmAlloc r tx size).live ↔ x ∈ r.live := by
      simp [tmAlloc, hx]
    simp [view, ha, hseg, hlive]
  have before : ∀ U, view log r dead U r.nextSeg = none := fun U => if_neg fun h => hfree h.1
  refine ⟨fun U hU => ?_, fun U hU => create_eq_some.mpr ⟨before U, ?_⟩⟩
  · funext x
    by_cases hx : x = r.nextSeg
    · subst x
      rw [before]
      exact if_neg fun h => hU (by simpa [new] using h.2.2)
    · exact other U x hx
  · funext x
    by_cases hx : x = r.nextSeg
    · subst x
      have hlive : r.nextSeg ∈ (tmAlloc r tx size).live := Finset.mem_insert_self _ _
      have hseg : (tmAlloc r tx size).seg r.nextSeg = allocSegment size tx :=
        Region.setSeg_same _ _ _
      have hfreed : ¬ ∃ u ∈ U, (u, .free r.nextSeg) ∈ log ++ [(tx, .alloc r.nextSeg size)] := by
        rintro ⟨u, -, hin⟩
        rcases mem_snoc.mp hin with hin | hin
        · exact unclaimed _ _ hin rfl
        · cases hin
      rw [Function.update_self, view_some hlive hd fun u ha => ?_, hseg, decide_eq_false hfreed]
      · rfl
      · rw [new] at ha
        cases ha
        exact hU
    · rw [Function.update_of_ne hx]
      exact other U x hx

theorem alloc_moves (hb : Books log r) (hd : r.nextSeg ∉ dead) (size : ℕ) :
    Moves log r dead tx (.alloc r.nextSeg size) (tmAlloc r tx size) :=
  alloc_moves_fresh hb.tidy.nextSeg_free
    (fun u e hin hc => hb.tidy.nextSeg_free ((hb.filed u e hin).claimed _ hc)) hd size

theorem free_moves (hg : g ∈ r.live) (hd : g ∉ dead)
    (ho : allocator log g = none ∨ allocator log g = some tx) :
    Moves log r dead tx (.free g)
      (touch r g { r.seg g with shouldFree := true, owner := tx }) := by
  have hlog : ∀ x, allocator (log ++ [(tx, .free g)]) x = allocator log x := fun x =>
    allocator_snoc (by simp)
  have hseg : ∀ U x,
      ((touch r g { r.seg g with shouldFree := true, owner := tx }).seg x).size =
        (r.seg x).size ∧
      visible U ((touch r g { r.seg g with shouldFree := true, owner := tx }).seg x) =
        visible U (r.seg x) := by
    intro U x
    by_cases hx : x = g
    · subst x
      rw [touch_same]
      exact ⟨rfl, rfl⟩
    · rw [touch_other hx]
      exact ⟨rfl, rfl⟩
  refine ⟨fun U hU => view_congr rfl (fun x _ => hlog x) (fun x u hu => ?_) fun x _ => hseg U x,
    fun U hU => ?_⟩
  · rw [mem_snoc, or_iff_left]
    rintro ⟨rfl, -⟩
    exact hU hu
  · have own : ∀ u, allocator log g = some u → u ∈ U := by
      intro u ha
      rcases ho with ho | ho <;> rw [ho] at ha <;> cases ha
      exact hU
    refine modify_eq_some.mpr ⟨_, _, view_some hg hd own, rfl, ?_⟩
    funext x
    by_cases hx : x = g
    · subst x
      have hlive : g ∈ (touch r g { r.seg g with shouldFree := true, owner := tx }).live := hg
      rw [Function.update_self, view_some hlive hd fun u ha => own u (hlog g ▸ ha),
        (hseg U g).1, (hseg U g).2]
      have : ∃ u ∈ U, (u, .free g) ∈ log ++ [(tx, .free g)] := ⟨tx, hU, by simp⟩
      simp only [this, decide_true]
    · rw [Function.update_of_ne hx]
      have hf : ∀ u, (u, .free x) ∈ log ++ [(tx, .free g)] ↔ (u, .free x) ∈ log := by
        intro u
        rw [mem_snoc, or_iff_left]
        intro he
        cases he
        exact hx rfl
      simp [view, hlog, touch, hx]

/-- Every successful call of a read-write transaction takes place in its own views. -/
theorem done_moves (hb : Books log r) (hro : isTxReadonly tx = false) (hd : Done log r tx e t)
    (hs : ∀ g, e.segment = some g → g ∉ dead) : Moves log r dead tx e t := by
  cases hd with
  | readCopy _ _ _ h =>
    rw [hro] at h
    cases h
  | read hg hk hu _ ok => exact read_moves hb hg (hs _ rfl) hk hu ok
  | write hg hk hu ok => exact write_moves hb hg (hs _ rfl) hk hu ok
  | alloc => exact alloc_moves hb (hs _ rfl) _
  | free hg ho => exact free_moves hg (hs _ rfl) ho

/-- A read from the read copies takes place in the view of nobody. -/
theorem readCopy_stays (hg : g ∈ r.live) (hd : g ∉ dead) {k n : ℕ}
    (hk : k + n ≤ (r.seg g).size) (ha : allocator log g = none) :
    exec (view log r dead ∅) (.read g k (copyOut (r.seg g).read k n)) =
      some (view log r dead ∅) := by
  refine modify_idle (view_some hg hd fun u hu => ?_) (if_pos ?_)
  · rw [ha] at hu
    cases hu
  · rw [copyOut_length, visible_empty]
    exact ⟨hk, rfl⟩

end Views

end SerialViews
