import TransactionalMemory.ListSequences

/-! # The walk of `epoch_cleanup`

The loop follows `next` through a ring while it takes out, moves or releases the links it
stands on. It reads `next` before that, and its head is the last link to go. -/
namespace CleanupLoop

open CircularLists
open RegionState (SegId Segment walk)
open LinkHeap
open ListRefinement
open ListSequences

variable {W : Type}

/-- What the loop does with the segment of a link. -/
def cleanupSegment (m : Heap W) (g : SegId) : Except Fault (Heap W) := do
  let seg ← deref (m.seg g)
  if seg.successFree || seg.failureAlloc then
    let m ← linkRemoveOf m .dirtySegLinks g true
    m.freeSegment g
  else
    let m := m.setSeg g { seg with toSegment := seg.commit }
    let m ← moveToClean m g
    let seg ← deref (m.seg g)
    return m.setSeg g { seg with toSegment := seg.resetFlags }

/-- The loop of `epoch_cleanup`; the first component is the segments it visited. -/
def cleanupLoop : ℕ → Heap W → LinkId → Except Fault (List SegId × Heap W)
  | 0, _, _ => .error .fuel
  | n + 1, m, link => do
    let isLast := m.dirtySegLinks = some link
    let node ← deref (m.link link)
    if ¬ isLast ∧ (node.prev = some link ∨ node.next = some link) then
      .error .assertion
    else
      let next := node.next
      let m ← cleanupSegment m node.seg
      if isLast then return ([node.seg], m)
      else
        let (visited, m) ← cleanupLoop n m (← deref next)
        return (node.seg :: visited, m)

def epochCleanup (n : ℕ) (m : Heap W) : Except Fault (List SegId × Heap W) := do
  match m.dirtySegLinks with
  | none => return ([], m)
  | some base =>
    let node ← deref (m.link base)
    cleanupLoop n m (← deref node.next)

/-- The segment qualifies for its release. -/
def drops (m : Heap W) (g : SegId) : Bool := ((m.seg g).map fun s => s.dropped).getD false

/-- The sequences after the walk, where `kept` are the survivors. -/
def Lists.swept (L : Lists) (kept : List SegId) : Lists
  | .segLinks => L .segLinks ++ kept
  | .dirtySegLinks => []

def afterTurn (m : Heap W) (L : Lists) (g : SegId) : Lists :=
  if drops m g then L.erase .dirtySegLinks g
  else (L.erase .dirtySegLinks g).append .segLinks g

/-- The heap when the walk has visited the segments `l`. -/
structure Swept (m t : Heap W) (node : SegId → LinkId) (l : List SegId) : Prop where
  survivor : ∀ g ∈ l, ∀ s, m.seg g = some s → s.dropped = false →
    t.seg g = some { s with toSegment := s.commit.resetFlags }
  released : ∀ g ∈ l, drops m g = true → t.seg g = none ∧ t.link (node g) = none
  other : ∀ g, g ∉ l → t.seg g = m.seg g
  freedSegs : t.freedSegs = m.freedSegs ++ l.filter (drops m)
  freedLinks : t.freedLinks = m.freedLinks ++ (l.filter (drops m)).map node
  owner : ∀ p, (∀ g ∈ l, drops m g = true → node g ≠ p) →
    (t.link p).map Link.seg = (m.link p).map Link.seg

variable {m t u : Heap W} {node : SegId → LinkId} {L : Lists} {g b : SegId} {s : Block W}
variable {l rest : List SegId}

theorem drops_eq (hs : m.seg g = some s) : drops m g = s.dropped := by
  simp [drops, hs]

theorem Swept.nil : Swept m m node [] := by
  constructor <;> simp

/-- A turn that releases the segment and its link. -/
theorem turn_released (h : Represents m node L) (hg : g ∈ L .dirtySegLinks)
    (hs : m.seg g = some s) (hdrop : s.dropped = true) : ∃ t, cleanupSegment m g = .ok t ∧
      Represents t node (L.erase .dirtySegLinks g) ∧ Swept m t node [g] := by
  obtain ⟨t, hrel, hrep, -, ht⟩ := h.linkRemoveOf hg hs
  have hout : ∀ c, ∀ x ∈ (L.erase .dirtySegLinks g) c, node x ≠ node g := by
    intro c x hx he
    rw [mem_erase h] at hx
    have hxg := h.node_inj hx.1 hg he
    exact hx.2 ⟨hxg, h.apart _ _ g (hxg ▸ hx.1) hg⟩
  have hgone := h.erased hg
  have hrep' := ((hrep.dropLink hout).setSeg (g := g) (s := { s with link := none })
    fun c hin => (hgone c hin).elim).dropSeg hgone
  have hm := drops_eq hs
  refine ⟨((t.dropLink (node g)).setSeg g { s with link := none }).dropSeg g, ?_, hrep',
    fun x hx s' hs' hkeep => ?_, fun x hx _ => ?_, fun x hx => ?_, ?_, ?_, fun p hp => ?_⟩
  · have hseg : ((t.dropLink (node g)).setSeg g { s with link := none }).seg g =
        some { s with link := none } := Function.update_self _ _ _
    rw [Segment.dropped] at hdrop
    simp only [cleanupSegment, hs, deref_some, ok_bind, hdrop, if_true, ht, Heap.freeSegment,
      hseg, pure_ok]
  · rw [List.mem_singleton] at hx
    subst x
    rw [hs, Option.some.injEq] at hs'
    rw [← hs', hdrop] at hkeep
    cases hkeep
  · rw [List.mem_singleton] at hx
    subst x
    simp [Heap.dropSeg, Heap.setSeg, Heap.dropLink]
  · rw [List.mem_singleton] at hx
    simp [Heap.dropSeg, Heap.setSeg, Heap.dropLink, hx, hrel.seg]
  · simp [Heap.dropSeg, Heap.setSeg, Heap.dropLink, hrel.freedSegs, hm, hdrop]
  · simp [Heap.dropSeg, Heap.setSeg, Heap.dropLink, hrel.freedLinks, hm, hdrop]
  · have hne : p ≠ node g := (hp g (by simp) (by rw [hm, hdrop])).symm
    simp [Heap.dropSeg, Heap.setSeg, Heap.dropLink, hne, hrel.owner]

/-- A turn that commits the segment and moves its link. -/
theorem turn_survives (h : Represents m node L) (hg : g ∈ L .dirtySegLinks)
    (hs : m.seg g = some s) (hd : s.dirty = true) (hdrop : s.dropped = false) :
    ∃ t, cleanupSegment m g = .ok t ∧
      Represents t node ((L.erase .dirtySegLinks g).append .segLinks g) ∧
      Swept m t node [g] := by
  have hl : s.link = some (node g) := by simpa [hs] using h.attached _ g hg
  have hm := drops_eq hs
  have hcommit := h.setSeg (g := g) (s := { s with toSegment := s.commit }) fun _ _ => hl
  obtain ⟨t, ht, hrel, hrep⟩ := hcommit.moveToClean (s := { s with toSegment := s.commit }) hg
    (by simp [Heap.setSeg]) hd
  have hts : t.seg g = some { s with toSegment := { s.commit with dirty := false } } := by
    rw [hrel.seg]
    simp [Heap.setSeg]
  have hother : ∀ x, x ≠ g → t.seg x = m.seg x := by
    intro x hx
    rw [hrel.seg]
    simp [Heap.setSeg, hx]
  refine ⟨t.setSeg g { s with toSegment := s.commit.resetFlags }, ?_, hrep.setSeg fun _ _ => hl,
    fun x hx s' hs' _ => ?_, fun x hx hgone => ?_, fun x hx => ?_, ?_, ?_, fun p _ => ?_⟩
  · rw [Segment.dropped] at hdrop
    simp only [cleanupSegment, hs, deref_some, ok_bind, hdrop, Bool.false_eq_true, if_false, ht,
      hts, pure_ok]
    rfl
  · rw [List.mem_singleton] at hx
    subst x
    rw [hs, Option.some.injEq] at hs'
    simp [Heap.setSeg, hs']
  · rw [List.mem_singleton] at hx
    subst x
    rw [hm, hdrop] at hgone
    cases hgone
  · rw [List.mem_singleton] at hx
    simp [Heap.setSeg, hx, hother x hx]
  · simp [Heap.setSeg, hrel.freedSegs, hm, hdrop]
  · simp [Heap.setSeg, hrel.freedLinks, hm, hdrop]
  · simpa [Heap.setSeg] using hrel.owner p

/-- One turn visits one segment. -/
theorem turn_swept (h : Represents m node L) (hg : g ∈ L .dirtySegLinks)
    (hd : Named m .dirtySegLinks g) : ∃ t, cleanupSegment m g = .ok t ∧
      Represents t node (afterTurn m L g) ∧ Swept m t node [g] := by
  obtain ⟨s, hs, -⟩ := h.block hg
  have hflag : s.dirty = true := by simpa [Named, hs] using hd
  rw [afterTurn, drops_eq hs]
  cases hdrop : s.dropped with
  | true => exact turn_released h hg hs hdrop
  | false => exact turn_survives h hg hs hflag hdrop

/-- Two walks in a row, over different segments. -/
theorem Swept.trans (h : Swept m t node [g]) (k : Swept t u node l) (hg : g ∉ l)
    (hn : ∀ x ∈ l, node x ≠ node g) : Swept m u node (g :: l) := by
  have same : ∀ x ∈ l, t.seg x = m.seg x := fun x hx =>
    h.other x (by rw [List.mem_singleton]; rintro rfl; exact hg hx)
  have drop : ∀ x ∈ l, drops t x = drops m x := fun x hx => by rw [drops, drops, same x hx]
  have filt : l.filter (drops t) = l.filter (drops m) := List.filter_congr drop
  refine ⟨fun x hx s hs hkeep => ?_, fun x hx hgone => ?_, fun x hx => ?_, ?_, ?_,
    fun p hp => ?_⟩
  · rcases List.mem_cons.mp hx with rfl | hx
    · rw [k.other x hg]
      exact h.survivor x (by simp) s hs hkeep
    · exact k.survivor x hx s ((same x hx).trans hs) hkeep
  · rcases List.mem_cons.mp hx with rfl | hx
    · obtain ⟨hseg, hlink⟩ := h.released x (by simp) hgone
      refine ⟨(k.other x hg).trans hseg, ?_⟩
      have := k.owner (node x) fun y hy _ => hn y hy
      simpa [hlink] using this
    · exact k.released x hx (by rw [drop x hx, hgone])
  · rw [List.mem_cons, not_or] at hx
    rw [k.other x hx.2, h.other x (by simpa using hx.1)]
  · rw [k.freedSegs, h.freedSegs, filt, List.append_assoc, ← List.filter_append]
    rfl
  · rw [k.freedLinks, h.freedLinks, filt, List.append_assoc, ← List.map_append,
      ← List.filter_append]
    rfl
  · rw [k.owner p fun x hx hgone => hp x (by simp [hx]) (by rw [← drop x hx, hgone]),
      h.owner p fun x hx hgone => hp x (by simp_all) hgone]

/-- The link that comes second in the ring. -/
theorem second (h : Represents m node L) {x : SegId} (hL : L .dirtySegLinks = b :: x :: rest) :
    ∃ n y, m.link (node x) = some n ∧ n.seg = x ∧ n.prev = some (node b) ∧
      n.next = some (node y) ∧ (rest ++ [b]).head? = some y := by
  have hx : x ∈ L .dirtySegLinks := by simp [hL]
  obtain ⟨a, -, c, -, ha, hc, hprev, hnext⟩ := h.neighbours [b] (g := x) hL
  obtain ⟨n, hn, hseg⟩ := Option.map_eq_some_iff.mp (h.back _ x hx)
  rw [← List.cons_append, List.getLast?_concat, Option.some.injEq] at ha
  have hyc : (rest ++ [b]).head? = some c := by
    rw [List.head?_append_of_ne_nil _ (by simp)] at hc
    exact hc
  refine ⟨n, c, hn, hseg, ?_, ?_, hyc⟩
  · simpa [Heap.fields, hn, ha] using hprev
  · simpa [Heap.fields, hn] using hnext

theorem afterTurn_dirty (h : Represents m node L) {x : SegId}
    (hL : L .dirtySegLinks = b :: x :: rest) : afterTurn m L x .dirtySegLinks = b :: rest := by
  have hnd := h.nodup .dirtySegLinks
  rw [hL, List.nodup_cons] at hnd
  have hbx : b ≠ x := fun he => hnd.1 (by simp [he])
  have : (L .dirtySegLinks).erase x = b :: rest := by
    rw [hL, List.erase_cons_tail (by simpa using hbx), List.erase_cons_head]
  rw [afterTurn]
  split_ifs <;> simp [Lists.erase, Lists.append, this]

theorem afterTurn_clean : afterTurn m L g .segLinks =
    L .segLinks ++ [g].filter fun x => !drops m x := by
  cases hd : drops m g <;> simp [afterTurn, hd, Lists.erase, Lists.append]

theorem afterTurn_alone (hL : L .dirtySegLinks = [g]) :
    afterTurn m L g = Lists.swept L ([g].filter fun x => !drops m x) := by
  funext c
  cases c with
  | segLinks => exact afterTurn_clean
  | dirtySegLinks =>
    rw [afterTurn]
    split_ifs <;> simp [Lists.swept, Lists.erase, Lists.append, hL]

theorem swept_afterTurn : Lists.swept (afterTurn m L g) (l.filter fun x => !drops m x) =
    Lists.swept L ((g :: l).filter fun x => !drops m x) := by
  funext c
  cases c with
  | segLinks =>
    rw [Lists.swept, Lists.swept, afterTurn_clean, List.append_assoc, ← List.filter_append]
    rfl
  | dirtySegLinks => rfl

theorem swept_nil (hL : L .dirtySegLinks = []) : Lists.swept L [] = L := by
  funext c
  cases c with
  | segLinks => exact List.append_nil _
  | dirtySegLinks => exact hL.symm

/-- The walk from the second link of the ring to its head. -/
theorem cleanupLoop_swept (h : Represents m node L) (hL : L .dirtySegLinks = b :: rest)
    (hd : ∀ g ∈ L .dirtySegLinks, Named m .dirtySegLinks g) {n : ℕ} (hn : rest.length < n)
    {x : SegId} (hx : (rest ++ [b]).head? = some x) :
    ∃ t, cleanupLoop n m (node x) = .ok (rest ++ [b], t) ∧
      Represents t node (Lists.swept L ((rest ++ [b]).filter fun g => !drops m g)) ∧
      Swept m t node (rest ++ [b]) := by
  have hb : b ∈ L .dirtySegLinks := by simp [hL]
  have hbase : m.dirtySegLinks = some (node b) := h.base_cons hL
  induction rest generalizing m L n x with
  | nil =>
    obtain ⟨n, rfl⟩ := Nat.exists_eq_succ_of_ne_zero (Nat.ne_of_gt hn)
    have hxb : b = x := by simpa using hx
    subst x
    obtain ⟨t, ht, hrep, hswept⟩ := turn_swept h hb (hd b hb)
    obtain ⟨k, hk, hseg⟩ := Option.map_eq_some_iff.mp (h.back _ b hb)
    refine ⟨t, ?_, ?_, hswept⟩
    · simp [cleanupLoop, hbase, hk, hseg, ht]
    · exact afterTurn_alone (m := m) hL ▸ hrep
  | cons y rest ih =>
    obtain ⟨n, rfl⟩ := Nat.exists_eq_succ_of_ne_zero (Nat.ne_of_gt (Nat.zero_lt_of_lt hn))
    have hyx : y = x := by simpa using hx
    subst x
    have hy : y ∈ L .dirtySegLinks := by simp [hL]
    have hnd := h.nodup .dirtySegLinks
    rw [hL, List.nodup_cons, List.nodup_cons] at hnd
    have hby : b ≠ y := fun he => hnd.1 (by simp [he])
    have hnode : node b ≠ node y := fun he => hby (h.node_inj hb hy he)
    obtain ⟨k, z, hk, hseg, hprev, hnext, hz⟩ := second h hL
    obtain ⟨t, ht, hrep, hturn⟩ := turn_swept h hy (hd y hy)
    have hL' := afterTurn_dirty h hL
    have hout : ∀ g ∈ rest ++ [b], g ≠ y ∧ g ∈ L .dirtySegLinks := by
      intro g hg
      rw [List.mem_append, List.mem_singleton] at hg
      rcases hg with hg | rfl
      · exact ⟨fun he => hnd.2.1 (he ▸ hg), by simp [hL, hg]⟩
      · exact ⟨hby, hb⟩
    have hsame : ∀ g ∈ rest ++ [b], t.seg g = m.seg g := fun g hg =>
      hturn.other g (by simpa using (hout g hg).1)
    have hflags : ∀ g ∈ afterTurn m L y .dirtySegLinks, Named t .dirtySegLinks g := by
      intro g hg
      have hin : g ∈ rest ++ [b] := by
        rw [hL'] at hg
        simpa [or_comm] using hg
      rw [Named, hsame g hin]
      exact hd g (hout g hin).2
    have hbase' : t.dirtySegLinks = some (node b) := hrep.base_cons hL'
    obtain ⟨u, hu, hrep', hrest⟩ := ih hrep hL' hflags (Nat.lt_of_succ_lt_succ hn) hz
      (by simp [hL']) hbase'
    have hfilter : (rest ++ [b]).filter (fun g => !drops t g) =
        (rest ++ [b]).filter fun g => !drops m g :=
      List.filter_congr fun g hg => by rw [drops, drops, hsame g hg]
    rw [hfilter, swept_afterTurn] at hrep'
    refine ⟨u, ?_, hrep', hturn.trans hrest (fun hin => (hout y hin).1 rfl) fun g hg he => ?_⟩
    · have hne : ¬ m.dirtySegLinks = some (node y) := by simpa [hbase] using hnode
      have hprev' : ¬ k.prev = some (node y) := by simpa [hprev] using hnode
      have hzy : node z ≠ node y := by
        have hzin := hout z (List.mem_of_head? hz)
        exact fun he => hzin.1 (h.node_inj hzin.2 hy he)
      simp [cleanupLoop, hk, hne, hprev', hzy, hseg, ht, hnext, hu]
    · exact (hout g hg).1 (h.node_inj (hout g hg).2 hy he)

theorem epochCleanup_swept (h : Represents m node L)
    (hd : ∀ g ∈ L .dirtySegLinks, Named m .dirtySegLinks g) {n : ℕ}
    (hn : (L .dirtySegLinks).length ≤ n) :
    ∃ t, epochCleanup n m = .ok (walk (L .dirtySegLinks), t) ∧
      Represents t node
        (Lists.swept L ((walk (L .dirtySegLinks)).filter fun g => !drops m g)) ∧
      Swept m t node (walk (L .dirtySegLinks)) := by
  cases hL : L .dirtySegLinks with
  | nil =>
    have hbase : m.dirtySegLinks = none := h.base_nil hL
    exact ⟨m, by simp [epochCleanup, hbase, walk], (swept_nil hL).symm ▸ h, Swept.nil⟩
  | cons b rest =>
    have hbase : m.dirtySegLinks = some (node b) := h.base_cons hL
    obtain ⟨a, -, c, -, -, hhead, -, hnext⟩ := h.neighbours [] hL
    rw [List.append_nil] at hhead
    obtain ⟨k, hk, hknext⟩ := Option.bind_eq_some_iff.mp hnext
    have hlen : rest.length < n := by simpa [hL, Nat.succ_le_iff] using hn
    obtain ⟨t, ht, hrep, hswept⟩ := cleanupLoop_swept h hL hd hlen hhead
    exact ⟨t, by simp [epochCleanup, hbase, hk, hknext, ht, walk], hrep, hswept⟩

/-- What `epoch_cleanup` makes of the lists `L` and their segments. -/
structure CleanedUp (m t : Heap W) (node : SegId → LinkId) (L : Lists) : Prop where
  empty : t.dirtySegLinks = none
  lists : Represents t node
    (Lists.swept L ((walk (L .dirtySegLinks)).filter fun g => !drops m g))
  survivor : ∀ g ∈ L .dirtySegLinks, ∀ s, m.seg g = some s → drops m g = false →
    t.seg g = some { s with
      control := fun _ => .zero, read := s.write, owner := 0#64, newlyAlloc := false,
      shouldFree := false, dirty := false, rollback := false }
  released : ∀ g ∈ L .dirtySegLinks, drops m g = true →
    t.seg g = none ∧ t.link (node g) = none
  clean : ∀ g, g ∉ L .dirtySegLinks → t.seg g = m.seg g
  freedSegs : t.freedSegs = m.freedSegs ++ (walk (L .dirtySegLinks)).filter (drops m)
  freedLinks :
    t.freedLinks = m.freedLinks ++ ((walk (L .dirtySegLinks)).filter (drops m)).map node
  owner : ∀ p, (∀ g ∈ L .dirtySegLinks, drops m g = true → node g ≠ p) →
    (t.link p).map Link.seg = (m.link p).map Link.seg

theorem Swept.cleanedUp (h : Swept m t node (walk (L .dirtySegLinks)))
    (hrep : Represents t node
      (Lists.swept L ((walk (L .dirtySegLinks)).filter fun g => !drops m g))) :
    CleanedUp m t node L where
  empty := hrep.base .dirtySegLinks
  lists := hrep
  survivor g hg s hs hkeep :=
    h.survivor g (RegionState.mem_walk.mpr hg) s hs (by rw [← drops_eq hs, hkeep])
  released g hg := h.released g (RegionState.mem_walk.mpr hg)
  clean g hg := h.other g (mt RegionState.mem_walk.mp hg)
  freedSegs := h.freedSegs
  freedLinks := h.freedLinks
  owner p hp := h.owner p fun g hg => hp g (RegionState.mem_walk.mp hg)

/-- On two rings of any lengths, with the dirty flags right, `epoch_cleanup` ends after one
turn for each dirty segment, without a fault. -/
theorem epoch_cleanup_on_heap (h : Represents m node L) (hf : ∀ b, ∀ g ∈ L b, Named m b g)
    {n : ℕ} (hn : (L .dirtySegLinks).length ≤ n) :
    ∃ t, epochCleanup n m = .ok (walk (L .dirtySegLinks), t) ∧ CleanedUp m t node L := by
  obtain ⟨t, ht, hrep, hswept⟩ := epochCleanup_swept h (hf .dirtySegLinks) hn
  exact ⟨t, ht, hswept.cleanedUp hrep⟩

/-- Segment 1 has to be committed, segment 2 was allocated by a transaction that aborted. -/
def aborted : Heap ℕ :=
  { blocks with seg := fun g => (blocks.seg g).map fun s => { s with rollback := decide (g = 2) } }

def inserted : List Op :=
  [.insert .segLinks 0 10, .insert .dirtySegLinks 1 11, .insert .dirtySegLinks 2 12]

def start : State ℕ := ⟨aborted, fun _ => [], ∅⟩
def beforeCleanup : State ℕ := (TransitionSystem.run (system ℕ) start inserted).getD start

theorem epoch_cleanup_on_heap_aborted : ∃ t, epochCleanup 2 beforeCleanup.heap = .ok ([2, 1], t) ∧
    t.dirtySegLinks = none ∧ t.freedSegs = [2] := by
  have hr : TransitionSystem.Reachable (system ℕ) Admissible beforeCleanup :=
    .run (.init (s := start) ⟨rfl, rfl, rfl, rfl⟩) inserted (by decide) rfl
  have hsound := reachable_sound hr
  obtain ⟨node, hrep, -⟩ := hsound.rings
  obtain ⟨t, ht, hclean⟩ := epoch_cleanup_on_heap hrep hsound.named (n := 2) (by decide)
  exact ⟨t, ht, hclean.empty, hclean.freedSegs⟩

end CleanupLoop
