import TransactionalMemory.HeapCalls

/-! # From `tm_create` to `tm_destroy`

Every block and every link is released once, at the end of an epoch or by `tm_destroy`, and
until then nothing that was released can be reached. -/
namespace SegmentLifecycle

open TransitionSystem
open CircularLists
open BatcherState
open ControlWord
open RegionState (SegId Region)
open Calls (txId)
open AtomicCalls (Event)
open LinkHeap
open ListRefinement
open HeapCalls

variable {W : Type}

/-- `used` are the handles given out so far, `active` those admitted that have not left. -/
structure State (W : Type) where
  shared : Shared W
  transCounter : BitVec 32
  used : Finset Tx
  active : Finset Tx

def tmBegin (s : State W) (isRo : Bool) : State W :=
  let tx := txId s.transCounter isRo
  { s with
    shared := { s.shared with batcher := enterBatcher s.shared.batcher tx }
    transCounter := s.transCounter + 1
    used := insert tx s.used
    active := if s.shared.batcher.remaining = 0 then insert tx s.active else s.active }

/-- `tx` has left the batcher; the last to leave admits those that wait. -/
def State.leave (s : State W) (tx : Tx) (m : Shared W) : State W :=
  { s with
    shared := m
    active := if lastToLeave s.shared.batcher then s.shared.batcher.waiters
      else s.active.erase tx }

def call [Zero W] (s : State W) : Event W → Except Fault (State W)
  | .begin isRo => return tmBegin s isRo
  | .read tx g k n => do
    let (res, m) ← tmRead s.shared tx g k n
    return if res.isSome then { s with shared := m } else s.leave tx m
  | .write tx g k src => do
    let (res, m) ← tmWrite s.shared tx g k src
    return if res then { s with shared := m } else s.leave tx m
  | .alloc tx size true => do
    let m ← tmAlloc s.shared tx size
    return { s with shared := m }
  | .alloc _ _ false => return s
  | .free tx g => do
    let m ← tmFree s.shared tx g
    return { s with shared := m }
  | .finish tx => do
    let m ← leaveBatcher s.shared
    return s.leave tx m

/-- Only transactions that were admitted and have not failed or ended make calls. -/
def Running (s : State W) (e : Event W) : Prop := e.caller.elim True fun tx => tx ∈ s.active

instance (s : State W) (e : Event W) : Decidable (Running s e) :=
  match h : e.caller with
  | none => isTrue (by simp [Running, h])
  | some tx => decidable_of_iff (tx ∈ s.active) (by simp [Running, h])

abbrev system (W : Type) [Zero W] (size : ℕ) : System (State W) (Event W) where
  init s := ∃ m c, tmCreate size = .ok m ∧ s = ⟨m, c, ∅, ∅⟩
  step s e := if Running s e then (call s e).toOption else none

/-- Handles are not reused, fewer than `2 ^ 31` transactions are in progress at any time,
calls name blocks in use, and nobody frees the first segment. -/
def Careful (s : State W) : Event W → Prop
  | .begin isRo =>
    txId s.transCounter isRo ∉ s.used ∧
      s.active.card + s.shared.batcher.waiters.card + 1 < 2 ^ 31
  | .read _ g _ _ | .write _ g _ _ => (s.shared.heap.seg g).isSome
  | .free _ g => (s.shared.heap.seg g).isSome ∧ g ≠ s.shared.start
  | .alloc .. | .finish _ => True

instance (s : State W) (e : Event W) : Decidable (Careful s e) :=
  match e with
  | .begin _ | .free .. => inferInstanceAs (Decidable (_ ∧ _))
  | .read .. | .write .. => inferInstanceAs (Decidable (_ = true))
  | .alloc .. | .finish _ => inferInstanceAs (Decidable True)

/-- The loop of `tm_destroy`. -/
def destroyLoop : ℕ → Heap W → LinkId → Except Fault (Heap W)
  | 0, _, _ => .error .fuel
  | n + 1, m, link => do
    let isLast := m.segLinks = some link
    let node ← deref (m.link link)
    let next := node.next
    let (_, m) ← linkRemove m .segLinks link true
    let m ← m.freeSegment node.seg
    if isLast then return m else destroyLoop n m (← deref next)

/-- `tm_destroy` up to the release of the batcher and the region themselves. -/
def tmDestroy (s : Shared W) : Except Fault (Heap W) := do
  let base ← deref s.heap.segLinks
  destroyLoop s.nextLink s.heap (← deref (← deref (s.heap.link base)).next)

/-- A pointer of the region leads to the link. -/
def Reached (m : Heap W) (p : LinkId) : Prop :=
  ∃ b base, m.base b = some base ∧ Relation.ReflTransGen
    (fun p q => m.fields.next p = some q ∨ m.fields.prev p = some q) base p

/-- What can be reached was not released. -/
structure Safe (s : Shared W) : Prop where
  link : ∀ p, Reached s.heap p → p ∉ s.heap.freedLinks ∧ ∃ k, s.heap.link p = some k ∧
    k.seg ∉ s.heap.freedSegs ∧ (s.heap.seg k.seg).isSome
  start : s.start ∉ s.heap.freedSegs ∧ (s.heap.seg s.start).isSome

/-- Nothing is in use, and whatever was obtained was released once. -/
structure Emptied (s : Shared W) (t : Heap W) : Prop where
  seg : ∀ g, t.seg g = none
  link : ∀ p, t.link p = none
  segs : t.freedSegs.Perm (List.range s.nextSeg)
  links : t.freedLinks.Perm (List.range s.nextLink)

/-! ### What a run keeps -/

structure Sound (s : State W) (r : Region W) : Prop where
  mirrors : ∃ node, Mirrors s.shared node r
  grounded : Grounded r
  roster : Roster r.batcher s.active
  member : ∀ u ∈ s.active, u ∈ s.used
  waiter : ∀ u ∈ r.batcher.waiters, u ∈ s.used
  idle : s.active = ∅ → r.dirtySegLinks = []

namespace Sound

variable {s : State W} {r : Region W} {tx : Tx}

theorem init [Zero W] (size : ℕ) (c : BitVec 32) :
    ∃ m, (tmCreate size : Except Fault (Shared W)) = .ok m ∧
      Sound ⟨m, c, ∅, ∅⟩ (RegionState.tmCreate size) := by
  let seg : Block W := { RegionState.allocSegment size 0#64 with
    dirty := false, newlyAlloc := false, link := none }
  have hempty : Represents (emptyHeap : Heap W) (fun _ => 0) fun _ => [] := by
    refine ⟨fun _ => List.nodup_nil, by simp, fun b => ?_, fun _ => Ring.nil, by simp, by simp⟩
    cases b <;> rfl
  have hset := hempty.setSeg (g := 0) (s := seg) (by simp)
  obtain ⟨m, hm, hrel, hrep⟩ := hset.linkInsert (g := 0) (p := 0) (s := seg) (by simp)
    (by simp [Heap.setSeg]) rfl .segLinks
  have hlists : Lists.append (fun _ => []) .segLinks 0 =
      lists (RegionState.tmCreate size : Region W) := by
    funext b
    cases b <;> simp [lists, Lists.append, RegionState.tmCreate, RegionState.linkInsert]
  have hmirror : Mirrors ⟨m, initBatcher, 0, 1, 1⟩ (Function.update (fun _ => 0) 0 0)
      (RegionState.tmCreate size) := by
    refine ⟨hlists ▸ hrep, fun g hg => ?_, fun g hg => ?_, fun p hp => ?_, ?_, ?_, rfl, rfl, rfl⟩
    · have h0 : g = 0 := by simpa [RegionState.tmCreate] using hg
      subst g
      rw [hrel.seg]
      simp [Heap.setSeg, RegionState.tmCreate, seg]
    · have h0 : g ≠ 0 := by simpa [RegionState.tmCreate] using hg
      rw [hrel.seg]
      simp [Heap.setSeg, Heap.mallocLink, emptyHeap, h0]
    · have h0 : p ≠ 0 := by simpa [RegionState.tmCreate] using (hp 0 (by simp [RegionState.tmCreate])).symm
      have howner := hrel.owner p
      simpa [Heap.setSeg, Heap.mallocLink, emptyHeap, h0] using howner
    · simp [hrel.freedSegs, Heap.setSeg, Heap.mallocLink, emptyHeap, RegionState.tmCreate,
        RegionState.linkInsert]
    · simp [hrel.freedLinks, Heap.setSeg, Heap.mallocLink, emptyHeap, RegionState.tmCreate,
        RegionState.linkInsert]
  refine ⟨_, ?_, ⟨_, hmirror⟩, ?_, Roster.init, by simp, by simp [RegionState.tmCreate, initBatcher], fun _ => rfl⟩
  · simp only [tmCreate]
    rw [hm]
    rfl
  · exact ⟨RegionState.tmCreate_chained size, rfl, by simp [RegionState.tmCreate], rfl, rfl⟩

theorem begun (h : Sound s r) (isRo : Bool) (hu : txId s.transCounter isRo ∉ s.used)
    (hs : s.active.card + s.shared.batcher.waiters.card + 1 < 2 ^ 31) :
    ∃ r', Sound (tmBegin s isRo) r' := by
  obtain ⟨node, hm⟩ := h.mirrors
  rw [hm.batcher] at hs
  refine ⟨{ r with batcher := enterBatcher r.batcher (txId s.transCounter isRo) },
    ⟨node, ?_⟩, h.grounded.withBatcher _, ?_, fun u hin => ?_, fun u hin => ?_, fun he => ?_⟩
  · simp only [tmBegin, hm.batcher]
    exact hm.withBatcher _
  · by_cases hz : r.batcher.remaining = 0
    · simpa [tmBegin, hm.batcher, hz] using (h.roster.enter_first hz _).1
    · simpa [tmBegin, hm.batcher, hz] using (h.roster.enter_wait hz
        (fun hin => hu (h.member _ hin)) (fun hin => hu (h.waiter _ hin)) hs).1
  · simp only [tmBegin] at hin ⊢
    split_ifs at hin
    · exact Finset.insert_subset_insert _ h.member hin
    · exact Finset.mem_insert_of_mem (h.member u hin)
  · by_cases hz : r.batcher.remaining = 0
    · rw [(h.roster.enter_first hz _).2.2.2] at hin
      simp at hin
    · simp only [enterBatcher, hz, if_false] at hin
      exact Finset.insert_subset_insert _ h.waiter hin
  · simp only [tmBegin] at he
    split_ifs at he
    · simp at he
    · exact h.idle he

/-- The caller goes on, or it leaves. -/
theorem turn (h : Sound s r) (ha : tx ∈ s.active) {ok : Bool} {r' : Region W} {m : Shared W}
    {node : SegId → LinkId} (ht : Turn r ok r') (hm : Mirrors m node r') :
    Sound (if ok then { s with shared := m } else s.leave tx m) r' := by
  cases ht with
  | stays hg hb =>
    exact ⟨⟨node, hm⟩, hg, hb ▸ h.roster, h.member, hb ▸ h.waiter,
      fun he => (Finset.ne_empty_of_mem ha he).elim⟩
  | @leaves t hg hb =>
    obtain ⟨node₀, hm₀⟩ := h.mirrors
    simp only [Bool.false_eq_true, if_false]
    cases hl : lastToLeave r.batcher with
    | true =>
      obtain ⟨hr, hw⟩ := h.roster.close ha hl
      have hleft : t.leaveBatcher = { RegionState.epochCleanup t with
          batcher := BatcherState.leaveBatcher r.batcher } := by
        rw [Region.leaveBatcher, hb, if_pos hl]
      have hactive : (s.leave tx m).active = r.batcher.waiters := by
        simp [State.leave, hm₀.batcher, hl]
      refine ⟨⟨node, hm⟩, hg.left, ?_, ?_, ?_, fun _ => ?_⟩
      · rw [hactive, hleft]
        exact hr
      · rw [hactive]
        exact h.waiter
      · rw [hleft]
        simp [hw]
      · rw [hleft]
        exact hg.cleanup_dirty
    | false =>
      obtain ⟨hr, hw⟩ := h.roster.stay ha hl
      have hleft : t.leaveBatcher = { t with
          batcher := BatcherState.leaveBatcher r.batcher } := by
        rw [Region.leaveBatcher, hb, if_neg (by simp [hl])]
      have hactive : (s.leave tx m).active = s.active.erase tx := by
        simp [State.leave, hm₀.batcher, hl]
      refine ⟨⟨node, hm⟩, hg.left, ?_, ?_, ?_, fun he => ?_⟩
      · rw [hactive, hleft]
        exact hr
      · rw [hactive]
        exact fun u hin => h.member u (Finset.mem_of_mem_erase hin)
      · rw [hleft]
        exact hw ▸ h.waiter
      · -- the only one running would have been the last to leave
        rw [hactive] at he
        have hcard := Finset.card_erase_add_one ha
        rw [he, Finset.card_empty] at hcard
        rw [(h.roster.counts.last_iff (by omega)).mpr hcard.symm] at hl
        cases hl

theorem live (h : Sound s r) {g : SegId} (hg : (s.shared.heap.seg g).isSome) : g ∈ r.live := by
  obtain ⟨node, hm⟩ := h.mirrors
  by_contra hno
  simp [hm.gone g hno] at hg

theorem called [Zero W] (h : Sound s r) {e : Event W} (hp : Careful s e) (ha : Running s e) :
    ∃ t r', call s e = .ok t ∧ Sound t r' := by
  obtain ⟨node, hm⟩ := h.mirrors
  cases e with
  | begin isRo =>
    obtain ⟨r', hr⟩ := h.begun isRo hp.1 hp.2
    exact ⟨_, r', rfl, hr⟩
  | read tx g k n =>
    obtain ⟨t, ht, hmirror, hturn⟩ := hm.tmRead h.grounded (h.live hp) tx k n
    exact ⟨_, _, by simp [call, ht], h.turn ha hturn hmirror⟩
  | write tx g k src =>
    obtain ⟨t, ht, hmirror, hturn⟩ := hm.tmWrite h.grounded (h.live hp) tx k src
    exact ⟨_, _, by simp [call, ht], h.turn ha hturn hmirror⟩
  | alloc tx size ok =>
    cases ok with
    | true =>
      obtain ⟨t, node', ht, hmirror, hturn⟩ := hm.tmAlloc h.grounded tx size
      exact ⟨_, _, by simp [call, ht], h.turn ha hturn hmirror⟩
    | false => exact ⟨s, r, rfl, h⟩
  | free tx g =>
    have h0 : g ≠ 0 := fun he => hp.2 (he.trans (hm.start.trans h.grounded.start).symm)
    obtain ⟨t, ht, hmirror, hturn⟩ := hm.tmFree h.grounded (h.live hp.1) h0 tx
    exact ⟨_, _, by simp [call, ht], h.turn ha hturn hmirror⟩
  | finish tx =>
    obtain ⟨t, ht, hmirror⟩ := hm.left h.grounded.toChained
    exact ⟨_, _, by simp [call, ht], h.turn ha (.leaves h.grounded rfl) hmirror⟩

theorem safe (h : Sound s r) : Safe s.shared := by
  obtain ⟨node, hm⟩ := h.mirrors
  have hnd := hm.segs.nodup_iff.mpr List.nodup_range
  have hnl := hm.links.nodup_iff.mpr List.nodup_range
  have kept : ∀ g ∈ r.live, g ∉ s.shared.heap.freedSegs ∧ (s.shared.heap.seg g).isSome := by
    intro g hg
    have hin := List.mem_append.mpr ((h.grounded.live g).mp hg)
    refine ⟨fun hf => (List.nodup_append.mp hnd).2.2 g hf g hin rfl, ?_⟩
    rw [hm.block g hg]
    rfl
  refine ⟨fun p hp => ?_, ?_⟩
  · obtain ⟨b, base, hb, hpath⟩ := hp
    rw [hm.represents.base b] at hb
    obtain ⟨g, hg, rfl⟩ := List.mem_map.mp
      ((hm.represents.ring b).reach (List.mem_of_head? hb) hpath)
    have hin : g ∈ r.segLinks ++ r.dirtySegLinks := by
      cases b with
      | segLinks => exact List.mem_append_left _ hg
      | dirtySegLinks => exact List.mem_append_right _ hg
    obtain ⟨k, hk, hseg⟩ := Option.map_eq_some_iff.mp (hm.represents.back b g hg)
    refine ⟨fun hf => ?_, k, hk, ?_⟩
    · exact (List.nodup_append.mp hnl).2.2 _ hf _ (List.mem_map_of_mem hin) rfl
    · rw [hseg]
      exact kept g ((h.grounded.live g).mpr (List.mem_append.mp hin))
  · rw [hm.start, h.grounded.start]
    exact kept 0 h.grounded.first

end Sound

theorem step_call [Zero W] {size : ℕ} {s t : State W} {e : Event W}
    (ht : (system W size).step s e = some t) : Running s e ∧ call s e = .ok t := by
  simp only [Option.ite_none_right_eq_some] at ht
  refine ⟨ht.1, ?_⟩
  cases hc : call s e with
  | error f => simp [hc, Except.toOption] at ht
  | ok u => simpa [hc, Except.toOption] using ht.2

theorem reachable_sound [Zero W] {size : ℕ} {s : State W}
    (h : Reachable (system W size) Careful s) : ∃ r, Sound s r := by
  refine h.invariant (I := fun s => ∃ r, Sound s r) ?_ ?_
  · rintro _ ⟨m, c, hm, rfl⟩
    obtain ⟨m', hm', hsound⟩ := Sound.init (W := W) size c
    rw [hm, Except.ok.injEq] at hm'
    exact ⟨_, hm' ▸ hsound⟩
  · rintro s e t ⟨r, hr⟩ hp ht
    obtain ⟨hrun, hcall⟩ := step_call ht
    obtain ⟨u, r', hu, hsound⟩ := hr.called hp hrun
    rw [hcall, Except.ok.injEq] at hu
    exact ⟨r', hu ▸ hsound⟩

/-! ### The walk of `tm_destroy` -/

/-- The segments `l` and their links were released, one after another. -/
structure Released (m t : Heap W) (node : SegId → LinkId) (l : List SegId) : Prop where
  seg : ∀ g, t.seg g = if g ∈ l then none else m.seg g
  owner : ∀ p, (t.link p).map Link.seg = if p ∈ l.map node then none else (m.link p).map Link.seg
  freedSegs : t.freedSegs = m.freedSegs ++ l
  freedLinks : t.freedLinks = m.freedLinks ++ l.map node

variable {m t u : Heap W} {node : SegId → LinkId} {L : Lists} {g b : SegId} {l rest : List SegId}

theorem Released.trans (h : Released m t node [g]) (k : Released t u node l) :
    Released m u node (g :: l) := by
  refine ⟨fun x => ?_, fun p => ?_, ?_, ?_⟩
  · rw [k.seg, h.seg]
    by_cases hx : x ∈ l <;> simp [hx]
  · rw [k.owner, h.owner]
    by_cases hp : p ∈ l.map node <;> simp [hp]
  · rw [k.freedSegs, h.freedSegs, List.append_assoc]
    rfl
  · rw [k.freedLinks, h.freedLinks, List.append_assoc]
    rfl

/-- One turn releases a link and its segment. -/
theorem turn_released (h : Represents m node L) (hg : g ∈ L .segLinks) : ∃ t u,
    linkRemove m .segLinks (node g) true = .ok (none, t) ∧ t.freeSegment g = .ok u ∧
      Represents u node (L.erase .segLinks g) ∧ Released m u node [g] := by
  obtain ⟨s, hs, -⟩ := h.block hg
  obtain ⟨t, hrel, hrep, ht⟩ := h.remove hg
  have hout : ∀ c, ∀ x ∈ (L.erase .segLinks g) c, node x ≠ node g := by
    intro c x hx he
    rw [ListSequences.mem_erase h] at hx
    have hxg := h.node_inj hx.1 hg he
    exact hx.2 ⟨hxg, h.apart _ _ g (hxg ▸ hx.1) hg⟩
  have hseg : (t.dropLink (node g)).seg g = some s := by
    rw [← hs, ← hrel.seg]
    rfl
  refine ⟨t.dropLink (node g), (t.dropLink (node g)).dropSeg g, ht true, ?_,
    (hrep.dropLink hout).dropSeg (h.erased hg), fun x => ?_, fun p => ?_, ?_, ?_⟩
  · simp [Heap.freeSegment, hseg]
  · by_cases hx : x = g <;> simp [Heap.dropSeg, Heap.dropLink, hx, hrel.seg]
  · by_cases hp : p = node g <;> simp [Heap.dropSeg, Heap.dropLink, hp, hrel.owner]
  · simp [Heap.dropSeg, Heap.dropLink, hrel.freedSegs]
  · simp [Heap.dropSeg, Heap.dropLink, hrel.freedLinks]

/-- The walk from the second link of the ring to its head. -/
theorem destroyLoop_released (h : Represents m node L) (hL : L .segLinks = b :: rest) {n : ℕ}
    (hn : rest.length < n) {x : SegId} (hx : (rest ++ [b]).head? = some x) :
    ∃ t, destroyLoop n m (node x) = .ok t ∧ Released m t node (rest ++ [b]) := by
  have hb : b ∈ L .segLinks := by simp [hL]
  have hbase : m.segLinks = some (node b) := by
    have := h.base .segLinks
    rwa [hL] at this
  induction rest generalizing m L n x with
  | nil =>
    obtain ⟨n, rfl⟩ := Nat.exists_eq_succ_of_ne_zero (Nat.ne_of_gt hn)
    have hxb : b = x := by simpa using hx
    subst x
    obtain ⟨t, u, ht, hu, -, hreleased⟩ := turn_released h hb
    obtain ⟨k, hk, hseg⟩ := Option.map_eq_some_iff.mp (h.back _ b hb)
    exact ⟨u, by simp [destroyLoop, hbase, hk, hseg, ht, hu], hreleased⟩
  | cons y rest ih =>
    obtain ⟨n, rfl⟩ := Nat.exists_eq_succ_of_ne_zero (Nat.ne_of_gt (Nat.zero_lt_of_lt hn))
    have hyx : y = x := by simpa using hx
    subst x
    have hy : y ∈ L .segLinks := by simp [hL]
    have hnd := h.nodup .segLinks
    rw [hL, List.nodup_cons] at hnd
    have hby : b ≠ y := fun he => hnd.1 (by simp [he])
    have hnode : node b ≠ node y := fun he => hby (h.node_inj hb hy he)
    obtain ⟨a, -, z, -, -, hz, -, hnext⟩ := h.neighbours [b] (g := y) hL
    rw [List.head?_append_of_ne_nil _ (by simp)] at hz
    obtain ⟨k, hk, hseg⟩ := Option.map_eq_some_iff.mp (h.back _ y hy)
    have hknext : k.next = some (node z) := by simpa [Heap.fields, hk] using hnext
    obtain ⟨t, u, ht, hu, hrep, hreleased⟩ := turn_released h hy
    have hL' : (L.erase .segLinks y) .segLinks = b :: rest := by
      rw [Lists.erase, Function.update_self, hL, List.erase_cons_tail (by simpa using hby),
        List.erase_cons_head]
    have hbase' : u.segLinks = some (node b) := by
      have := hrep.base .segLinks
      rwa [hL'] at this
    obtain ⟨v, hv, hrest⟩ := ih hrep hL' (Nat.lt_of_succ_lt_succ hn) hz (by simp [hL']) hbase'
    refine ⟨v, ?_, hreleased.trans hrest⟩
    simp [destroyLoop, hbase, hk, hnode, hseg, ht, hu, hknext, hv]

theorem Sound.destroyed {s : State W} {r : Region W} (h : Sound s r) (ha : s.active = ∅) :
    ∃ t, tmDestroy s.shared = .ok t ∧ Emptied s.shared t := by
  obtain ⟨node, hm⟩ := h.mirrors
  have hdirty := h.idle ha
  have hlive : ∀ g, g ∈ r.live ↔ g ∈ r.segLinks := fun g => by
    rw [h.grounded.live, hdirty]
    simp
  obtain ⟨b, rest, hL⟩ := List.exists_cons_of_ne_nil
    (List.ne_nil_of_mem ((hlive 0).mp h.grounded.first))
  have hbase : s.shared.heap.segLinks = some (node b) :=
    (hm.represents.base .segLinks).trans (by simp [lists, hL])
  obtain ⟨a, -, c, -, -, hhead, -, hnext⟩ :=
    hm.represents.neighbours (b := .segLinks) [] (g := b) hL
  rw [List.append_nil] at hhead
  obtain ⟨k, hk, hknext⟩ := Option.bind_eq_some_iff.mp hnext
  have hlen := hm.length_le
  rw [hL, List.length_cons] at hlen
  obtain ⟨t, ht, hreleased⟩ := destroyLoop_released (n := s.shared.nextLink) hm.represents hL
    (by omega) hhead
  have hperm : (rest ++ [b]).Perm (r.segLinks ++ r.dirtySegLinks) := by
    rw [hdirty, List.append_nil, hL]
    exact List.perm_append_singleton b rest
  refine ⟨t, by simp [tmDestroy, hbase, hk, hknext, ht], fun g => ?_, fun p => ?_, ?_, ?_⟩
  · rw [hreleased.seg]
    split_ifs with hg
    · rfl
    · refine hm.gone g fun hin => hg ?_
      rw [hperm.mem_iff, List.mem_append, ← h.grounded.live]
      exact hin
  · have howner := hreleased.owner p
    split_ifs at howner with hp
    · simpa using howner
    · rw [hm.unused p fun g hg he => hp ?_] at howner
      · simpa using howner
      · refine he ▸ List.mem_map_of_mem (hperm.mem_iff.mpr ?_)
        exact List.mem_append.mpr ((h.grounded.live g).mp hg)
  · rw [hreleased.freedSegs]
    exact (hperm.append_left _).trans hm.segs
  · rw [hreleased.freedLinks]
    exact ((hperm.map node).append_left _).trans hm.links

/-- In every run no call meets a fault, and nothing that was released can be reached. When all
have left, `tm_destroy` meets no fault either, and then whatever was obtained has been
released once. -/
theorem segment_lifecycle [Zero W] {size : ℕ} {s : State W}
    (h : Reachable (system W size) Careful s) :
    Safe s.shared ∧ (∀ e, Careful s e → Running s e → ∃ t, call s e = .ok t) ∧
      (s.active = ∅ → ∃ t, tmDestroy s.shared = .ok t ∧ Emptied s.shared t) := by
  obtain ⟨r, hr⟩ := reachable_sound h
  refine ⟨hr.safe, fun e hp ha => ?_, hr.destroyed⟩
  obtain ⟨t, -, ht, -⟩ := hr.called hp ha
  exact ⟨t, ht⟩

/-- Transaction 1 allocates two segments and commits. Transactions 2 and 3 share the next
epoch: 2 frees segment 1 and allocates segment 3, 3 writes to segment 2, and 2 fails there. -/
def twoEpochs : List (Event ℕ) :=
  [.begin false, .alloc 1 1 true, .alloc 1 1 true, .begin false, .begin false, .finish 1,
    .free 2 1, .alloc 2 1 true, .write 3 2 0 [7], .write 2 2 0 [5], .finish 3]

def created : State ℕ :=
  ⟨(tmCreate 1).toOption.getD ⟨emptyHeap, initBatcher, 0, 0, 0⟩, 1, ∅, ∅⟩
def finished : State ℕ := (run (system ℕ 1) created twoEpochs).getD created

/-- The clean-up has released segment 3, `tm_destroy` releases the others. -/
theorem segment_lifecycle_two_epochs : finished.shared.heap.freedSegs = [3] ∧
    ∃ t, tmDestroy finished.shared = .ok t ∧ t.freedSegs.Perm [0, 1, 2, 3] := by
  have hsome : (run (system ℕ 1) created twoEpochs).isSome := by decide +kernel
  obtain ⟨t, ht⟩ := Option.isSome_iff_exists.mp hsome
  have hfinished : finished = t := by rw [finished, ht, Option.getD_some]
  have hr : Reachable (system ℕ 1) Careful finished :=
    .run (.init ⟨_, 1, rfl, rfl⟩) twoEpochs (by decide +kernel) (hfinished ▸ ht)
  obtain ⟨-, -, hdestroy⟩ := segment_lifecycle hr
  obtain ⟨t, ht, hempty⟩ := hdestroy (by decide +kernel)
  exact ⟨by decide +kernel, t, ht, hempty.segs⟩

end SegmentLifecycle
