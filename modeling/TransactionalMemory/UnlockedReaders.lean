import TransactionalMemory.ListRefinement
import TransactionalMemory.StoreTraces

/-! # Walks of the dirty list without the lock

`rollback_transaction` follows the dirty list while `move_to_dirty` may be between two of its
stores. The insertion into a list that is not empty sets the pointers of the new link before
any other link leads to it; the insertion into an empty one publishes the link first. -/
namespace UnlockedReaders

open CircularLists
open RegionState (SegId allocSegment)
open LinkHeap
open ListRefinement
open StoreTraces

variable {W : Type}

/-- One store of `link.c`. -/
inductive Store where
  | next (p : LinkId) (v : Option LinkId)
  | prev (p : LinkId) (v : Option LinkId)
  | base (b : Base) (v : Option LinkId)
  | dirty (g : SegId) (v : Bool)
  deriving DecidableEq, Repr

def store (m : Heap W) : Store → Except Fault (Heap W)
  | .next p v => m.setNext p v
  | .prev p v => m.setPrev p v
  | .base b v => .ok (m.setBase b v)
  | .dirty g v => do
    let seg ← deref (m.seg g)
    return m.setSeg g { seg with dirty := v }

/-- The stores of `_link_insert`. -/
def insertLinkStores (m : Heap W) (b : Base) (link : LinkId) : Except Fault (List Store) := do
  let alone := [.base b (some link), .prev link (some link), .next link (some link)]
  match m.base b with
  | none => return alone
  | some base =>
    match (← deref (m.link base)).prev with
    | none => return alone
    | some last =>
      return [.prev link (some last), .next link (some base), .prev base (some link),
        .next last (some link)]

/-- The stores of `link_remove` without `discard`. -/
def linkRemoveStores (m : Heap W) (b : Base) (link : LinkId) : Except Fault (List Store) := do
  let node ← deref (m.link link)
  let isLast := node.prev = some link
  let isBase := m.base b = some link
  let prev ← deref node.prev
  let next ← deref node.next
  return [.next prev (some next), .prev next (some prev)] ++
    (if isBase then [.base b (some next)] else []) ++ (if isLast then [.base b none] else [])

/-- The stores of `move_to_dirty`, the first of which is that of its `CAS`. -/
def moveToDirtyStores (m : Heap W) (g : SegId) : Except Fault (List Store) := do
  let seg ← deref (m.seg g)
  if seg.dirty then return []
  else
    let m ← store m (.dirty g true)
    let link ← deref seg.link
    let removal ← linkRemoveStores m .segLinks link
    let m ← run store m removal
    let insertion ← insertLinkStores m .dirtySegLinks link
    return .dirty g true :: (removal ++ insertion)

/-- The loop of `rollback_transaction`: the links that it visits. -/
def rollbackLoop (m : Heap W) (base : LinkId) : ℕ → LinkId → Except Fault (List LinkId)
  | 0, _ => .error .fuel
  | n + 1, link => do
    let node ← deref (m.link link)
    if link = base then return [link]
    return link :: (← rollbackLoop m base n (← deref node.next))

def rollbackLinks (m : Heap W) (n : ℕ) : Except Fault (List LinkId) :=
  match m.dirtySegLinks with
  | none => return []
  | some base => do rollbackLoop m base n (← deref (← deref (m.link base)).next)

/-- A walk started now comes back to the base of the dirty list, through these links only. -/
def ClosedWalk (m : Heap W) (l : List LinkId) : Prop :=
  m.dirtySegLinks ≠ none →
    ∃ n walk, rollbackLinks m n = .ok walk ∧ walk.getLast? = m.dirtySegLinks ∧ walk ⊆ l

/-! ### The stores make up the functions -/

section Runs

variable {m t : Heap W} {b : Base} {g : SegId} {link : LinkId} {stores : List Store}

/-- The stores that follow a result of a function. -/
theorem bind_ok_run {l : List Store} :
    (Except.ok l : Except Fault (List Store)).bind (run store m) = run store m l := rfl

theorem run_cons_cons {a c : Store} {l : List Store} :
    run store m (a :: c :: l) = store m a >>= fun t => run store t (c :: l) := rfl

theorem map_eq_bind {α β : Type} {x : Except Fault α} {f : α → β} :
    x.map f = x >>= fun a => .ok (f a) := by
  cases x <;> rfl

theorem insertLink_run : insertLink m b link =
    (insertLinkStores m b link).bind (run store m) := by
  cases hb : m.base b with
  | none =>
    simp only [insertLink, insertLinkStores, hb, pure_ok, bind_ok_run, run_cons_cons,
      run_singleton, store, ok_bind]
  | some base =>
    cases hn : m.link base with
    | none =>
      simp only [insertLink, insertLinkStores, hb, hn]
      rfl
    | some node =>
      cases hp : node.prev with
      | none =>
        simp only [insertLink, insertLinkStores, hb, hn, deref_some, ok_bind, hp, pure_ok,
          bind_ok_run, run_cons_cons, run_singleton, store]
      | some last =>
        simp only [insertLink, insertLinkStores, hb, hn, deref_some, ok_bind, hp, pure_ok,
          bind_ok_run, run_cons_cons, run_singleton, store]

theorem linkRemove_run : linkRemove m b link false =
    ((linkRemoveStores m b link).bind (run store m)).map fun t => (some link, t) := by
  cases hn : m.link link with
  | none =>
    simp only [linkRemove, linkRemoveStores, hn]
    rfl
  | some node =>
    cases hp : node.prev with
    | none =>
      simp only [linkRemove, linkRemoveStores, hn, deref_some, ok_bind, hp]
      rfl
    | some a =>
      cases hc : node.next with
      | none =>
        simp only [linkRemove, linkRemoveStores, hn, deref_some, ok_bind, hp, hc, Heap.setNext]
        cases m.link a <;> rfl
      | some c =>
        simp only [linkRemove, linkRemoveStores, hn, deref_some, ok_bind, hp, hc, pure_ok,
          bind_ok_run, Bool.false_eq_true, if_false]
        split_ifs <;> simp only [List.append_nil, List.cons_append, List.nil_append,
          run_cons_cons, run_singleton, store, map_eq_bind, bind_assoc, ok_bind]

/-- What `link_remove` stores to take out a link between `a` and `c`. -/
def between (m : Heap W) (b : Base) (a link c : LinkId) : List Store :=
  [.next a (some c), .prev c (some a)] ++ (if m.base b = some link then [.base b (some c)] else []) ++
    (if a = link then [.base b none] else [])

theorem mem_between {a c : LinkId} {s : Store} (hs : s ∈ between m b a link c) :
    s = .next a (some c) ∨ s = .prev c (some a) ∨ ∃ v, s = .base b v := by
  rcases List.mem_append.mp hs with hs | hs
  · rcases List.mem_append.mp hs with hs | hs
    · rcases List.mem_cons.mp hs with hs | hs
      · exact .inl hs
      · exact .inr (.inl (List.mem_singleton.mp hs))
    · split_ifs at hs
      · exact .inr (.inr ⟨_, List.mem_singleton.mp hs⟩)
      · cases hs
  · split_ifs at hs
    · exact .inr (.inr ⟨_, List.mem_singleton.mp hs⟩)
    · cases hs

theorem linkRemoveStores_eq {a c : LinkId} (ha : m.fields.prev link = some a)
    (hc : m.fields.next link = some c) :
    linkRemoveStores m b link = .ok (between m b a link c) := by
  obtain ⟨n, hn, hp⟩ := Option.bind_eq_some_iff.mp ha
  have hnext : n.next = some c := by simpa [Heap.fields, hn] using hc
  simp only [linkRemoveStores, hn, deref_some, ok_bind, hp, hnext, pure_ok, between,
    Option.some.injEq]

theorem linkRemoveStores_inv (h : linkRemoveStores m b link = .ok stores) :
    ∃ a c, m.fields.prev link = some a ∧ m.fields.next link = some c := by
  cases hn : m.link link with
  | none => simp [linkRemoveStores, hn, deref, bind, Except.bind] at h
  | some n =>
    cases hp : n.prev with
    | none => simp [linkRemoveStores, hn, hp, deref, bind, Except.bind] at h
    | some a =>
      cases hc : n.next with
      | none => simp [linkRemoveStores, hn, hp, hc, deref, bind, Except.bind] at h
      | some c => exact ⟨a, c, by simp [Heap.fields, hn, hp], by simp [Heap.fields, hn, hc]⟩

theorem insertLinkStores_null (hb : m.base b = none) : insertLinkStores m b link =
    .ok [.base b (some link), .prev link (some link), .next link (some link)] := by
  simp only [insertLinkStores, hb, pure_ok]

theorem insertLinkStores_splice {base last : LinkId} (hb : m.base b = some base)
    (hl : m.fields.prev base = some last) : insertLinkStores m b link =
      .ok [.prev link (some last), .next link (some base), .prev base (some link),
        .next last (some link)] := by
  obtain ⟨n, hn, hp⟩ := Option.bind_eq_some_iff.mp hl
  simp only [insertLinkStores, hb, hn, deref_some, ok_bind, hp, pure_ok]

theorem store_next {p : LinkId} {v : Option LinkId} :
    store m (.next p v) = .ok t ↔ (m.link p).isSome ∧ t = m.putNext p v := by
  cases hp : m.link p with
  | none => simp [store, Heap.setNext, hp, deref, bind, Except.bind]
  | some n =>
    rw [store, Heap.setNext_eq (by rw [hp]; rfl)]
    simp [eq_comm]

theorem store_prev {p : LinkId} {v : Option LinkId} :
    store m (.prev p v) = .ok t ↔ (m.link p).isSome ∧ t = m.putPrev p v := by
  cases hp : m.link p with
  | none => simp [store, Heap.setPrev, hp, deref, bind, Except.bind]
  | some n =>
    rw [store, Heap.setPrev_eq (by rw [hp]; rfl)]
    simp [eq_comm]

theorem store_base {v : Option LinkId} : store m (.base b v) = .ok t ↔ t = m.setBase b v := by
  simp [store, eq_comm]

theorem store_dirty {v : Bool} : store m (.dirty g v) = .ok t ↔
    ∃ seg, m.seg g = some seg ∧ t = m.setSeg g { seg with dirty := v } := by
  cases hs : m.seg g with
  | none => simp [store, hs, deref, bind, Except.bind]
  | some seg => simp [store, hs, eq_comm]

/-- Only the store of the flag changes a segment. -/
theorem store_seg {a : Store} (ha : ∀ g v, a ≠ .dirty g v) (h : store m a = .ok t) :
    t.seg = m.seg := by
  cases a with
  | next p v => rw [(store_next.mp h).2]; rfl
  | prev p v => rw [(store_prev.mp h).2]; rfl
  | base b v => rw [store_base.mp h]; exact Relinked.setBase.seg
  | dirty g v => exact (ha g v rfl).elim

theorem linkRemoveStores_seg (h : linkRemoveStores m b link = .ok stores)
    (ht : run store m stores = .ok t) : t.seg = m.seg := by
  obtain ⟨a, c, ha, hc⟩ := linkRemoveStores_inv h
  rw [linkRemoveStores_eq ha hc, Except.ok.injEq] at h
  have lists : ∀ s ∈ stores, ∀ g v, s ≠ .dirty g v := by
    intro s hs g v
    rw [← h] at hs
    rcases mem_between hs with rfl | rfl | ⟨v, rfl⟩ <;> simp
  refine states_invariant (P := fun t => t.seg = m.seg) rfl ?_ t (run_mem ht)
  intro s hs u v hu hv
  rw [store_seg (lists s hs) hv, hu]

theorem linkRemoveOf_run {seg : Block W} (hs : m.seg g = some seg) (hl : seg.link = some link) :
    linkRemoveOf m b g false = (linkRemoveStores m b link).bind (run store m) := by
  simp only [linkRemoveOf, hs, hl, deref_some, ok_bind, linkRemove_run]
  cases hr : linkRemoveStores m b link with
  | error e => rfl
  | ok stores =>
    rw [bind_ok_run]
    cases ht : run store m stores with
    | error e => rfl
    | ok t =>
      have hself : t.setSeg g { seg with link := some link } = t := by
        have hts : some seg = t.seg g := by rw [linkRemoveStores_seg hr ht, hs]
        rw [← hl, Heap.setSeg, hts, Function.update_eq_self]
      exact congrArg Except.ok hself

/-- `move_to_dirty` makes these stores and no others. -/
theorem moveToDirty_run : moveToDirty m g = (moveToDirtyStores m g).bind (run store m) := by
  cases hs : m.seg g with
  | none => simp only [moveToDirty, moveToDirtyStores, hs]; rfl
  | some seg =>
    simp only [moveToDirty, moveToDirtyStores, hs, deref_some, ok_bind]
    cases hd : seg.dirty with
    | true => rfl
    | false =>
      have hmark : store m (.dirty g true) = .ok (m.setSeg g { seg with dirty := true }) :=
        store_dirty.mpr ⟨seg, hs, rfl⟩
      obtain ⟨seg', here, hlink⟩ : ∃ seg',
          (m.setSeg g { seg with dirty := true }).seg g = some seg' ∧ seg'.link = seg.link :=
        ⟨_, Function.update_self .., rfl⟩
      simp only [Bool.false_eq_true, if_false, hmark, ok_bind]
      generalize m.setSeg g { seg with dirty := true } = m' at *
      cases hl : seg.link with
      | none =>
        simp only [linkRemoveOf, here, hlink, hl, deref_some, ok_bind]
        rfl
      | some link =>
        rw [linkRemoveOf_run here (hlink.trans hl), deref_some, ok_bind]
        cases hr : linkRemoveStores m' .segLinks link with
        | error e => rfl
        | ok removal =>
          rw [bind_ok_run, ok_bind]
          cases ht : run store m' removal with
          | error e => rfl
          | ok t =>
            have hseg : t.seg g = some seg' := by rw [linkRemoveStores_seg hr ht, here]
            simp only [ok_bind, hseg, deref_some, hlink, hl, insertLink_run]
            cases insertLinkStores t .dirtySegLinks link with
            | error e => rfl
            | ok insertion =>
              rw [bind_ok_run, ok_bind, pure_ok, bind_ok_run, run_cons hmark,
                run_append_ok ht]

end Runs

/-! ### Walks -/

section Walks

variable {m t u : Heap W} {base p c link : LinkId} {l l' : List LinkId} {n : ℕ}

theorem rollbackLoop_chain (hb : (m.link base).isSome) (hl : base ∉ l)
    (hp : (l ++ [base]).head? = some p)
    (hc : (l ++ [base]).IsChain fun x y => m.fields.next x = some y) :
    rollbackLoop m base (l.length + 1) p = .ok (l ++ [base]) := by
  induction l generalizing p with
  | nil =>
    obtain ⟨n, hn⟩ := Option.isSome_iff_exists.mp hb
    obtain rfl : base = p := by simpa using hp
    simp [rollbackLoop, hn]
  | cons a l ih =>
    obtain rfl : a = p := by simpa using hp
    obtain ⟨q, hq⟩ := head_concat l base
    have hnext : m.fields.next a = some q := (List.isChain_cons.mp hc).1 q hq
    have hne : a ≠ base := fun he => hl (by simp [he])
    obtain ⟨n, hn, hnq⟩ := Option.bind_eq_some_iff.mp hnext
    have hrest := ih (fun hin => hl (List.mem_cons_of_mem a hin)) hq (List.isChain_cons.mp hc).2
    rw [List.length_cons, rollbackLoop]
    simp only [hn, deref_some, ok_bind, hne, if_false, hnq, hrest]
    rfl

theorem ClosedWalk.of_cycle (hb : m.dirtySegLinks = some base) (hl : base ∉ l)
    (hc : (↑(base :: l) : Cycle LinkId).Chain fun x y => m.fields.next x = some y) :
    ClosedWalk m (base :: l) := by
  intro _
  rw [Cycle.chain_coe_cons] at hc
  obtain ⟨p, hp⟩ := head_concat l base
  have hnext : m.fields.next base = some p := (List.isChain_cons.mp hc).1 p hp
  obtain ⟨n, hn, hnp⟩ := Option.bind_eq_some_iff.mp hnext
  have hwalk := rollbackLoop_chain (by rw [hn]; rfl) hl hp (List.isChain_cons.mp hc).2
  refine ⟨l.length + 1, l ++ [base], ?_, ?_, ?_⟩
  · simp [rollbackLinks, hb, hn, hnp, hwalk]
  · rw [List.getLast?_concat, hb]
  · intro x hx
    simpa [or_comm] using hx

/-- Only the `next` pointers of the ring count. -/
theorem ClosedWalk.of_ring {prev : LinkId → Option LinkId} (hb : m.dirtySegLinks = some base)
    (hr : Ring ⟨m.fields.next, prev⟩ (base :: l)) : ClosedWalk m (base :: l) :=
  .of_cycle hb (List.nodup_cons.mp hr.nodup).1 (hr.chain.imp fun _ _ hab => hab.1)

theorem ClosedWalk.mono (h : ClosedWalk m l) (hl : l ⊆ l') : ClosedWalk m l' := by
  intro hne
  obtain ⟨n, walk, hn, hlast, hsub⟩ := h hne
  exact ⟨n, walk, hn, hlast, fun x hx => hl (hsub hx)⟩

theorem rollbackLoop_head (h : rollbackLoop m base n p = .ok l) : p ∈ l := by
  cases n with
  | zero => cases h
  | succ n =>
    cases hp : m.link p with
    | none => simp [rollbackLoop, hp, deref, bind, Except.bind] at h
    | some node =>
      simp only [rollbackLoop, hp, deref_some, ok_bind] at h
      split_ifs at h
      · cases h
        exact List.mem_singleton_self p
      · cases hrest : deref node.next >>= rollbackLoop m base n with
        | error e =>
          rw [← bind_assoc, hrest] at h
          cases h
        | ok rest =>
          rw [← bind_assoc, hrest] at h
          cases h
          exact List.mem_cons_self ..

/-- The walk starts after the base. -/
theorem ClosedWalk.head (h : ClosedWalk m l) (hb : m.dirtySegLinks = some base)
    (hc : m.fields.next base = some c) : c ∈ l := by
  obtain ⟨n, walk, hn, -, hsub⟩ := h (by simp [hb])
  obtain ⟨node, hnode, hnext⟩ := Option.bind_eq_some_iff.mp hc
  simp only [rollbackLinks, hb, hnode, deref_some, ok_bind, hnext] at hn
  exact hsub (rollbackLoop_head hn)

/-- A walk that enters a ring without the base does not leave it again. -/
theorem rollbackLoop_lost (h : Ring m.fields l) (hb : base ∉ l) (hp : p ∈ l) :
    rollbackLoop m base n p = .error .fuel := by
  induction n generalizing p with
  | zero => rfl
  | succ n ih =>
    obtain ⟨l₁, l₂, rfl⟩ := List.append_of_mem hp
    obtain ⟨q, hq⟩ := head_concat (l₂ ++ l₁) p
    have hnext : m.fields.next p = some q := h.member.1.trans hq
    have hne : p ≠ base := fun he => hb (he ▸ hp)
    obtain ⟨node, hnode, hnq⟩ := Option.bind_eq_some_iff.mp hnext
    have hrest := ih (h.closed hp (.inl hnext))
    simp only [rollbackLoop, hnode, deref_some, ok_bind, hne, if_false, hnq, hrest]
    rfl

end Walks

/-! ### The states between the stores -/

section Moves

variable {m t u : Heap W} {node : SegId → LinkId} {L : Lists} {g : SegId} {s : Block W}
variable {base p : LinkId} {l : List LinkId}

/-- Stores that leave the base of the dirty list and the way round it alone. -/
def Store.Spares (l : List LinkId) : Store → Prop
  | .next p _ => p ∉ l
  | .base b _ => b = .segLinks
  | _ => True

structure Kept (m t : Heap W) (l : List LinkId) : Prop where
  base : t.dirtySegLinks = m.dirtySegLinks
  next : ∀ p ∈ l, t.fields.next p = m.fields.next p

theorem Kept.store {a : Store} (h : Kept m t l) (ha : a.Spares l) (hu : store t a = .ok u) :
    Kept m u l := by
  cases a with
  | next p v =>
    obtain ⟨hp, rfl⟩ := store_next.mp hu
    refine ⟨h.base, fun q hq => ?_⟩
    have hne : q ≠ p := fun he => ha (he ▸ hq)
    rw [Heap.fields_putNext hp, ← h.next q hq]
    exact Function.update_of_ne hne ..
  | prev p v =>
    obtain ⟨hp, rfl⟩ := store_prev.mp hu
    refine ⟨h.base, fun q hq => ?_⟩
    rw [Heap.fields_putPrev hp, ← h.next q hq]
    rfl
  | base b v =>
    obtain rfl := store_base.mp hu
    cases ha
    exact ⟨h.base, h.next⟩
  | dirty g v =>
    obtain ⟨seg, -, rfl⟩ := store_dirty.mp hu
    exact ⟨h.base, h.next⟩

/-- A link whose `next` leads to itself stays one, and is the only link that is published. -/
def Store.Alone (p : LinkId) : Store → Prop
  | .next q v => q = p ∧ v = some p
  | .base .dirtySegLinks v => v = some p
  | _ => True

structure AloneAt (p : LinkId) (t : Heap W) : Prop where
  base : t.dirtySegLinks = none ∨ t.dirtySegLinks = some p
  next : t.fields.next p = some p

theorem AloneAt.store {a : Store} (h : AloneAt p t) (ha : a.Alone p) (hu : store t a = .ok u) :
    AloneAt p u := by
  cases a with
  | next q v =>
    obtain ⟨hq, rfl⟩ := store_next.mp hu
    obtain ⟨rfl, rfl⟩ := ha
    refine ⟨h.base, ?_⟩
    rw [Heap.fields_putNext hq]
    exact Function.update_self ..
  | prev q v =>
    obtain ⟨hq, rfl⟩ := store_prev.mp hu
    refine ⟨h.base, ?_⟩
    rw [Heap.fields_putPrev hq]
    exact h.next
  | base b v =>
    obtain rfl := store_base.mp hu
    cases b with
    | segLinks => exact ⟨h.base, h.next⟩
    | dirtySegLinks => exact ⟨.inr ha, h.next⟩
  | dirty g v =>
    obtain ⟨seg, -, rfl⟩ := store_dirty.mp hu
    exact ⟨h.base, h.next⟩

theorem AloneAt.closedWalk (h : AloneAt p t) : ClosedWalk t [p] := by
  rcases h.base with hb | hb
  · exact fun hne => (hne hb).elim
  · exact .of_cycle hb List.not_mem_nil ((Cycle.chain_singleton _ p).mpr h.next)

/-- The removal of a member, and where its link points after it. -/
theorem removal (h : Represents m node L) {b : Base} (hg : g ∈ L b) :
    ∃ a ∈ L b, ∃ c ∈ L b, (c = g → L b = [g]) ∧
      linkRemoveStores m b (node g) = .ok (between m b (node a) (node g) (node c)) ∧
      ∃ t, run store m (between m b (node a) (node g) (node c)) = .ok t ∧
        Represents t node (L.erase b g) ∧ t.fields.next (node g) = some (node c) := by
  obtain ⟨l₁, l₂, hL⟩ := List.append_of_mem hg
  obtain ⟨a, ha, c, hc, -, hhead, hprev, hnext⟩ := h.neighbours l₁ hL
  have hstores := linkRemoveStores_eq (b := b) hprev hnext
  obtain ⟨t, -, hrep, ht⟩ := h.remove hg
  have heq := linkRemove_eq (b := b) hnext hprev (h.linked ha) (h.linked hc) false
  have hdetach : t = m.detach b (node a) (node g) (node c) := by
    rw [ht false] at heq
    simpa using heq
  refine ⟨a, ha, c, hc, fun hcg => ?_, hstores, t, ?_, hrep, ?_⟩
  · have hnd := h.nodup b
    rw [hL, List.nodup_append, List.nodup_cons] at hnd
    cases hrest : l₂ ++ l₁ with
    | nil =>
      obtain ⟨rfl, rfl⟩ := List.append_eq_nil_iff.mp hrest
      simpa using hL
    | cons x rest =>
      rw [hrest] at hhead
      obtain rfl : x = c := by simpa using hhead
      have hin : x ∈ l₂ ++ l₁ := by simp [hrest]
      rcases List.mem_append.mp hin with hin | hin
      · exact (hnd.2.1.1 (hcg ▸ hin)).elim
      · exact (hnd.2.2 x hin g (by simp) hcg).elim
  · have hrun := ht false
    rw [linkRemove_run, hstores, bind_ok_run] at hrun
    cases hr : run store m (between m b (node a) (node g) (node c)) with
    | error e =>
      rw [hr] at hrun
      cases hrun
    | ok u =>
      rw [hr] at hrun
      cases hrun
      rfl
  · rw [hdetach, fields_detach (h.linked ha) (h.linked hc)]
    by_cases hag : node g = node a
    · simp [Fields.unlink, Fields.setNext, Fields.setPrev, hag]
    · simpa [Fields.unlink, Fields.setNext, Fields.setPrev, hag] using hnext

/-- The stores up to the insertion, and what is left to store from there. -/
theorem moveToDirtyStores_ok (h : Represents m node L) (hg : g ∈ L .segLinks)
    (hs : m.seg g = some s) (hd : s.dirty = false) :
    ∃ a ∈ L .segLinks, ∃ c ∈ L .segLinks, (c = g → L .segLinks = [g]) ∧ ∃ t,
      run store m (.dirty g true :: between m .segLinks (node a) (node g) (node c)) = .ok t ∧
      Represents t node (L.erase .segLinks g) ∧ t.fields.next (node g) = some (node c) ∧
      ∀ insertion, insertLinkStores t .dirtySegLinks (node g) = .ok insertion →
        moveToDirtyStores m g = .ok (.dirty g true ::
          between m .segLinks (node a) (node g) (node c) ++ insertion) := by
  have hl : s.link = some (node g) := by simpa [hs] using h.attached _ g hg
  have hm := h.setSeg (g := g) (s := { s with dirty := true }) fun _ _ => hl
  have hmark : store m (.dirty g true) = .ok (m.setSeg g { s with dirty := true }) :=
    store_dirty.mpr ⟨s, hs, rfl⟩
  obtain ⟨a, ha, c, hc, hcg, hstores, t, ht, hrep, hnext⟩ := removal hm hg
  refine ⟨a, ha, c, hc, hcg, t, ?_, hrep, hnext, fun insertion hi => ?_⟩
  · rw [run_cons hmark]
    exact ht
  · have hlink : deref s.link = .ok (node g) := by rw [hl]; rfl
    simp only [moveToDirtyStores, hs, deref_some, ok_bind, hd, Bool.false_eq_true, if_false, hmark,
      hlink, hstores, ht, hi]
    rfl

theorem mem_moved {b : Base} {a c : LinkId} {st : Store} {insertion : List Store}
    (hst : st ∈ .dirty g true :: between m b a p c ++ insertion) :
    st = .dirty g true ∨ st = .next a (some c) ∨ st = .prev c (some a) ∨ (∃ v, st = .base b v) ∨
      st ∈ insertion := by
  rcases List.mem_append.mp hst with hst | hst
  · rcases List.mem_cons.mp hst with hst | hst
    · exact .inl hst
    · rcases mem_between hst with hst | hst | hst
      · exact .inr (.inl hst)
      · exact .inr (.inr (.inl hst))
      · exact .inr (.inr (.inr (.inl hst)))
  · exact .inr (.inr (.inr (.inr hst)))

theorem erase_dirty : (L.erase .segLinks g) .dirtySegLinks = L .dirtySegLinks :=
  Function.update_of_ne (by decide) ..

theorem base_nil (h : Represents m node L) {b : Base} (hL : L b = []) : m.base b = none := by
  rw [h.base, hL]
  rfl

/-- A walk of the whole list. -/
theorem closedWalk (h : Represents m node L) (ht : Kept m t ((L .dirtySegLinks).map node)) :
    ClosedWalk t ((L .dirtySegLinks).map node) := by
  have hring := h.ring .dirtySegLinks
  have hb := h.base .dirtySegLinks
  cases hL : L .dirtySegLinks with
  | nil =>
    intro hne
    rw [hL] at hb
    exact (hne (ht.base.trans hb)).elim
  | cons x rest =>
    rw [hL, List.map_cons] at ht hring hb
    have hkeep : Ring ⟨t.fields.next, m.fields.prev⟩ (node x :: rest.map node) :=
      hring.frame ht.next fun _ _ => rfl
    exact .of_ring (ht.base.trans hb) hkeep

theorem append_four {front : List Store} {a b c d : Store} :
    front ++ [a, b, c, d] = front ++ [a, b, c] ++ [d] :=
  (List.append_assoc front [a, b, c] [d]).symm

/-- A list that is not empty stays closed, whatever was stored so far. -/
theorem closed_nonempty (h : Represents m node L) (hg : g ∈ L .segLinks)
    (hs : m.seg g = some s) (hd : s.dirty = false) (hD : L .dirtySegLinks ≠ []) :
    ∃ stores, moveToDirtyStores m g = .ok stores ∧ ∀ t ∈ states store m stores,
      ClosedWalk t ((L .dirtySegLinks).map node ++ [node g]) := by
  obtain ⟨a, ha, c, -, -, t, -, hrep, -, hstores⟩ := moveToDirtyStores_ok h hg hs hd
  obtain ⟨x, rest, hL⟩ := List.exists_cons_of_ne_nil hD
  have hLt : (L.erase .segLinks g) .dirtySegLinks = x :: rest := erase_dirty.trans hL
  have hbase : t.base .dirtySegLinks = some (node x) := by rw [hrep.base, hLt]; rfl
  obtain ⟨y, hy, hprev⟩ := hrep.last hLt
  have hall := hstores _ (insertLinkStores_splice hbase hprev)
  refine ⟨_, hall, ?_⟩
  obtain ⟨u, hu, -, hrepu⟩ := h.moveToDirty hg hs hd
  rw [moveToDirty_run, hall, bind_ok_run] at hu
  rw [append_four] at hu ⊢
  intro z hz
  rcases mem_states_concat hu hz with hz | rfl
  · -- before the last store nothing leads to the new link
    have away : ∀ q ∈ L .segLinks, node q ∉ (L .dirtySegLinks).map node := by
      intro q hq hin
      obtain ⟨r, hr, he⟩ := List.mem_map.mp hin
      exact h.node_ne hq hr (by decide) he
    have hkept : Kept m z ((L .dirtySegLinks).map node) := by
      refine states_invariant (P := fun z => Kept m z _) ⟨rfl, fun _ _ => rfl⟩ ?_ z hz
      intro st hst v w hv hw
      refine hv.store ?_ hw
      rcases mem_moved hst with rfl | rfl | rfl | ⟨v, rfl⟩ | hst
      · trivial
      · exact away a ha
      · trivial
      · rfl
      · simp only [List.mem_cons, List.not_mem_nil, or_false] at hst
        rcases hst with rfl | rfl | rfl
        · trivial
        · exact away g hg
        · trivial
    exact (closedWalk h hkept).mono (List.subset_append_left ..)
  · have hLu : ((L.erase .segLinks g).append .dirtySegLinks g) .dirtySegLinks =
        L .dirtySegLinks ++ [g] := by
      rw [Lists.append, Function.update_self, erase_dirty]
    have hwalk := closedWalk hrepu ⟨rfl, fun _ _ => rfl⟩
    rwa [hLu, List.map_append] at hwalk

/-- The only clean segment leads to itself before it is published in an empty list. -/
theorem closed_alone (h : Represents m node L) (hC : L .segLinks = [g])
    (hs : m.seg g = some s) (hd : s.dirty = false) (hD : L .dirtySegLinks = []) :
    ∃ stores, moveToDirtyStores m g = .ok stores ∧
      ∀ t ∈ states store m stores, ClosedWalk t [node g] := by
  have only : ∀ x ∈ L .segLinks, x = g := fun x hx => List.mem_singleton.mp (hC ▸ hx)
  obtain ⟨a, ha, c, hc, -, t, -, hrep, -, hstores⟩ :=
    moveToDirtyStores_ok h (by rw [hC]; exact List.mem_singleton_self g) hs hd
  obtain rfl := only a ha
  obtain rfl := only c hc
  have hbase : t.base .dirtySegLinks = none := base_nil hrep (erase_dirty.trans hD)
  refine ⟨_, hstores _ (insertLinkStores_null hbase), fun z hz => ?_⟩
  have hring := h.ring .segLinks
  rw [hC] at hring
  have hstart : AloneAt (node c) m := by
    exact ⟨.inl (base_nil h hD), (Ring.head (l := []) hring).1⟩
  refine AloneAt.closedWalk (states_invariant hstart ?_ z hz)
  intro st hst v w hv hw
  refine hv.store ?_ hw
  rcases mem_moved hst with rfl | rfl | rfl | ⟨v, rfl⟩ | hst
  · trivial
  · exact ⟨rfl, rfl⟩
  · trivial
  · trivial
  · simp only [List.mem_cons, List.not_mem_nil, or_false] at hst
    rcases hst with rfl | rfl | rfl
    · rfl
    · trivial
    · exact ⟨rfl, rfl⟩

/-- The base of an empty dirty list is published while its link leads to a clean one. -/
theorem published_early (h : Represents m node L) (hg : g ∈ L .segLinks)
    (hs : m.seg g = some s) (hd : s.dirty = false) (hD : L .dirtySegLinks = [])
    (hC : L .segLinks ≠ [g]) : ∃ stores, moveToDirtyStores m g = .ok stores ∧
      ∃ t ∈ states store m stores, ∃ c ∈ (L .segLinks).erase g,
        t.dirtySegLinks = some (node g) ∧ t.fields.next (node g) = some (node c) ∧
        Ring t.fields (((L .segLinks).erase g).map node) := by
  obtain ⟨a, -, c, hc, hcg, t, ht, hrep, hnext, hstores⟩ := moveToDirtyStores_ok h hg hs hd
  have hbase : t.base .dirtySegLinks = none := base_nil hrep (erase_dirty.trans hD)
  refine ⟨_, hstores _ (insertLinkStores_null hbase), t.setBase .dirtySegLinks (some (node g)),
    (mem_states_append ht).mpr (.inr ?_), c, ?_, rfl, hnext, ?_⟩
  · exact List.mem_cons_of_mem _ states_head
  · exact ((h.nodup .segLinks).mem_erase_iff).mpr ⟨fun he => hC (hcg he), hc⟩
  · have hring := hrep.ring .segLinks
    rw [Lists.erase, Function.update_self] at hring
    exact hring

end Moves

variable {m : Heap W} {node : SegId → LinkId} {L : Lists} {g : SegId} {s : Block W}

/-- A walk without the lock is closed in every state of `move_to_dirty` exactly when the dirty
list is not empty, or the segment is the only clean one. -/
theorem dirty_walk_closed (h : Represents m node L) (hg : g ∈ L .segLinks)
    (hs : m.seg g = some s) (hd : s.dirty = false) :
    (∃ stores, moveToDirtyStores m g = .ok stores ∧ ∀ t ∈ states store m stores,
        ClosedWalk t ((L .dirtySegLinks).map node ++ [node g])) ↔
      L .dirtySegLinks ≠ [] ∨ L .segLinks = [g] := by
  constructor
  · rintro ⟨stores, hstores, hall⟩
    by_contra hn
    rw [not_or, not_not] at hn
    obtain ⟨hD, hC⟩ := hn
    obtain ⟨stores', hstores', t, ht, c, hc, hb, hnext, -⟩ := published_early h hg hs hd hD hC
    obtain rfl : stores' = stores := by simpa [hstores'] using hstores
    have hin := (hall t ht).head hb hnext
    rw [hD] at hin
    have hcg : c = g := h.node_inj (List.mem_of_mem_erase hc) hg (by simpa using hin)
    exact (h.nodup .segLinks).not_mem_erase (hcg ▸ hc)
  · intro hcond
    by_cases hD : L .dirtySegLinks = []
    · rw [hD]
      exact closed_alone h (hcond.resolve_left fun hne => hne hD) hs hd hD
    · exact closed_nonempty h hg hs hd hD

/-- Two clean segments, and the dirty ones of `l`, which is empty or `[2]`. -/
def twoClean (l : List SegId) : Heap ℕ :=
  { seg := fun g => some { allocSegment 1 0#64 with dirty := decide (g = 2), link := some g }
    link := fun p => if p < 2 then some ⟨p, some (1 - p), some (1 - p)⟩
      else if p = 2 then some ⟨2, some 2, some 2⟩ else none
    segLinks := some 0, dirtySegLinks := l.head?, freedSegs := [], freedLinks := [] }

def lists (l : List SegId) : Lists
  | .segLinks => [0, 1]
  | .dirtySegLinks => l

theorem twoClean_represents {l : List SegId} (hl : l = [] ∨ l = [2]) :
    Represents (twoClean l) id (lists l) := by
  have clean : Ring (twoClean l).fields [0, 1] := by
    refine ⟨by decide, ?_⟩
    rw [Cycle.chain_coe_cons]
    simp [Linked, Heap.fields, twoClean]
  have dirty : Ring (twoClean l).fields l := by
    rcases hl with rfl | rfl
    · exact Ring.nil
    · exact Ring.singleton rfl rfl
  have members : ∀ b, ∀ g ∈ lists l b,
      (b = .segLinks ∧ (g = 0 ∨ g = 1)) ∨ (b = .dirtySegLinks ∧ g = 2) := by
    rintro (_ | _) g hg
    · exact .inl ⟨rfl, by simpa [lists] using hg⟩
    · rcases hl with rfl | rfl
      · cases hg
      · exact .inr ⟨rfl, List.mem_singleton.mp hg⟩
  refine ⟨fun b => ?_, fun b c g hb hc => ?_, fun b => ?_, fun b => ?_, fun _ _ _ => rfl,
    fun b g hg => ?_⟩
  · cases b with
    | segLinks => exact clean.nodup
    | dirtySegLinks => exact dirty.nodup
  · rcases members b g hb with ⟨rfl, h⟩ | ⟨rfl, h⟩ <;>
      rcases members c g hc with ⟨rfl, k⟩ | ⟨rfl, k⟩
    · rfl
    · subst k
      simp at h
    · subst h
      simp at k
    · rfl
  · cases b with
    | segLinks => rfl
    | dirtySegLinks => rw [List.map_id]; rfl
  · rw [List.map_id]
    cases b with
    | segLinks => exact clean
    | dirtySegLinks => exact dirty
  · rcases members b g hg with ⟨-, rfl | rfl⟩ | ⟨-, rfl⟩ <;> rfl

theorem dirty_walk_closed_nonempty : ∃ stores, moveToDirtyStores (twoClean [2]) 0 = .ok stores ∧
    ∀ t ∈ states store (twoClean [2]) stores, ClosedWalk t [2, 0] :=
  (dirty_walk_closed (twoClean_represents (.inr rfl)) (g := 0) (List.mem_cons_self ..) rfl
    rfl).mpr (.inl (by decide))

/-- The first segment that becomes dirty. -/
theorem first_dirty_walk_open : ¬ ∃ stores, moveToDirtyStores (twoClean []) 0 = .ok stores ∧
    ∀ t ∈ states store (twoClean []) stores, ClosedWalk t [0] := by
  rintro ⟨stores, hstores, hall⟩
  obtain ⟨stores', hstores', t, ht, c, hc, hb, hnext, -⟩ :=
    published_early (twoClean_represents (.inl rfl)) (g := 0) (List.mem_cons_self ..) rfl rfl rfl
      (by decide)
  obtain rfl : stores' = stores := by simpa [hstores'] using hstores
  have hin := (hall t ht).head hb hnext
  obtain rfl : c = 0 := List.mem_singleton.mp hin
  revert hc
  decide

/-- The walk that starts too early does not end: it goes round the clean list. -/
theorem early_walk_diverges (h : Represents m node L) (hg : g ∈ L .segLinks)
    (hs : m.seg g = some s) (hd : s.dirty = false) (hD : L .dirtySegLinks = [])
    (hC : L .segLinks ≠ [g]) : ∃ stores, moveToDirtyStores m g = .ok stores ∧
      ∃ t ∈ states store m stores, ∀ n, rollbackLinks t n = .error .fuel := by
  obtain ⟨stores, hstores, t, ht, c, hc, hb, hnext, hring⟩ := published_early h hg hs hd hD hC
  refine ⟨stores, hstores, t, ht, fun n => ?_⟩
  obtain ⟨link, hlink, hlinkn⟩ := Option.bind_eq_some_iff.mp hnext
  simp only [rollbackLinks, hb, hlink, deref_some, ok_bind, hlinkn]
  refine rollbackLoop_lost hring ?_ (List.mem_map_of_mem hc)
  intro hin
  obtain ⟨x, hx, he⟩ := List.mem_map.mp hin
  have hxg : x = g := h.node_inj (List.mem_of_mem_erase hx) hg he
  exact (h.nodup .segLinks).not_mem_erase (hxg ▸ hx)

end UnlockedReaders
