import TransactionalMemory.CircularLists
import TransactionalMemory.RegionState

/-! # The lists on the heap

`link.c` with its pointers. Following a null pointer, or one to a block that is not in use,
is a fault. A pointer that the source passes by its address is passed by its value here, and
its new value is returned. -/
namespace LinkHeap

open CircularLists
open RegionState (SegId Segment)

/-- An address of a link. -/
abbrev LinkId := ℕ

structure Link where
  seg : SegId
  prev : Option LinkId
  next : Option LinkId
  deriving DecidableEq, Repr

structure Block (W : Type) extends Segment W where
  link : Option LinkId

/-- The blocks in use, the two base pointers of the region, and what was released so far. -/
structure Heap (W : Type) where
  seg : SegId → Option (Block W)
  link : LinkId → Option Link
  segLinks : Option LinkId
  dirtySegLinks : Option LinkId
  freedSegs : List SegId
  freedLinks : List LinkId

inductive Fault where
  | invalid
  | assertion
  | fuel
  deriving DecidableEq, Repr

inductive Base where
  | segLinks
  | dirtySegLinks
  deriving DecidableEq, Repr

variable {W : Type}

def deref {α : Type} : Option α → Except Fault α
  | some a => .ok a
  | none => .error .invalid

namespace Heap

def base (m : Heap W) : Base → Option LinkId
  | .segLinks => m.segLinks
  | .dirtySegLinks => m.dirtySegLinks

def setBase (m : Heap W) (b : Base) (v : Option LinkId) : Heap W :=
  match b with
  | .segLinks => { m with segLinks := v }
  | .dirtySegLinks => { m with dirtySegLinks := v }

def putPrev (m : Heap W) (p : LinkId) (v : Option LinkId) : Heap W :=
  { m with link := Function.update m.link p ((m.link p).map fun n => { n with prev := v }) }
def putNext (m : Heap W) (p : LinkId) (v : Option LinkId) : Heap W :=
  { m with link := Function.update m.link p ((m.link p).map fun n => { n with next := v }) }

def setPrev (m : Heap W) (p : LinkId) (v : Option LinkId) : Except Fault (Heap W) := do
  let _ ← deref (m.link p)
  return m.putPrev p v
def setNext (m : Heap W) (p : LinkId) (v : Option LinkId) : Except Fault (Heap W) := do
  let _ ← deref (m.link p)
  return m.putNext p v

def setSeg (m : Heap W) (g : SegId) (seg : Block W) : Heap W :=
  { m with seg := Function.update m.seg g (some seg) }

/-- A link that `malloc` has put at the address `p`; its pointers are not set yet. -/
def mallocLink (m : Heap W) (p : LinkId) (g : SegId) : Heap W :=
  { m with link := Function.update m.link p (some ⟨g, none, none⟩) }

def dropLink (m : Heap W) (p : LinkId) : Heap W :=
  { m with link := Function.update m.link p none, freedLinks := m.freedLinks ++ [p] }
def dropSeg (m : Heap W) (g : SegId) : Heap W :=
  { m with seg := Function.update m.seg g none, freedSegs := m.freedSegs ++ [g] }

/-- `free` of a link -/
def freeLink (m : Heap W) (p : LinkId) : Except Fault (Heap W) := do
  let _ ← deref (m.link p)
  return m.dropLink p

def freeSegment (m : Heap W) (g : SegId) : Except Fault (Heap W) := do
  let _ ← deref (m.seg g)
  return m.dropSeg g

def fields (m : Heap W) : Fields LinkId :=
  ⟨fun p => (m.link p).bind Link.next, fun p => (m.link p).bind Link.prev⟩

end Heap

/-- `_link_insert` -/
def insertLink (m : Heap W) (b : Base) (link : LinkId) : Except Fault (Heap W) := do
  let alone : Except Fault (Heap W) := do
    let m := m.setBase b (some link)
    let m ← m.setPrev link (some link)
    m.setNext link (some link)
  match m.base b with
  | none => alone
  | some base =>
    match (← deref (m.link base)).prev with
    | none => alone
    | some last =>
      let m ← m.setPrev link (some last)
      let m ← m.setNext link (some base)
      let m ← m.setPrev base (some link)
      m.setNext last (some link)

/-- `p` is the address that `malloc` returns. -/
def linkInsert (m : Heap W) (b : Base) (g : SegId) (p : LinkId) : Except Fault (Heap W) := do
  let m := m.mallocLink p g
  let seg ← deref (m.seg g)
  insertLink (m.setSeg g { seg with link := some p }) b p

def linkAppend (m : Heap W) (b : Base) (link : LinkId) : Except Fault (Heap W) := do
  match m.base b with
  | none => return m.setBase b (some link)
  | some base =>
    let baseLast ← deref (← deref (m.link base)).prev
    let linkLast ← deref (← deref (m.link link)).prev
    let m ← m.setNext baseLast (some link)
    let m ← m.setPrev link (some baseLast)
    m.setNext linkLast (some base)

/-- `link_remove` of the link that `*link` points to; the first component is `*link` after it. -/
def linkRemove (m : Heap W) (b : Base) (link : LinkId) (discard : Bool) :
    Except Fault (Option LinkId × Heap W) := do
  let node ← deref (m.link link)
  let isLast := node.prev = some link
  let isBase := m.base b = some link
  let m ← m.setNext (← deref node.prev) node.next
  let m ← m.setPrev (← deref node.next) node.prev
  let m := if isBase then m.setBase b node.next else m
  let m ← if discard then m.freeLink link else pure m
  let m := if isLast then m.setBase b none else m
  return (if discard then none else some link, m)

/-- `link_remove` with the address of the `link` field of a segment. -/
def linkRemoveOf (m : Heap W) (b : Base) (g : SegId) (discard : Bool) :
    Except Fault (Heap W) := do
  let seg ← deref (m.seg g)
  let (link, m) ← linkRemove m b (← deref seg.link) discard
  return m.setSeg g { seg with link }

def moveToClean (m : Heap W) (g : SegId) : Except Fault (Heap W) := do
  let seg ← deref (m.seg g)
  if seg.dirty then
    let m := m.setSeg g { seg with dirty := false }
    let m ← linkRemoveOf m .dirtySegLinks g false
    let seg ← deref (m.seg g)
    insertLink m .segLinks (← deref seg.link)
  else return m

def moveToDirty (m : Heap W) (g : SegId) : Except Fault (Heap W) := do
  let seg ← deref (m.seg g)
  if seg.dirty then return m
  else
    let m := m.setSeg g { seg with dirty := true }
    let m ← linkRemoveOf m .segLinks g false
    let seg ← deref (m.seg g)
    insertLink m .dirtySegLinks (← deref seg.link)

/-! ### What the functions store -/

@[simp] theorem ok_bind {α β : Type} (a : α) (f : α → Except Fault β) :
    (Except.ok a >>= f) = f a := rfl
@[simp] theorem pure_ok {α : Type} (a : α) : (pure a : Except Fault α) = .ok a := rfl
@[simp] theorem deref_some {α : Type} (a : α) : deref (some a) = .ok a := rfl

/-- Stores into links, which obtain and release nothing and leave the segments alone. -/
structure Relinked (m t : Heap W) : Prop where
  seg : t.seg = m.seg
  freedSegs : t.freedSegs = m.freedSegs
  freedLinks : t.freedLinks = m.freedLinks
  owner : ∀ p, (t.link p).map Link.seg = (m.link p).map Link.seg

namespace Heap

variable {m t : Heap W} {p q : LinkId} {v : Option LinkId} {b c : Base}

@[simp] theorem base_setBase_same : (m.setBase b v).base b = v := by cases b <;> rfl
theorem base_setBase_other (h : c ≠ b) : (m.setBase b v).base c = m.base c := by
  cases b <;> cases c <;> first | rfl | exact (h rfl).elim
@[simp] theorem link_setBase : (m.setBase b v).link = m.link := by cases b <;> rfl
@[simp] theorem fields_setBase : (m.setBase b v).fields = m.fields := by cases b <;> rfl
@[simp] theorem setBase_setBase {w : Option LinkId} :
    (m.setBase b v).setBase b w = m.setBase b w := by cases b <;> rfl
theorem dropLink_setBase : (m.setBase b v).dropLink p = (m.dropLink p).setBase b v := by
  cases b <;> rfl
@[simp] theorem base_putPrev : (m.putPrev p v).base b = m.base b := by cases b <;> rfl
@[simp] theorem base_putNext : (m.putNext p v).base b = m.base b := by cases b <;> rfl

@[simp] theorem isSome_putPrev : ((m.putPrev p v).link q).isSome = (m.link q).isSome := by
  by_cases hq : q = p
  · subst q
    simp [putPrev]
  · simp [putPrev, hq]

@[simp] theorem isSome_putNext : ((m.putNext p v).link q).isSome = (m.link q).isSome := by
  by_cases hq : q = p
  · subst q
    simp [putNext]
  · simp [putNext, hq]

theorem fields_putPrev (h : (m.link p).isSome) :
    (m.putPrev p v).fields = m.fields.setPrev p v := by
  obtain ⟨n, hn⟩ := Option.isSome_iff_exists.mp h
  simp only [fields, putPrev, Fields.setPrev, Fields.mk.injEq]
  constructor <;> funext q <;> by_cases hq : q = p
  · subst q
    simp [hn]
  · simp [hq]
  · subst q
    simp [hn]
  · simp [hq]

theorem fields_putNext (h : (m.link p).isSome) :
    (m.putNext p v).fields = m.fields.setNext p v := by
  obtain ⟨n, hn⟩ := Option.isSome_iff_exists.mp h
  simp only [fields, putNext, Fields.setNext, Fields.mk.injEq]
  constructor <;> funext q <;> by_cases hq : q = p
  · subst q
    simp [hn]
  · simp [hq]
  · subst q
    simp [hn]
  · simp [hq]

theorem setPrev_eq (h : (m.link p).isSome) : m.setPrev p v = .ok (m.putPrev p v) := by
  obtain ⟨n, hn⟩ := Option.isSome_iff_exists.mp h
  rw [setPrev, hn]
  rfl

theorem setNext_eq (h : (m.link p).isSome) : m.setNext p v = .ok (m.putNext p v) := by
  obtain ⟨n, hn⟩ := Option.isSome_iff_exists.mp h
  rw [setNext, hn]
  rfl

theorem freeLink_eq (h : (m.link p).isSome) : m.freeLink p = .ok (m.dropLink p) := by
  obtain ⟨n, hn⟩ := Option.isSome_iff_exists.mp h
  rw [freeLink, hn]
  rfl

/-- The four stores of `_link_insert` before a base with last link `a`. -/
def splice (m : Heap W) (a p base : LinkId) : Heap W :=
  (((m.putPrev p (some a)).putNext p (some base)).putPrev base (some p)).putNext a (some p)

/-- A link that is a list by itself. -/
def alone (m : Heap W) (b : Base) (p : LinkId) : Heap W :=
  ((m.setBase b (some p)).putPrev p (some p)).putNext p (some p)

/-- The stores of `link_remove` for a link between `a` and `c`, but for the release. -/
def detach (m : Heap W) (b : Base) (a p c : LinkId) : Heap W :=
  let t := (m.putNext a (some c)).putPrev c (some a)
  if a = p then t.setBase b none
  else if m.base b = some p then t.setBase b (some c) else t

end Heap

namespace Relinked

variable {m t u : Heap W} {p : LinkId} {v : Option LinkId} {b : Base}

theorem trans (h : Relinked m t) (k : Relinked t u) : Relinked m u :=
  ⟨k.seg.trans h.seg, k.freedSegs.trans h.freedSegs, k.freedLinks.trans h.freedLinks,
    fun p => (k.owner p).trans (h.owner p)⟩

theorem setBase : Relinked m (m.setBase b v) := by
  cases b <;> exact ⟨rfl, rfl, rfl, fun _ => rfl⟩

theorem putPrev : Relinked m (m.putPrev p v) := by
  refine ⟨rfl, rfl, rfl, fun q => ?_⟩
  by_cases hq : q = p
  · subst q
    simp [Heap.putPrev, Function.comp_def]
  · simp [Heap.putPrev, hq]

theorem putNext : Relinked m (m.putNext p v) := by
  refine ⟨rfl, rfl, rfl, fun q => ?_⟩
  by_cases hq : q = p
  · subst q
    simp [Heap.putNext, Function.comp_def]
  · simp [Heap.putNext, hq]

theorem splice {a base : LinkId} : Relinked m (m.splice a p base) :=
  ((putPrev.trans putNext).trans putPrev).trans putNext

theorem alone : Relinked m (m.alone b p) := (setBase.trans putPrev).trans putNext

theorem detach {a c : LinkId} : Relinked m (m.detach b a p c) := by
  have stores : Relinked m ((m.putNext a (some c)).putPrev c (some a)) := putNext.trans putPrev
  unfold Heap.detach
  dsimp only
  split_ifs
  · exact stores.trans setBase
  · exact stores.trans setBase
  · exact stores

end Relinked

variable {m : Heap W} {b : Base} {a c p base : LinkId}

theorem insertLink_null (hb : m.base b = none) (hp : (m.link p).isSome) :
    insertLink m b p = .ok (m.alone b p) := by
  have h1 : ((m.setBase b (some p)).link p).isSome := by simpa using hp
  simp only [insertLink, hb, Heap.setPrev_eq h1, ok_bind]
  rw [Heap.setNext_eq (by simpa using hp)]
  rfl

theorem insertLink_splice (hb : m.base b = some base) (hl : m.fields.prev base = some a)
    (ha : (m.link a).isSome) (hp : (m.link p).isSome) :
    insertLink m b p = .ok (m.splice a p base) := by
  obtain ⟨n, hn, hprev⟩ := Option.bind_eq_some_iff.mp hl
  have hbase : (m.link base).isSome := by rw [hn]; rfl
  simp only [insertLink, hb, hn, hprev, deref_some, ok_bind]
  rw [Heap.setPrev_eq hp, ok_bind, Heap.setNext_eq (by simpa using hp), ok_bind,
    Heap.setPrev_eq (by simpa using hbase), ok_bind, Heap.setNext_eq (by simpa using ha)]
  rfl

/-- `link_remove` of a link between `a` and `c`. -/
theorem linkRemove_eq (hn : m.fields.next p = some c) (hp : m.fields.prev p = some a)
    (ha : (m.link a).isSome) (hc : (m.link c).isSome) (discard : Bool) :
    linkRemove m b p discard = .ok (if discard then none else some p,
      if discard then (m.detach b a p c).dropLink p else m.detach b a p c) := by
  obtain ⟨n, hlink, hnext⟩ := Option.bind_eq_some_iff.mp hn
  have hprev : n.prev = some a := by simpa [Heap.fields, hlink] using hp
  have hs : (m.link p).isSome := by rw [hlink]; rfl
  simp only [linkRemove, hlink, deref_some, ok_bind, hprev, hnext, Heap.setNext_eq ha]
  rw [Heap.setPrev_eq (by simpa using hc), ok_bind]
  have hfree : ∀ t : Heap W, t.link = ((m.putNext a (some c)).putPrev c (some a)).link →
      t.freeLink p = .ok (t.dropLink p) := fun t ht =>
    Heap.freeLink_eq (by simpa [ht] using hs)
  cases discard with
  | true =>
    by_cases hbase : m.base b = some p <;> by_cases hap : a = p <;>
      simp [hbase, hap, hfree, Heap.detach, Heap.dropLink_setBase]
  | false =>
    by_cases hbase : m.base b = some p <;> by_cases hap : a = p <;>
      simp [hbase, hap, Heap.detach]

end LinkHeap
