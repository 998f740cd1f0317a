import TransactionalMemory.RegionState
import TransactionalMemory.TransitionSystem

/-! # Transactions at lock granularity

Every transaction is a process with a program counter. A step is one spinlock section,
one word copy, one store or compare-and-swap on a segment, one list move, one read of
the dirty list by a rollback, or one critical section of the batcher; the steps of
different transactions interleave freely. What callers promise is kept in contracts. -/
namespace LockLevel

open TransitionSystem
open BatcherState
open ControlWord
open RegionState

/-- `alloc size ok`: `ok` is the outcome of `posix_memalign`. -/
inductive Call (W : Type*) where
  | read (g : SegId) (k n : ℕ)
  | write (g : SegId) (k : ℕ) (src : List W)
  | alloc (size : ℕ) (ok : Bool)
  | free (g : SegId)
  | finish

inductive Return (W : Type*) where
  | read (g : SegId) (k : ℕ) (target : List W)
  | wrote
  | freed
  | allocated (g : SegId)
  | nomem

/-- The next atomic step of a transaction. A failing call is kept until its return. -/
inductive Pc (W : Type*) where
  | outside
  | waiting
  | idle
  | guardRead (g : SegId) (k n : ℕ)
  | copyRo (g : SegId) (k n : ℕ) (target : List W)
  | markRead (g : SegId) (k n i : ℕ)
  | copyRead (g : SegId) (k n : ℕ) (target : List W)
  | guardWrite (g : SegId) (k : ℕ) (src : List W)
  | markWrite (g : SegId) (k : ℕ) (src : List W) (i : ℕ)
  | copyWrite (g : SegId) (k : ℕ) (src : List W) (i : ℕ)
  | allocate (size : ℕ) (ok : Bool)
  | storeFree (g : SegId)
  | storeOwner (g : SegId)
  | casDirty (g : SegId) (ret : Return W)
  | listMove (g : SegId) (ret : Return W)
  | returning (ret : Return W)
  | readHead (c : Call W)
  | testOwner (c : Call W) (link base : SegId)
  | clearWord (c : Call W) (link base : SegId) (i : ℕ)
  | advanceLink (c : Call W) (link base : SegId)
  | leaveFailed (c : Call W)
  | ending
  | committed
  | aborted

/-- Admitted and not left. -/
def Pc.active {W : Type*} : Pc W → Bool
  | .outside | .waiting | .committed | .aborted => false
  | _ => true

/-- One of its operations failed. -/
def Pc.failed {W : Type*} : Pc W → Bool
  | .readHead _ | .testOwner .. | .clearWord .. | .advanceLink .. | .leaveFailed _ => true
  | .aborted => true
  | _ => false

/-- History of the current epoch; no step reads it. `members` were admitted to the epoch,
`active` have not left; `passedRead` and `passedWrite` passed the guard of a word, `wrote`
is the last value a transaction copied to a word, `author` the transaction whose value a
write copy holds, `epochStart` the read copies when the epoch began. -/
structure History (W : Type*) where
  members : Finset Tx
  active : Finset Tx
  passedRead : Finset (Tx × SegId × ℕ)
  passedWrite : Finset (Tx × SegId × ℕ)
  wrote : Tx → SegId → ℕ → Option W
  author : SegId → ℕ → Option Tx
  epochStart : SegId → ℕ → W
  allocBy : SegId → Option Tx
  freeBy : Finset (Tx × SegId)

structure State (W : Type*) where
  region : Region W
  pc : Tx → Pc W
  hist : History W

variable {W : Type*}

def History.fresh (admitted : Finset Tx) (r : Region W) : History W :=
  ⟨admitted, admitted, ∅, ∅, fun _ _ _ => none, fun _ _ => none,
    fun g => (r.seg g).read, fun _ => none, ∅⟩

def initial [Zero W] (size : ℕ) : State W :=
  ⟨tmCreate size, fun _ => .outside, .fresh ∅ (tmCreate size)⟩

def State.goto (s : State W) (tx : Tx) (p : Pc W) : State W :=
  { s with pc := Function.update s.pc tx p }
def State.setSeg (s : State W) (g : SegId) (seg : Segment W) : State W :=
  { s with region := s.region.setSeg g seg }

def State.setControl (s : State W) (g : SegId) (i : ℕ) (c : Control) : State W :=
  let seg := s.region.seg g
  s.setSeg g { seg with control := Function.update seg.control i c }

/-- The spinlock section of `_tm_read` on a word, passed. -/
def State.passRead (s : State W) (tx : Tx) (g : SegId) (i : ℕ) : State W :=
  { s.setControl g i (canReadWord tx ((s.region.seg g).control i)).2 with
    hist := { s.hist with passedRead := insert (tx, g, i) s.hist.passedRead } }

/-- The spinlock section of `_tm_write` on a word, passed. -/
def State.passWrite (s : State W) (tx : Tx) (g : SegId) (i : ℕ) : State W :=
  { s.setControl g i (canWriteWord tx ((s.region.seg g).control i)).2 with
    hist := { s.hist with passedWrite := insert (tx, g, i) s.hist.passedWrite } }

/-- `memcpy` of one word to the write copy. -/
def State.copyWord (s : State W) (tx : Tx) (g : SegId) (i : ℕ) (v : W) : State W :=
  { s.setSeg g { s.region.seg g with write := Function.update (s.region.seg g).write i v } with
    hist := { s.hist with
      wrote := Function.update s.hist.wrote tx
        (Function.update (s.hist.wrote tx) g (Function.update (s.hist.wrote tx g) i (some v)))
      author := Function.update s.hist.author g
        (Function.update (s.hist.author g) i (some tx)) } }

/-- The locked section of `rollback_transaction` on a word it has to restore. -/
def State.restoreWord (s : State W) (tx : Tx) (g : SegId) (i : ℕ) : State W :=
  let seg := s.region.seg g
  { s.setSeg g { seg with
      write := Function.update seg.write i (seg.read i)
      control := Function.update seg.control i (rollbackWord tx (seg.control i)).2 } with
    hist := { s.hist with
      author := Function.update s.hist.author g (Function.update (s.hist.author g) i none) } }

def State.storeFree (s : State W) (tx : Tx) (g : SegId) : State W :=
  { s.setSeg g { s.region.seg g with shouldFree := true } with
    hist := { s.hist with freeBy := insert (tx, g) s.hist.freeBy } }

/-- `alloc_segment` and `link_insert`; the block is private until it is linked. -/
def State.allocate [Zero W] (s : State W) (tx : Tx) (size : ℕ) : State W :=
  let g := s.region.nextSeg
  { s with
    region := { s.region.setSeg g (allocSegment size tx) with
      live := insert g s.region.live
      dirtySegLinks := linkInsert s.region.dirtySegLinks g
      nextSeg := g + 1 }
    hist := { s.hist with allocBy := Function.update s.hist.allocBy g (some tx) } }

/-- `link->next` in the circular list. -/
def nextLink (l : List SegId) (link : SegId) : SegId :=
  (l[l.idxOf link + 1]?).getD (l.headD link)

def tmBegin (s : State W) (tx : Tx) : State W :=
  let region := { s.region with batcher := enterBatcher s.region.batcher tx }
  if s.region.batcher.remaining = 0 then
    { region
      pc := Function.update s.pc tx .idle
      hist := { s.hist with
        members := insert tx s.hist.members
        active := insert tx s.hist.active } }
  else { s with region, pc := Function.update s.pc tx .waiting }

/-- The critical section of `leave_batcher`. The last to leave cleans up and admits the
transactions parked on the condition variable. -/
def leave (s : State W) (tx : Tx) (p : Pc W) : State W :=
  let pc := Function.update s.pc tx p
  if lastToLeave s.region.batcher then
    { region := s.region.leaveBatcher
      pc := fun t => if t ∈ s.region.batcher.waiters then .idle else pc t
      hist := .fresh s.region.batcher.waiters s.region.leaveBatcher }
  else
    { region := s.region.leaveBatcher
      pc
      hist := { s.hist with active := s.hist.active.erase tx } }

def advance [Zero W] (s : State W) (tx : Tx) : Option (State W) :=
  let r := s.region
  match s.pc tx with
  | .guardRead g k n =>
    if (r.seg g).newlyAlloc ∧ (r.seg g).owner ≠ tx then
      some (s.goto tx (.readHead (.read g k n)))
    else if isTxReadonly tx then some (s.goto tx (.copyRo g k n []))
    else some (s.goto tx (.markRead g k n 0))
  | .copyRo g k n target =>
    if target.length < n then
      some (s.goto tx (.copyRo g k n (target ++ [(r.seg g).read (k + target.length)])))
    else some (s.goto tx (.returning (.read g k target)))
  | .markRead g k n i =>
    if i < n then
      let c := canReadWord tx ((r.seg g).control (k + i))
      if c.1 then some ((s.passRead tx g (k + i)).goto tx (.markRead g k n (i + 1)))
      else some ((s.setControl g (k + i) c.2).goto tx (.readHead (.read g k n)))
    else some (s.goto tx (.copyRead g k n []))
  | .copyRead g k n target =>
    if target.length < n then
      some (s.goto tx (.copyRead g k n (target ++ [(r.seg g).write (k + target.length)])))
    else some (s.goto tx (.casDirty g (.read g k target)))
  | .guardWrite g k src =>
    if (r.seg g).newlyAlloc ∧ (r.seg g).owner ≠ tx then
      some (s.goto tx (.readHead (.write g k src)))
    else if k > (r.seg g).size then some (s.goto tx (.readHead (.write g k src)))
    else some (s.goto tx (.markWrite g k src 0))
  | .markWrite g k src i =>
    if i < src.length then
      let c := canWriteWord tx ((r.seg g).control (k + i))
      if c.1 then some ((s.passWrite tx g (k + i)).goto tx (.copyWrite g k src i))
      else some ((s.setControl g (k + i) c.2).goto tx (.readHead (.write g k src)))
    else some (s.goto tx (.casDirty g .wrote))
  | .copyWrite g k src i =>
    match src[i]? with
    | some v => some ((s.copyWord tx g (k + i) v).goto tx (.markWrite g k src (i + 1)))
    | none => none
  | .allocate size ok =>
    if ok then some ((s.allocate tx size).goto tx (.returning (.allocated r.nextSeg)))
    else some (s.goto tx (.returning .nomem))
  | .storeFree g =>
    some ((s.storeFree tx g).goto tx (.storeOwner g))
  | .storeOwner g =>
    some ((s.setSeg g { r.seg g with owner := tx }).goto tx (.casDirty g .freed))
  | .casDirty g ret =>
    if (r.seg g).dirty then some (s.goto tx (.returning ret))
    else some ((s.setSeg g { r.seg g with dirty := true }).goto tx (.listMove g ret))
  | .listMove g ret =>
    some ({ s with region := relinkDirty r g }.goto tx (.returning ret))
  | .returning _ => some (s.goto tx .idle)
  | .readHead c =>
    match r.dirtySegLinks with
    | [] => some (s.goto tx (.leaveFailed c))
    | base :: _ => some (s.goto tx (.testOwner c (nextLink r.dirtySegLinks base) base))
  | .testOwner c link base =>
    if (r.seg link).owner = tx then
      some ((s.setSeg link { r.seg link with rollback := true }).goto tx (.clearWord c link base 0))
    else some (s.goto tx (.clearWord c link base 0))
  | .clearWord c link base i =>
    if i < (r.seg link).size then
      if (rollbackWord tx ((r.seg link).control i)).1 then
        some ((s.restoreWord tx link i).goto tx (.clearWord c link base (i + 1)))
      else some (s.goto tx (.clearWord c link base (i + 1)))
    else some (s.goto tx (.advanceLink c link base))
  | .advanceLink c link base =>
    if link = base then some (s.goto tx (.leaveFailed c))
    else some (s.goto tx (.testOwner c (nextLink r.dirtySegLinks link) base))
  | .leaveFailed _ => some (leave s tx .aborted)
  | .ending => some (leave s tx .committed)
  | .outside | .waiting | .idle | .committed | .aborted => none

inductive Event (W : Type*) where
  | begin (tx : Tx)
  | call (tx : Tx) (c : Call W)
  | advance (tx : Tx)

def Call.entry : Call W → Pc W
  | .read g k n => .guardRead g k n
  | .write g k src => .guardWrite g k src
  | .alloc size ok => .allocate size ok
  | .free g => .storeFree g
  | .finish => .ending

/-- Every id begins at most once, and a transaction makes one call at a time. -/
def step [Zero W] (s : State W) : Event W → Option (State W)
  | .begin tx =>
    match s.pc tx with
    | .outside => some (tmBegin s tx)
    | _ => none
  | .call tx c =>
    match s.pc tx with
    | .idle => some (s.goto tx c.entry)
    | _ => none
  | .advance tx => advance s tx

abbrev system (W : Type*) [Zero W] (size : ℕ) : System (State W) (Event W) :=
  ⟨fun s => s = initial size, step⟩

/-- Ids are not 0, fewer than `2 ^ 31` transactions are in progress at any time, and calls
name live segments and stay in bounds. -/
def Lawful (s : State W) : Event W → Prop
  | .begin tx =>
    tx ≠ 0#64 ∧ s.hist.active.card + s.region.batcher.waiters.card + 1 < 2 ^ 31
  | .call _ (.read g k n) => g ∈ s.region.live ∧ k + n ≤ (s.region.seg g).size
  | .call _ (.write g k src) => g ∈ s.region.live ∧ k + src.length ≤ (s.region.seg g).size
  | .call _ (.free g) => g ∈ s.region.live
  | .call _ (.alloc ..) | .call _ .finish | .advance _ => True

/-- Read-only transactions only read. -/
def ReadOnlyReads (_ : State W) : Event W → Prop
  | .call tx (.write ..) | .call tx (.alloc ..) | .call tx (.free _) => isTxReadonly tx = false
  | _ => True

/-- A transaction frees only segments older than the epoch or its own allocations. -/
def FreesOwnOrOld (s : State W) : Event W → Prop
  | .call tx (.free g) => s.hist.allocBy g = none ∨ s.hist.allocBy g = some tx
  | _ => True

instance (s : State W) (e : Event W) : Decidable (Lawful s e) := by
  rcases e with _ | ⟨_, _ | _ | _ | _ | _⟩ | _ <;> simp only [Lawful] <;> infer_instance

instance (s : State W) (e : Event W) : Decidable (ReadOnlyReads s e) := by
  rcases e with _ | ⟨_, _ | _ | _ | _ | _⟩ | _ <;> simp only [ReadOnlyReads] <;> infer_instance

instance (s : State W) (e : Event W) : Decidable (FreesOwnOrOld s e) := by
  rcases e with _ | ⟨_, _ | _ | _ | _ | _⟩ | _ <;> simp only [FreesOwnOrOld] <;> infer_instance

/-- The step runs `epoch_cleanup`. -/
def ClosesEpoch (s : State W) : Event W → Prop
  | .advance tx =>
    ((∃ c, s.pc tx = .leaveFailed c) ∨ s.pc tx = .ending) ∧
      lastToLeave s.region.batcher = true
  | _ => False

end LockLevel
