import TransactionalMemory.Calls

/-! # The reference implementation

One lock around one flat memory. Addresses, sizes and `deltaAlloc` count words of `align`
bytes, `alignAlloc` bytes. The links of `allocs` lie in the `deltaAlloc` words before each
segment, which are nobody's data. -/
namespace ReferenceMemory

open ControlWord
open Calls

variable {W : Type*}

/-- The memory of the process, with the start and the length of the blocks in use. -/
structure Heap (W : Type*) where
  word : ℕ → W
  blocks : List (ℕ × ℕ)

def Within (b : ℕ × ℕ) (a : ℕ) : Prop := b.1 ≤ a ∧ a < b.1 + b.2

def Heap.Used (h : Heap W) (a : ℕ) : Prop := ∃ b ∈ h.blocks, Within b a

def Heap.without (h : Heap W) (p : ℕ) : Heap W :=
  { h with blocks := h.blocks.filter fun b => b.1 ≠ p }

/-- `posix_memalign` that succeeds, and `free`: where a block lies and what the memory then
holds. Both leave the blocks in use alone. -/
structure Allocator (W : Type*) where
  place : Heap W → (alignment size : ℕ) → ℕ
  obtained : Heap W → (alignment size : ℕ) → ℕ → W
  released : Heap W → (p : ℕ) → ℕ → W
  place_unused : ∀ h alignment size a, Within (place h alignment size, size) a → ¬ h.Used a
  obtained_used : ∀ h alignment size a, h.Used a → obtained h alignment size a = h.word a
  released_used : ∀ h p a, (h.without p).Used a → released h p a = h.word a

def posixMemalign (A : Allocator W) (h : Heap W) (alignment size : ℕ) : ℕ × Heap W :=
  let p := A.place h alignment size
  (p, ⟨A.obtained h alignment size, (p, size) :: h.blocks⟩)

def free (A : Allocator W) (h : Heap W) (p : ℕ) : Heap W :=
  { h.without p with word := A.released h p }

def memcpy (word : ℕ → W) (target : ℕ) (source : List W) : ℕ → W := fun a =>
  if inRange target source.length a then (source[a - target]?).getD (word a) else word a

/-- `memset` to zero. -/
def memset [Zero W] (word : ℕ → W) (target size : ℕ) : ℕ → W := fun a =>
  if inRange target size a then 0 else word a

/-- `pthread_rwlock_t` -/
structure Lock where
  readers : ℕ
  writer : Bool
  deriving DecidableEq, Repr

def lockInit : Lock := ⟨0, false⟩

/-- `none` waits. -/
def lockAcquire (l : Lock) : Option Lock :=
  if l.readers = 0 ∧ l.writer = false then some { l with writer := true } else none

def lockAcquireShared (l : Lock) : Option Lock :=
  if l.writer then none else some { l with readers := l.readers + 1 }

/-- `pthread_rwlock_unlock` -/
def unlock (l : Lock) : Lock :=
  if l.writer then { l with writer := false } else { l with readers := l.readers - 1 }

def lockRelease (l : Lock) : Lock := unlock l
def lockReleaseShared (l : Lock) : Lock := unlock l

structure Region (W : Type*) where
  lock : Lock
  start : ℕ
  allocs : List ℕ
  alignAlloc : ℕ
  deltaAlloc : ℕ
  heap : Heap W

def readOnlyRefTx : Tx := BitVec.allOnes 64 - 10
def readWriteTx : Tx := BitVec.allOnes 64 - 11

def sizeofPointer : ℕ := 8
def sizeofLink : ℕ := 16

def deltaAlloc (align alignAlloc : ℕ) : ℕ :=
  (sizeofLink + alignAlloc - 1) / alignAlloc * alignAlloc / align

/-- `contents` is what the memory holds beforehand. -/
def tmCreate [Zero W] (A : Allocator W) (contents : ℕ → W) (size align : ℕ) : Region W :=
  let alignAlloc := if align < sizeofPointer then sizeofPointer else align
  let (start, heap) := posixMemalign A ⟨contents, []⟩ alignAlloc size
  { lock := lockInit
    start
    allocs := []
    alignAlloc
    deltaAlloc := deltaAlloc align alignAlloc
    heap := { heap with word := memset heap.word start size } }

def tmStart (r : Region W) : ℕ := r.start

def tmBegin (r : Region W) (isRo : Bool) : Option (Tx × Region W) :=
  if isRo then (lockAcquireShared r.lock).map fun lock => (readOnlyRefTx, { r with lock })
  else (lockAcquire r.lock).map fun lock => (readWriteTx, { r with lock })

def tmEnd (r : Region W) (tx : Tx) : Region W :=
  if tx = readOnlyRefTx then { r with lock := lockReleaseShared r.lock }
  else { r with lock := lockRelease r.lock }

def tmRead (r : Region W) (_tx : Tx) (source size : ℕ) : List W :=
  copyOut r.heap.word source size

def tmWrite (r : Region W) (_tx : Tx) (source : List W) (target : ℕ) : Region W :=
  { r with heap := { r.heap with word := memcpy r.heap.word target source } }

/-- The segment begins behind its link, which goes to the end of `allocs`. -/
def tmAlloc [Zero W] (A : Allocator W) (r : Region W) (_tx : Tx) (size : ℕ) : ℕ × Region W :=
  let (segment, heap) := posixMemalign A r.heap r.alignAlloc (r.deltaAlloc + size)
  (segment + r.deltaAlloc, { r with
    allocs := r.allocs ++ [segment]
    heap := { heap with word := memset heap.word (segment + r.deltaAlloc) size } })

def tmFree (A : Allocator W) (r : Region W) (_tx : Tx) (segment : ℕ) : Region W :=
  let segment := segment - r.deltaAlloc
  { r with allocs := r.allocs.erase segment, heap := free A r.heap segment }

/-- Every segment has a link before it. -/
theorem deltaAlloc_pos {align alignAlloc : ℕ} (ha : 0 < align) (hle : align ≤ alignAlloc) :
    0 < deltaAlloc align alignAlloc := by
  have hpos : 0 < alignAlloc := Nat.lt_of_lt_of_le ha hle
  have hone : 1 ≤ (sizeofLink + alignAlloc - 1) / alignAlloc := by
    rw [Nat.le_div_iff_mul_le hpos, sizeofLink]
    omega
  have hmul : align ≤ (sizeofLink + alignAlloc - 1) / alignAlloc * alignAlloc := by
    calc align ≤ 1 * alignAlloc := by omega
      _ ≤ _ := Nat.mul_le_mul_right _ hone
  exact Nat.div_pos hmul ha

theorem memcpy_outside (word : ℕ → W) (target : ℕ) (source : List W) {a : ℕ}
    (h : inRange target source.length a = false) : memcpy word target source a = word a :=
  if_neg (by simp [h])

end ReferenceMemory
