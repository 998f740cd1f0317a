import TransactionalMemory.CircularLists
import TransactionalMemory.LockAlgorithms
import TransactionalMemory.ReferenceAgreement

/-! # The chain of the reference

The links of the segments that `tm_alloc` obtained, in a ring with the link of the region, and
how `tm_destroy` takes it apart. -/
namespace ReferenceChain

open TransitionSystem
open CircularLists
open LockAlgorithms (LockChoice)
open ControlWord (Tx)
open ReferenceMemory (Region Allocator Within)

variable {W : Type*}

/-- Where a `struct link` lies: in the region, or at the beginning of a block. -/
inductive Node where
  | allocs
  | segment (p : ℕ)
  deriving DecidableEq, Repr

def linkRefReset (f : Fields Node) (link : Node) : Fields Node :=
  (f.setPrev link (some link)).setNext link (some link)

/-- `none`: what is followed is no link. -/
def linkRefInsert (f : Fields Node) (link base : Node) : Option (Fields Node) := do
  let prev ← f.prev base
  some ((((f.setPrev link (some prev)).setNext link (some base)).setPrev base (some link)).setNext
    prev (some link))

def linkRefRemove (f : Fields Node) (link : Node) : Option (Fields Node) := do
  let prev ← f.prev link
  let next ← f.next link
  some ((f.setNext prev (some next)).setPrev next (some prev))

/-- `free` takes the link with its block. -/
def dropLink (f : Fields Node) (p : ℕ) : Fields Node :=
  (f.setPrev (.segment p) none).setNext (.segment p) none

structure State (W : Type*) where
  region : Region W
  links : Fields Node

inductive Event where
  | alloc (size : ℕ)
  | free (segment : ℕ)
  deriving DecidableEq, Repr

section code

variable [Zero W]

def tmCreate (A : Allocator W) (contents : ℕ → W) (size align : ℕ) : State W :=
  ⟨ReferenceMemory.tmCreate A contents size align,
    linkRefReset ⟨fun _ => none, fun _ => none⟩ .allocs⟩

def tmAlloc (A : Allocator W) (s : State W) (tx : Tx) (size : ℕ) : Option (ℕ × State W) :=
  let allocated := ReferenceMemory.tmAlloc A s.region tx size
  (linkRefInsert s.links (.segment (allocated.1 - s.region.deltaAlloc)) .allocs).map fun links =>
    (allocated.1, ⟨allocated.2, links⟩)

omit [Zero W] in
/-- A block that is not in use cannot be freed. -/
def tmFree (A : Allocator W) (s : State W) (tx : Tx) (segment : ℕ) : Option (State W) :=
  let p := segment - s.region.deltaAlloc
  (linkRefRemove s.links (.segment p)).bind fun links =>
    if p ∈ s.region.heap.blocks.map Prod.fst then
      some ⟨ReferenceMemory.tmFree A s.region tx segment, dropLink links p⟩
    else none

/-- Calls of read-write transactions. -/
def step (A : Allocator W) (s : State W) : Event → Option (State W)
  | .alloc size => (tmAlloc A s ReferenceMemory.readWriteTx size).map Prod.snd
  | .free segment => tmFree A s ReferenceMemory.readWriteTx segment

abbrev system (A : Allocator W) (contents : ℕ → W) (size align : ℕ) : System (State W) Event :=
  ⟨fun s => s = tmCreate A contents size align, step A⟩

end code

/-- What is freed was allocated and not freed before. -/
def Client (s : State W) : Event → Prop
  | .alloc _ => True
  | .free segment => s.region.deltaAlloc ≤ segment ∧ segment - s.region.deltaAlloc ∈ s.region.allocs

instance (s : State W) : ∀ e, Decidable (Client s e)
  | .alloc _ => isTrue trivial
  | .free _ => inferInstanceAs (Decidable (_ ∧ _))

/-! ### The ring -/

/-- The ring of the region. -/
def ring (allocs : List ℕ) : List Node := .allocs :: allocs.map .segment

structure Sound (s : State W) : Prop where
  ring : Ring s.links (ring s.region.allocs)
  linked : 0 < s.region.deltaAlloc
  inUse : ∀ p ∈ s.region.allocs, ∃ size, (p, s.region.deltaAlloc + size) ∈ s.region.heap.blocks

section links

variable {f : Fields Node} {allocs : List ℕ} {p : ℕ}

theorem mem_ring : Node.segment p ∈ ring allocs ↔ p ∈ allocs := by
  simp [ring]

theorem ring_nodup (h : Ring f (ring allocs)) : allocs.Nodup :=
  (List.nodup_cons.mp h.nodup).2.of_map _

theorem insert_ring (h : Ring f (ring allocs)) (hp : p ∉ allocs) :
    ∃ g, linkRefInsert f (.segment p) .allocs = some g ∧ Ring g (ring (allocs ++ [p])) := by
  obtain ⟨prev, -, -, hprev⟩ := h.last
  refine ⟨_, by rw [linkRefInsert, hprev]; rfl, ?_⟩
  have spliced := Ring.splice h (fun hin => hp (mem_ring.mp hin)) hprev
  rwa [ring, List.map_append]

theorem remove_ring (h : Ring f (ring allocs)) (hp : p ∈ allocs) :
    ∃ g, linkRefRemove f (.segment p) = some g ∧ Ring (dropLink g p) (ring (allocs.erase p)) := by
  obtain ⟨l₁, l₂, hout, rfl, herase⟩ := List.exists_erase_eq hp
  have hsplit : ring (l₁ ++ p :: l₂) =
      (Node.allocs :: l₁.map .segment) ++ (Node.segment p :: l₂.map .segment) := by
    simp [ring]
  rw [hsplit] at h
  have turned := h.rotate
  rw [List.cons_append] at turned
  obtain ⟨hnext, hprev⟩ := turned.head
  obtain ⟨next, hn⟩ := head_concat (l₂.map .segment ++ Node.allocs :: l₁.map .segment) (.segment p)
  obtain ⟨prev, hv⟩ := last_cons (.segment p) (l₂.map .segment ++ Node.allocs :: l₁.map .segment)
  rw [hn] at hnext
  rw [hv] at hprev
  have unlinked := Ring.unlink turned (by simp) hnext hprev
  refine ⟨_, by rw [linkRefRemove, hprev, hnext]; rfl, ?_⟩
  have hback := unlinked.rotate
  have hring : (Node.allocs :: l₁.map .segment) ++ l₂.map .segment = ring (l₁ ++ l₂) := by
    simp [ring]
  rw [hring] at hback
  rw [herase]
  have hp' : Node.segment p ∉ ring (l₁ ++ l₂) := by
    have hnd := (List.nodup_cons.mp turned.nodup).1
    simpa [ring, or_comm] using hnd
  refine hback.frame (fun x hx => ?_) (fun x hx => ?_)
  · have hne : x ≠ .segment p := fun he => hp' (he ▸ hx)
    simp [dropLink, Fields.setPrev, Fields.setNext, hne, Fields.unlink]
  · have hne : x ≠ .segment p := fun he => hp' (he ▸ hx)
    simp [dropLink, Fields.setPrev, Fields.setNext, hne, Fields.unlink]

end links

section steps

variable [Zero W] {A : Allocator W} {s : State W} {tx : Tx}

theorem sound_create (A : Allocator W) (contents : ℕ → W) (size : ℕ) {align : ℕ}
    (ha : 0 < align) : Sound (tmCreate A contents size align) where
  ring := by
    refine Ring.singleton ?_ ?_
    · simp [tmCreate, linkRefReset, Fields.setNext, Fields.setPrev]
    · simp [tmCreate, linkRefReset, Fields.setNext, Fields.setPrev]
  linked := by
    refine ReferenceMemory.deltaAlloc_pos ha ?_
    split_ifs <;> omega
  inUse p hp := by cases hp

/-- A new block lies elsewhere than the blocks of the chain. -/
theorem Sound.alloc (h : Sound s) (A : Allocator W) (tx : Tx) (size : ℕ) :
    ∃ segment t, tmAlloc A s tx size = some (segment, t) ∧ Sound t := by
  let p := A.place s.region.heap s.region.alignAlloc (s.region.deltaAlloc + size)
  have hnew : p ∉ s.region.allocs := by
    intro hin
    obtain ⟨n, hblock⟩ := h.inUse p hin
    have hlinked := h.linked
    have hfresh := A.place_unused s.region.heap s.region.alignAlloc (s.region.deltaAlloc + size) p
    refine hfresh ⟨le_refl _, ?_⟩ ⟨_, hblock, le_refl _, ?_⟩
    · show p < p + _
      omega
    · show p < p + _
      omega
  obtain ⟨links, hlinks, hring⟩ := insert_ring h.ring hnew
  have hback : (ReferenceMemory.tmAlloc A s.region tx size).1 - s.region.deltaAlloc = p := by
    show p + s.region.deltaAlloc - s.region.deltaAlloc = p
    omega
  have hstep : tmAlloc A s tx size = some ((ReferenceMemory.tmAlloc A s.region tx size).1,
      ⟨(ReferenceMemory.tmAlloc A s.region tx size).2, links⟩) := by
    rw [tmAlloc, hback, hlinks, Option.map_some]
  refine ⟨_, _, hstep, hring, h.linked, fun q hq => ?_⟩
  show ∃ n, (q, s.region.deltaAlloc + n) ∈ (p, s.region.deltaAlloc + size) :: _
  rcases List.mem_append.mp hq with hq | hq
  · obtain ⟨n, hn⟩ := h.inUse q hq
    exact ⟨n, List.mem_cons_of_mem _ hn⟩
  · rw [List.mem_singleton] at hq
    subst hq
    exact ⟨size, List.mem_cons_self⟩

omit [Zero W] in
theorem Sound.free (h : Sound s) (A : Allocator W) (tx : Tx) {segment : ℕ}
    (hin : segment - s.region.deltaAlloc ∈ s.region.allocs) :
    ∃ t, tmFree A s tx segment = some t ∧ Sound t := by
  obtain ⟨links, hlinks, hring⟩ := remove_ring h.ring hin
  obtain ⟨n, hblock⟩ := h.inUse _ hin
  have hfree : segment - s.region.deltaAlloc ∈ s.region.heap.blocks.map Prod.fst :=
    List.mem_map.mpr ⟨_, hblock, rfl⟩
  have hstep : tmFree A s tx segment = some ⟨ReferenceMemory.tmFree A s.region tx segment,
      dropLink links (segment - s.region.deltaAlloc)⟩ := by
    rw [tmFree, hlinks, Option.bind_some, if_pos hfree]
  refine ⟨_, hstep, hring, h.linked, fun q hq => ?_⟩
  obtain ⟨hne, hq⟩ := (ring_nodup h.ring).mem_erase_iff.mp hq
  obtain ⟨n, hn⟩ := h.inUse q hq
  refine ⟨n, List.mem_filter.mpr ⟨hn, ?_⟩⟩
  simpa using hne

theorem step_sound (h : Sound s) {e : Event} (hc : Client s e) :
    ∃ t, step A s e = some t ∧ Sound t := by
  cases e with
  | alloc size =>
    obtain ⟨segment, t, ht, hsound⟩ := h.alloc A ReferenceMemory.readWriteTx size
    exact ⟨t, by rw [step, ht, Option.map_some], hsound⟩
  | free segment => exact h.free A ReferenceMemory.readWriteTx hc.2

theorem reachable_sound {contents : ℕ → W} {size align : ℕ} (ha : 0 < align)
    (h : Reachable (system A contents size align) Client s) : Sound s := by
  induction h with
  | init hs =>
    cases hs
    exact sound_create A contents size ha
  | step _ hc ht ih =>
    obtain ⟨t, ht', hsound⟩ := step_sound (A := A) ih hc
    cases ht.symm.trans ht'
    exact hsound

end steps

/-! ### The end of the region -/

/-- What was allocated on its own: the segments, the first segment and the region. -/
inductive Cell where
  | segment (p : ℕ)
  | start
  | region
  deriving DecidableEq, Repr

inductive Action where
  | free (c : Cell)
  | touch (c : Cell)
  deriving DecidableEq, Repr

/-- The allocated cells after an action; `none` if it goes to one that is not allocated. -/
def perform (cells : List Cell) : Action → Option (List Cell)
  | .free c => if c ∈ cells then some (cells.erase c) else none
  | .touch c => if c ∈ cells then some cells else none

/-- Two of the four locks have something to destroy. -/
def lockCleanup : LockChoice → List Action
  | .pthread | .rw => [.touch .region]
  | .ticket | .testAndTestAndSet => []

/-- One round of the loop for each unit of fuel. -/
def destroyLoop : ℕ → Fields Node → Option (List Action)
  | 0, _ => none
  | fuel + 1, f =>
    match f.next .allocs with
    | none => none
    | some .allocs => some []
    | some (.segment p) => (linkRefRemove f (.segment p)).bind fun f =>
      (destroyLoop fuel (dropLink f p)).map (.free (.segment p) :: ·)

def tmDestroy (choice : LockChoice) (fuel : ℕ) (s : State W) : Option (List Action) :=
  (destroyLoop fuel s.links).map (· ++ [.free .start, .free .region] ++ lockCleanup choice)

def cells (s : State W) : List Cell := s.region.allocs.map .segment ++ [.start, .region]

theorem destroyLoop_eq {f : Fields Node} {allocs : List ℕ} (h : Ring f (ring allocs)) {fuel : ℕ}
    (hfuel : allocs.length < fuel) :
    destroyLoop fuel f = some (allocs.map fun p => .free (.segment p)) := by
  induction allocs generalizing f fuel with
  | nil =>
    obtain ⟨fuel, rfl⟩ := Nat.exists_eq_succ_of_ne_zero (Nat.ne_of_gt hfuel)
    have hnext : f.next .allocs = some .allocs := h.head.1
    rw [destroyLoop, hnext]
    rfl
  | cons p allocs ih =>
    obtain ⟨fuel, rfl⟩ := Nat.exists_eq_succ_of_ne_zero (Nat.ne_of_gt (Nat.zero_lt_of_lt hfuel))
    have hnext : f.next .allocs = some (.segment p) := h.head.1
    obtain ⟨g, hg, hring⟩ := remove_ring h List.mem_cons_self
    rw [List.erase_cons_head] at hring
    rw [destroyLoop, hnext]
    show (linkRefRemove f (.segment p)).bind _ = _
    rw [hg, Option.bind_some, ih hring (Nat.lt_of_succ_lt_succ hfuel)]
    rfl

/-- The segments go first, each once. -/
theorem perform_segments (allocs : List ℕ) (cells : List Cell) :
    (allocs.map fun p => Action.free (.segment p)).foldlM perform
      (allocs.map .segment ++ cells) = some cells := by
  induction allocs with
  | nil => rfl
  | cons p allocs ih =>
    have hfirst : perform ((p :: allocs).map .segment ++ cells) (.free (.segment p)) =
        some (allocs.map .segment ++ cells) := by
      rw [List.map_cons, List.cons_append, perform, if_pos List.mem_cons_self, List.erase_cons_head]
    rw [List.map_cons (f := fun p => Action.free (.segment p)), List.foldlM_cons, hfirst]
    exact ih

/-- In every run every call finds its links, which are a ring through the live segments in the
order of their allocation. `tm_destroy` then frees each cell once and leaves none. It goes on to
use the lock in the freed region if that is one to destroy, and only then. -/
theorem reference_chain [Zero W] (A : Allocator W) (contents : ℕ → W) (size : ℕ) {align : ℕ}
    (ha : 0 < align) {s : State W} (h : Reachable (system A contents size align) Client s) :
    (∀ e, Client s e → (step A s e).isSome = true) ∧ Ring s.links (ring s.region.allocs) ∧
      ∀ (choice : LockChoice) (fuel : ℕ), s.region.allocs.length < fuel → ∃ frees,
        tmDestroy choice fuel s = some (frees ++ lockCleanup choice) ∧
        frees.foldlM perform (cells s) = some [] ∧
        ((frees ++ lockCleanup choice).foldlM perform (cells s) = none ↔
          choice = .pthread ∨ choice = .rw) := by
  have sound := reachable_sound ha h
  refine ⟨fun e he => ?_, sound.ring, fun choice fuel hfuel => ?_⟩
  · obtain ⟨t, ht, -⟩ := step_sound (A := A) sound he
    rw [ht]
    rfl
  · let frees : List Action := (s.region.allocs.map fun p => Action.free (.segment p)) ++
      [.free .start, .free .region]
    have hfrees : frees.foldlM perform (cells s) = some [] := by
      rw [List.foldlM_append, cells, perform_segments]
      rfl
    refine ⟨frees, ?_, hfrees, ?_⟩
    · rw [tmDestroy, destroyLoop_eq sound.ring hfuel, Option.map_some]
    · rw [List.foldlM_append, hfrees]
      cases choice with
      | pthread | rw => simp [lockCleanup, perform]
      | ticket | testAndTestAndSet => simp [lockCleanup]

def calls : List Event := [.alloc 2, .alloc 1, .alloc 3, .free 8]
def called : State ℕ :=
  let start := tmCreate ReferenceAgreement.bump (fun a => a) 2 8
  (run (system ReferenceAgreement.bump (fun a => a) 2 8) start calls).getD start

/-- The reader-writer lock is destroyed after its region. -/
theorem reference_chain_called : Ring called.links [.allocs, .segment 2, .segment 9] ∧
    ∃ frees, tmDestroy .rw 3 called = some (frees ++ [Action.touch .region]) ∧
      frees.foldlM perform (cells called) = some [] ∧
      (frees ++ [Action.touch .region]).foldlM perform (cells called) = none := by
  have h : Reachable (system ReferenceAgreement.bump (fun a => a) 2 8) Client called :=
    Reachable.run (.init rfl) calls (by decide) rfl
  obtain ⟨-, hring, hdestroy⟩ :=
    reference_chain ReferenceAgreement.bump (fun a => a) 2 (by decide) h
  obtain ⟨frees, hrun, hfrees, hlock⟩ := hdestroy .rw 3 (by decide)
  exact ⟨hring, frees, hrun, hfrees, hlock.mpr (.inr rfl)⟩

end ReferenceChain
