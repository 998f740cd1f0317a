import Mathlib.Algebra.BigOperators.Group.Finset.Basic
import Mathlib.Algebra.BigOperators.Intervals
import Mathlib.Tactic.Linarith
import Mathlib.Tactic.Ring
import TransactionalMemory.ForwardLists
import TransactionalMemory.TransitionSystem

/-! # The bank workload

The transactions of `WorkloadBank`, each run alone to its end. A segment is one record. Sizes
and balances are mathematical integers, so a size that would wrap around is a fault. -/
namespace BankWorkload

open TransitionSystem
open ForwardLists

structure AccountSegment (A : Type) where
  count : ℕ
  next : Option A
  parity : ℤ
  accounts : ℕ → ℤ

/-- What the allocator hands out. -/
def AccountSegment.zeroed {A : Type} : AccountSegment A := ⟨0, none, 0, fun _ => 0⟩

structure Memory (A : Type) where
  start : A
  seg : A → Option (AccountSegment A)

/-- The constants of a run: of the constructor of `WorkloadBank`, and whether assertions are
compiled in. -/
structure Constants where
  nbaccounts : ℕ
  initBalance : ℤ
  assertMode : Bool

inductive Fault where
  | nullPointer
  | unallocated
  | overflow
  | underflow
  | notLastSegment
  | doubleAlloc
  | doubleFree
  | outOfFuel
  deriving DecidableEq, Repr

variable {A : Type} [DecidableEq A] (k : Constants)

def Memory.read (m : Memory A) (a : A) : Except Fault (AccountSegment A) :=
  match m.seg a with
  | none => throw .unallocated
  | some s => pure s

def Memory.put (m : Memory A) (a : A) (s : Option (AccountSegment A)) : Memory A :=
  { m with seg := Function.update m.seg a s }

/-- A write to fields of the segment at `a`. -/
def Memory.write (m : Memory A) (a : A) (f : AccountSegment A → AccountSegment A) :
    Except Fault (Memory A) := do
  let s ← m.read a
  return m.put a (some (f s))

def readAccount (m : Memory A) (p : A × ℕ) : Except Fault ℤ := do
  let s ← m.read p.1
  if p.2 < k.nbaccounts then return s.accounts p.2 else throw .overflow

def writeAccount (m : Memory A) (p : A × ℕ) (v : ℤ) : Except Fault (Memory A) :=
  if p.2 < k.nbaccounts then
    m.write p.1 fun s => { s with accounts := Function.update s.accounts p.2 v }
  else throw .overflow

/-- `segment.next.alloc`, where the library allocates at `fresh`. -/
def allocNext (m : Memory A) (a fresh : A) : Except Fault (Memory A) := do
  let s ← m.read a
  if k.assertMode && s.next.isSome then throw .doubleAlloc
  else (m.put fresh (some .zeroed)).write a fun s => { s with next := some fresh }

/-- `segment.next.free` -/
def freeNext (m : Memory A) (a : A) : Except Fault (Memory A) := do
  let s ← m.read a
  match s.next with
  | none => throw (if k.assertMode then .doubleFree else .nullPointer)
  | some b => do
    let _ ← m.read b
    (m.put b none).write a fun s => { s with next := none }

/-- The branch of `alloc_tx` that takes the last account of the last segment away. -/
def deallocate (m : Memory A) (prev : Option A) (start : A) : Except Fault (Memory A) := do
  let segment ← m.read start
  match segment.count with
  | 0 => throw .underflow
  | count + 1 => do
    let balance ← readAccount k m (start, count)
    let newParity := segment.parity + balance - k.initBalance
    if 0 < count then do
      let m ← m.write start fun s => { s with count := count }
      m.write start fun s => { s with parity := newParity }
    else
      match prev with
      | none => throw (if k.assertMode then .notLastSegment else .nullPointer)
      | some prev => do
        let m ← freeNext k m prev
        m.write prev fun s => { s with parity := s.parity + newParity }

/-- The branch of `alloc_tx` that adds an account to the last segment or in a new one. -/
def allocate (m : Memory A) (start fresh : A) : Except Fault (Memory A) := do
  let segment ← m.read start
  if segment.count < k.nbaccounts then do
    let m ← writeAccount k m (start, segment.count) k.initBalance
    m.write start fun s => { s with count := segment.count + 1 }
  else do
    let m ← allocNext k m start fresh
    let m ← m.write fresh fun s => { s with count := 1 }
    writeAccount k m (fresh, 0) k.initBalance

def allocLoop (trigger : ℕ) (fresh : A) (m : Memory A) :
    ℕ → ℕ → Option A → A → Except Fault (Memory A)
  | 0, _, _, _ => throw .outOfFuel
  | fuel + 1, count, prev, start => do
    let segment ← m.read start
    match segment.next with
    | none =>
      if trigger < count + segment.count ∧ 2 < count + segment.count then
        deallocate k m prev start
      else allocate k m start fresh
    | some next => allocLoop trigger fresh m fuel (count + segment.count) (some start) next

def allocTx (trigger : ℕ) (fresh : A) (fuel : ℕ) (m : Memory A) : Except Fault (Memory A) :=
  allocLoop k trigger fresh m fuel 0 none m.start

/-- One of the two searches of `short_tx`: the account, once found, and until then its index
among the accounts from the next segment on. -/
structure Search (A : Type) where
  ptr : Option (A × ℕ)
  id : ℕ

def Search.visit (c : Search A) (start : A) (count : ℕ) : Search A :=
  match c.ptr with
  | some _ => c
  | none => if c.id < count then { c with ptr := some (start, c.id) } else ⟨none, c.id - count⟩

def found (send recv : Search A) : Option ((A × ℕ) × (A × ℕ)) :=
  match send.ptr, recv.ptr with
  | some sender, some recver => some (sender, recver)
  | _, _ => none

/-- The loop stops in the round that finds the second account, as both `break`s do. -/
def shortLoop (m : Memory A) :
    ℕ → Search A → Search A → A → Except Fault (Option ((A × ℕ) × (A × ℕ)))
  | 0, _, _, _ => throw .outOfFuel
  | fuel + 1, send, recv, start => do
    let segment ← m.read start
    let send := send.visit start segment.count
    let recv := recv.visit start segment.count
    match found send recv with
    | some accounts => return some accounts
    | none =>
      match segment.next with
      | none => return none
      | some next => shortLoop m fuel send recv next

def transfer (m : Memory A) (sender recver : A × ℕ) : Except Fault (Memory A) := do
  let sendVal ← readAccount k m sender
  if 0 < sendVal then do
    let m ← writeAccount k m sender (sendVal - 1)
    let recvVal ← readAccount k m recver
    writeAccount k m recver (recvVal + 1)
  else return m

def shortTx (sendId recvId fuel : ℕ) (m : Memory A) : Except Fault (Bool × Memory A) := do
  match ← shortLoop m fuel ⟨none, sendId⟩ ⟨none, recvId⟩ m.start with
  | none => return (false, m)
  | some (sender, recver) => do
    let m ← transfer k m sender recver
    return (true, m)

/-- `n` more accounts of one segment, from index `i` on; `none` at a negative one. -/
def sumAccounts (m : Memory A) (start : A) : ℕ → ℕ → ℤ → Except Fault (Option ℤ)
  | 0, _, sum => return some sum
  | n + 1, i, sum => do
    let balance ← readAccount k m (start, i)
    if balance < 0 then return none else sumAccounts m start n (i + 1) (sum + balance)

def longLoop (m : Memory A) : ℕ → ℕ → ℤ → Option A → Except Fault (Option (ℕ × ℤ))
  | _, count, sum, none => return some (count, sum)
  | 0, _, _, some _ => throw .outOfFuel
  | fuel + 1, count, sum, some start => do
    let segment ← m.read start
    match ← sumAccounts k m start segment.count 0 (sum + segment.parity) with
    | none => return none
    | some sum => longLoop m fuel (count + segment.count) sum segment.next

/-- The result, and what is written to `nbaccounts`. -/
def longTx (fuel : ℕ) (m : Memory A) : Except Fault (Bool × Option ℕ) := do
  match ← longLoop k m fuel 0 0 (some m.start) with
  | none => return (false, none)
  | some (count, sum) => return (decide (sum = k.initBalance * count), some count)

/-- Stores the first `n` accounts. -/
def fillAccounts (m : Memory A) : ℕ → Except Fault (Memory A)
  | 0 => return m
  | n + 1 => do
    let m ← fillAccounts m n
    writeAccount k m (m.start, n) k.initBalance

/-- Both transactions of `init`, with the result of the second. -/
def init (m : Memory A) : Except Fault (Bool × Memory A) := do
  let m ← m.write m.start fun s => { s with count := k.nbaccounts }
  let m ← fillAccounts k m k.nbaccounts
  let balance ← readAccount k m (m.start, 0)
  return (decide (balance = k.initBalance), m)

/-- The shared memory region that `tm_create` makes. -/
def create (start : A) : Memory A :=
  ⟨start, Function.update (fun _ => none) start (some .zeroed)⟩

/-- A transaction that returns within `fuel` rounds of its loop. -/
inductive Event (A : Type) where
  | alloc (trigger : ℕ) (fresh : A) (fuel : ℕ)
  | short (sendId recvId fuel : ℕ)

def step (m : Memory A) : Event A → Option (Memory A)
  | .alloc trigger fresh fuel => (allocTx k trigger fresh fuel m).toOption
  | .short sendId recvId fuel => ((shortTx k sendId recvId fuel m).map Prod.snd).toOption

def system (A : Type) [DecidableEq A] : System (Memory A) (Event A) where
  init m := ∃ start correct, init k (create start) = .ok (correct, m)
  step := step k

/-- An allocator returns an address that is not in use. -/
def Allocator (m : Memory A) : Event A → Prop
  | .alloc _ fresh _ => (m.seg fresh).isNone
  | .short _ _ _ => True

instance (m : Memory A) : (e : Event A) → Decidable (Allocator m e)
  | .alloc _ fresh _ => inferInstanceAs (Decidable ((m.seg fresh).isNone = true))
  | .short _ _ _ => inferInstanceAs (Decidable True)

/-! ## Books of a list of segments -/

/-- Every segment but the last is full, and the last is neither empty nor over-full. -/
def Full (n : ℕ) (counts : List ℕ) : Prop :=
  ∃ pre last, counts = pre ++ [last] ∧ (∀ c ∈ pre, c = n) ∧ 1 ≤ last ∧ last ≤ n

def AccountSegment.worth (s : AccountSegment A) : ℤ :=
  s.parity + ∑ i ∈ Finset.range s.count, s.accounts i

def surplus (s : AccountSegment A) : ℤ := s.worth - k.initBalance * s.count

def totalCount (l : List (A × AccountSegment A)) : ℕ := (l.map fun x => x.2.count).sum

def totalWorth (l : List (A × AccountSegment A)) : ℤ := (l.map fun x => x.2.worth).sum

/-- The books of the segments `l` are off by `d`. -/
structure Books (l : List (A × AccountSegment A)) (d : ℤ) : Prop where
  full : Full k.nbaccounts (l.map fun x => x.2.count)
  solvent : ∀ x ∈ l, ∀ i < x.2.count, 0 ≤ x.2.accounts i
  total : (l.map fun x => surplus k x.2).sum = d

/-- The segments of the memory `m`, in the order of their links. -/
structure Sound (m : Memory A) (l : List (A × AccountSegment A)) (d : ℤ) : Prop where
  chain : Chain AccountSegment.next m.seg (some m.start) l
  books : Books k l d

/-- One account less in a segment that keeps some. -/
def retired (s : AccountSegment A) (n : ℕ) : AccountSegment A :=
  { s with count := n, parity := s.parity + s.accounts n - k.initBalance }

/-- The segment before one that disappears with its only account. -/
def absorbing (e s : AccountSegment A) : AccountSegment A :=
  { e with next := none, parity := e.parity + (s.parity + s.accounts 0 - k.initBalance) }

/-- One account more. -/
def enlarged (s : AccountSegment A) : AccountSegment A :=
  { s with
    count := s.count + 1
    accounts := Function.update s.accounts s.count k.initBalance }

/-- An allocated account of the segments `l`. -/
def Held (l : List (A × AccountSegment A)) (p : A × ℕ) : Prop :=
  ∃ s, (p.1, s) ∈ l ∧ p.2 < s.count

/-- The pointer `prev` of the loop in `alloc_tx`, behind the segments `l`. -/
def previous (prev : Option A) (l : List (A × AccountSegment A)) : Option A :=
  l.foldl (fun _ x => some x.1) prev

variable {k} {m t : Memory A} {l pre post : List (A × AccountSegment A)} {d : ℤ}
variable {a b : A} {s e f : AccountSegment A} {p : A × ℕ}

omit [DecidableEq A] in
theorem full_append {n c : ℕ} {counts : List ℕ} :
    Full n (counts ++ [c]) ↔ (∀ x ∈ counts, x = n) ∧ 1 ≤ c ∧ c ≤ n := by
  constructor
  · rintro ⟨pre, last, heq, hpre, hlast⟩
    obtain ⟨rfl, hc⟩ := List.append_inj' heq rfl
    cases hc
    exact ⟨hpre, hlast⟩
  · rintro ⟨hpre, hlast⟩
    exact ⟨counts, c, rfl, hpre, hlast⟩

omit [DecidableEq A] in
theorem sum_surplus (l : List (A × AccountSegment A)) :
    (l.map fun x => surplus k x.2).sum = totalWorth l - k.initBalance * totalCount l := by
  induction l with
  | nil => simp [totalWorth, totalCount]
  | cons x l ih =>
    simp only [totalWorth, totalCount, List.map_cons, List.sum_cons] at ih ⊢
    rw [ih, surplus]
    push_cast
    ring

namespace Books

omit [DecidableEq A]

/-- One segment gets other contents. -/
theorem amend (h : Books k (pre ++ (a, s) :: post) d) (hc : e.count = s.count)
    (he : ∀ i < e.count, 0 ≤ e.accounts i) :
    Books k (pre ++ (a, e) :: post) (d + surplus k e - surplus k s) := by
  refine ⟨?_, ?_, ?_⟩
  · simpa [hc] using h.full
  · intro x hx
    rcases List.mem_append.mp hx with hx | hx
    · exact h.solvent x (by simp [hx])
    rcases List.mem_cons.mp hx with rfl | hx
    · exact he
    · exact h.solvent x (by simp [hx])
  · rw [← h.total]
    simp only [List.map_append, List.map_cons, List.sum_append, List.sum_cons]
    ring

/-- The last segment gets another number of accounts. -/
theorem resize (h : Books k (pre ++ [(a, s)]) d) (h1 : 1 ≤ e.count)
    (hn : e.count ≤ k.nbaccounts) (he : ∀ i < e.count, 0 ≤ e.accounts i)
    (hs : surplus k e = surplus k s) : Books k (pre ++ [(a, e)]) d := by
  have hfull := h.full
  rw [List.map_append, List.map_singleton, full_append] at hfull
  refine ⟨?_, ?_, ?_⟩
  · rw [List.map_append, List.map_singleton, full_append]
    exact ⟨hfull.1, h1, hn⟩
  · intro x hx
    rcases List.mem_append.mp hx with hx | hx
    · exact h.solvent x (by simp [hx])
    · cases List.mem_singleton.mp hx
      exact he
  · rw [← h.total]
    simp [hs]

/-- A balanced segment behind a full one. -/
theorem extend (h : Books k (pre ++ [(a, s)]) d) (hc : s.count = k.nbaccounts)
    (h1 : 1 ≤ f.count) (hn : f.count ≤ k.nbaccounts) (hf : ∀ i < f.count, 0 ≤ f.accounts i)
    (hs : surplus k f = 0) : Books k (pre ++ [(a, s)] ++ [(b, f)]) d := by
  have hfull := h.full
  rw [List.map_append, List.map_singleton, full_append] at hfull
  refine ⟨?_, ?_, ?_⟩
  · rw [List.map_append, List.map_singleton, full_append]
    refine ⟨fun c hmem => ?_, h1, hn⟩
    rw [List.map_append, List.map_singleton, List.mem_append, List.mem_singleton] at hmem
    rcases hmem with hmem | rfl
    · exact hfull.1 c hmem
    · exact hc
  · intro x hx
    rcases List.mem_append.mp hx with hx | hx
    · exact h.solvent x hx
    · cases List.mem_singleton.mp hx
      exact hf
  · rw [← h.total]
    simp [hs]

/-- The last segment goes, and what it is off by is booked in the one before. -/
theorem shrink (h : Books k (pre ++ [(b, e)] ++ [(a, s)]) d) (hn : 1 ≤ k.nbaccounts)
    (hc : f.count = e.count) (hf : f.accounts = e.accounts)
    (hs : surplus k f = surplus k e + surplus k s) : Books k (pre ++ [(b, f)]) d := by
  have hfull := h.full
  rw [List.map_append, List.map_singleton, full_append] at hfull
  have he : e.count = k.nbaccounts := hfull.1 _ (by simp)
  refine ⟨?_, ?_, ?_⟩
  · rw [List.map_append, List.map_singleton, full_append]
    refine ⟨fun c hmem => hfull.1 c ?_, by simp [hc, he, hn], by simp [hc, he]⟩
    rw [List.map_append]
    exact List.mem_append_left _ hmem
  · intro x hx
    rcases List.mem_append.mp hx with hx | hx
    · exact h.solvent x (by simp [hx])
    · cases List.mem_singleton.mp hx
      simpa [hc, hf] using h.solvent (b, e) (by simp)
  · rw [← h.total]
    simp [hs]

end Books

/-! ## Reads and writes -/

@[simp] theorem bind_eq_ok {α β : Type} {x : Except Fault α} {g : α → Except Fault β} {r : β} :
    (x >>= g) = .ok r ↔ ∃ y, x = .ok y ∧ g y = .ok r := by
  cases x <;> simp [bind, Except.bind]

@[simp] theorem map_eq_ok {α β : Type} {x : Except Fault α} {g : α → β} {r : β} :
    g <$> x = .ok r ↔ ∃ y, x = .ok y ∧ g y = r := by
  cases x <;> simp [Functor.map, Except.map]

@[simp] theorem pure_eq_ok {α : Type} {x y : α} : (pure x : Except Fault α) = .ok y ↔ x = y := by
  simp [pure, Except.pure]

@[simp] theorem throw_ne_ok {α : Type} {x : Fault} {y : α} :
    (throw x : Except Fault α) ≠ .ok y := by
  simp [throw, throwThe, MonadExceptOf.throw]

omit [DecidableEq A] in
@[simp] theorem read_eq_ok : m.read a = .ok s ↔ m.seg a = some s := by
  cases h : m.seg a <;> simp [Memory.read, h]

@[simp] theorem put_start {c : Option (AccountSegment A)} : (m.put a c).start = m.start := rfl

@[simp] theorem put_seg_self {c : Option (AccountSegment A)} : (m.put a c).seg a = c := by
  simp [Memory.put]

theorem put_seg_of_ne {c : Option (AccountSegment A)} (h : b ≠ a) :
    (m.put a c).seg b = m.seg b :=
  Function.update_of_ne h _ _

@[simp] theorem put_put {c u : Option (AccountSegment A)} :
    (m.put a c).put a u = m.put a u := by
  simp [Memory.put]

theorem put_comm {c u : Option (AccountSegment A)} (h : a ≠ b) :
    (m.put a c).put b u = (m.put b u).put a c := by
  simp [Memory.put, Function.update_comm h]

@[simp] theorem write_eq_ok {g : AccountSegment A → AccountSegment A} :
    m.write a g = .ok t ↔ ∃ s, m.seg a = some s ∧ m.put a (some (g s)) = t := by
  simp [Memory.write]

omit [DecidableEq A] in
theorem readAccount_eq (hs : m.seg p.1 = some s) (hp : p.2 < k.nbaccounts) :
    readAccount k m p = .ok (s.accounts p.2) := by
  simp [readAccount, hs, hp]

theorem writeAccount_eq {v : ℤ} (hs : m.seg p.1 = some s) (hp : p.2 < k.nbaccounts) :
    writeAccount k m p v =
      .ok (m.put p.1 (some { s with accounts := Function.update s.accounts p.2 v })) := by
  simp [writeAccount, hs, hp]

/-! ## The transaction `alloc_tx` -/

omit [DecidableEq A] in
theorem surplus_retired {n : ℕ} (h : s.count = n + 1) :
    surplus k (retired k s n) = surplus k s := by
  simp only [surplus, AccountSegment.worth, retired, h, Finset.sum_range_succ]
  push_cast
  ring

omit [DecidableEq A] in
theorem surplus_absorbing (h : s.count = 1) :
    surplus k (absorbing k e s) = surplus k e + surplus k s := by
  simp only [surplus, AccountSegment.worth, absorbing, h, Finset.sum_range_one]
  push_cast
  ring

omit [DecidableEq A] in
/-- What a stale slot held does not matter. -/
theorem surplus_enlarged : surplus k (enlarged k s) = surplus k s := by
  have hsum : ∑ i ∈ Finset.range s.count, Function.update s.accounts s.count k.initBalance i =
      ∑ i ∈ Finset.range s.count, s.accounts i := by
    refine Finset.sum_congr rfl fun i hi => ?_
    exact Function.update_of_ne (Nat.ne_of_lt (Finset.mem_range.mp hi)) _ _
  simp only [surplus, AccountSegment.worth, enlarged, Finset.sum_range_succ, hsum,
    Function.update_self]
  push_cast
  ring

omit [DecidableEq A] in
theorem solvent_enlarged (hb : 0 ≤ k.initBalance) (hs : ∀ i < s.count, 0 ≤ s.accounts i) :
    ∀ i < (enlarged k s).count, 0 ≤ (enlarged k s).accounts i := by
  intro i hi
  rcases Nat.lt_succ_iff_lt_or_eq.mp hi with hi | rfl
  · simpa [enlarged, Function.update_of_ne (Nat.ne_of_lt hi)] using hs i hi
  · simpa [enlarged] using hb

theorem freeNext_eq (hb : m.seg b = some e) (ha : m.seg a = some s) (hlink : e.next = some a)
    (hne : b ≠ a) :
    freeNext k m b = .ok ((m.put a none).put b (some { e with next := none })) := by
  simp [freeNext, hb, hlink, ha, put_seg_of_ne hne]

theorem allocNext_eq {fresh : A} (ha : m.seg a = some s) (hnext : s.next = none)
    (hne : a ≠ fresh) : allocNext k m a fresh =
      .ok ((m.put a (some { s with next := some fresh })).put fresh (some .zeroed)) := by
  simp [allocNext, ha, hnext, put_seg_of_ne hne, put_comm hne]

theorem deallocate_account {n : ℕ} {prev : Option A} (ha : m.seg a = some s)
    (hc : s.count = n + 1) (hk : n < k.nbaccounts) (hn : 0 < n) :
    deallocate k m prev a = .ok (m.put a (some (retired k s n))) := by
  have hread : readAccount k m (a, n) = .ok (s.accounts n) := readAccount_eq ha hk
  simp [deallocate, ha, hc, hread, hn, retired]

theorem deallocate_segment (ha : m.seg a = some s) (hc : s.count = 1) (hk : 0 < k.nbaccounts)
    (hb : m.seg b = some e) (hlink : e.next = some a) (hne : b ≠ a) :
    deallocate k m (some b) a = .ok ((m.put a none).put b (some (absorbing k e s))) := by
  have hread : readAccount k m (a, 0) = .ok (s.accounts 0) := readAccount_eq ha hk
  simp [deallocate, ha, hc, hread, freeNext_eq hb ha hlink hne, absorbing]

theorem allocate_account {fresh : A} (ha : m.seg a = some s) (hc : s.count < k.nbaccounts) :
    allocate k m a fresh = .ok (m.put a (some (enlarged k s))) := by
  have hwrite := writeAccount_eq (k := k) (p := (a, s.count)) (v := k.initBalance) ha hc
  simp [allocate, ha, hc, hwrite, enlarged]

theorem allocate_segment {fresh : A} (ha : m.seg a = some s) (hc : ¬ s.count < k.nbaccounts)
    (hk : 0 < k.nbaccounts) (hnext : s.next = none) (hne : a ≠ fresh) :
    allocate k m a fresh = .ok ((m.put a (some { s with next := some fresh })).put fresh
      (some (enlarged k .zeroed))) := by
  simp [allocate, ha, hc, allocNext_eq ha hnext hne, writeAccount, hk, enlarged,
    AccountSegment.zeroed]

namespace Sound

omit [DecidableEq A] in
theorem last_bounds (h : Sound k m (pre ++ [(a, s)]) d) :
    1 ≤ s.count ∧ s.count ≤ k.nbaccounts := by
  have hfull := h.books.full
  rw [List.map_append, List.map_singleton, full_append] at hfull
  exact hfull.2

/-- The last account goes; the invariant needs a third account only for the last segment of
one account, which then has a segment before it. -/
theorem deallocate (h : Sound k m (pre ++ [(a, s)]) d) (hn : 0 < k.nbaccounts)
    (hc : 2 < totalCount (pre ++ [(a, s)])) :
    ∃ t l, BankWorkload.deallocate k m (previous none pre) a = .ok t ∧ Sound k t l d := by
  have hs : m.seg a = some s := h.chain.path.cell (x := (a, s)) (by simp)
  obtain ⟨h1, hcount⟩ := h.last_bounds
  obtain ⟨n, hn1⟩ := Nat.exists_eq_add_of_le' h1
  by_cases hpos : 0 < n
  · refine ⟨m.put a (some (retired k s n)), pre ++ [(a, retired k s n)], ?_, ?_, ?_⟩
    · exact deallocate_account hs hn1 (by omega) hpos
    · exact h.chain.store rfl
    · refine h.books.resize hpos (by simp [retired]; omega) ?_ (surplus_retired hn1)
      intro i hi
      exact h.books.solvent (a, s) (by simp) i (by simp [retired] at hi ⊢; omega)
  · obtain rfl : n = 0 := Nat.eq_zero_of_not_pos hpos
    rcases List.eq_nil_or_concat' pre with rfl | ⟨q, ⟨b, e⟩, rfl⟩
    · simp [totalCount, hn1] at hc
    · have he : m.seg b = some e := h.chain.path.cell (x := (b, e)) (by simp)
      have hlink : e.next = some a := h.chain.path.link
      have hne : b ≠ a := by
        have hnd := h.chain.nodup
        simp only [List.map_append, List.map_singleton, List.nodup_append] at hnd
        exact hnd.2.2 b (by simp) a (by simp)
      have hprev : previous none (q ++ [(b, e)]) = some b := by simp [previous]
      refine ⟨(m.put a none).put b (some (absorbing k e s)), q ++ [(b, absorbing k e s)],
        ?_, ?_, ?_⟩
      · rw [hprev]
        exact deallocate_segment hs hn1 hn he hlink hne
      · exact h.chain.cut rfl
      · exact h.books.shrink hn rfl rfl (surplus_absorbing hn1)

/-- One more account, behind the last one. -/
theorem allocate {fresh : A} (h : Sound k m (pre ++ [(a, s)]) d) (hn : 0 < k.nbaccounts)
    (hb : 0 ≤ k.initBalance) (hf : m.seg fresh = none) :
    ∃ t l, BankWorkload.allocate k m a fresh = .ok t ∧ Sound k t l d := by
  have hs : m.seg a = some s := h.chain.path.cell (x := (a, s)) (by simp)
  have hnext : s.next = none := h.chain.path.last
  by_cases hc : s.count < k.nbaccounts
  · refine ⟨m.put a (some (enlarged k s)), pre ++ [(a, enlarged k s)], ?_, ?_, ?_⟩
    · exact allocate_account hs hc
    · exact h.chain.store rfl
    · refine h.books.resize (by simp [enlarged]) hc ?_ surplus_enlarged
      exact solvent_enlarged hb (h.books.solvent (a, s) (by simp))
  · have hfull : s.count = k.nbaccounts := Nat.le_antisymm h.last_bounds.2 (Nat.le_of_not_lt hc)
    have hnew : fresh ∉ (pre ++ [(a, s)]).map Prod.fst := by
      intro hmem
      obtain ⟨x, hx, rfl⟩ := List.mem_map.mp hmem
      rw [h.chain.path.cell hx] at hf
      cases hf
    have hne : a ≠ fresh := fun heq => hnew (by simp [heq])
    have hbooks : Books k (pre ++ [(a, { s with next := some fresh })]) d :=
      h.books.resize h.last_bounds.1 h.last_bounds.2 (h.books.solvent (a, s) (by simp)) rfl
    refine ⟨(m.put a (some { s with next := some fresh })).put fresh (some (enlarged k .zeroed)),
      pre ++ [(a, { s with next := some fresh })] ++ [(fresh, enlarged k .zeroed)], ?_, ?_, ?_⟩
    · exact allocate_segment hs hc hn hnext hne
    · exact h.chain.extend hnew rfl rfl
    · refine hbooks.extend hfull le_rfl hn (solvent_enlarged hb ?_) ?_
      · simp [AccountSegment.zeroed]
      · rw [surplus_enlarged]
        simp [surplus, AccountSegment.worth, AccountSegment.zeroed]

end Sound

/-- The loop ends at the last segment, with the number of all accounts. -/
theorem allocLoop_eq {trigger fuel : ℕ} {fresh start : A} (count : ℕ) (prev : Option A)
    (h : Path AccountSegment.next m.seg (some start) (pre ++ [(a, s)]) none)
    (hf : pre.length < fuel) :
    allocLoop k trigger fresh m fuel count prev start =
      if trigger < count + totalCount (pre ++ [(a, s)]) ∧
          2 < count + totalCount (pre ++ [(a, s)]) then
        deallocate k m (previous prev pre) a
      else allocate k m a fresh := by
  induction pre generalizing start fuel count prev with
  | nil =>
    obtain ⟨hstart, hs, hnext⟩ := h
    cases hstart
    cases fuel with
    | zero => cases hf
    | succ fuel =>
      simp only at hs
      simp [allocLoop, Memory.read, hs, show s.next = none from hnext, totalCount, previous]
  | cons y pre ih =>
    obtain ⟨hstart, hy, hrest⟩ := h
    cases hstart
    obtain ⟨b, hb⟩ : ∃ b, y.2.next = some b := by
      cases pre with
      | nil => exact ⟨_, hrest.1⟩
      | cons z pre => exact ⟨_, hrest.1⟩
    rw [hb] at hrest
    cases fuel with
    | zero => cases hf
    | succ fuel =>
      have hloop := ih (count + y.2.count) (some y.1) hrest
        (Nat.lt_of_succ_lt_succ hf)
      have hcount : count + totalCount (y :: pre ++ [(a, s)]) =
          count + y.2.count + totalCount (pre ++ [(a, s)]) := by
        simp [totalCount]
        omega
      rw [hcount]
      simpa [allocLoop, Memory.read, hy, hb, previous] using hloop

theorem allocTx_eq {trigger fuel : ℕ} {fresh : A}
    (h : Chain AccountSegment.next m.seg (some m.start) (pre ++ [(a, s)]))
    (hf : pre.length + 1 ≤ fuel) :
    allocTx k trigger fresh fuel m =
      if trigger < totalCount (pre ++ [(a, s)]) ∧ 2 < totalCount (pre ++ [(a, s)]) then
        deallocate k m (previous none pre) a
      else allocate k m a fresh := by
  rw [allocTx, allocLoop_eq 0 none h.path hf, Nat.zero_add]

/-- Enough rounds of the loop give the result. -/
def Settles {α : Type} (run : ℕ → Except Fault α) (r : α) : Prop :=
  ∃ n, ∀ fuel, n ≤ fuel → run fuel = .ok r

theorem Sound.allocTx (trigger : ℕ) {fresh : A} (h : Sound k m l 0) (hn : 1 ≤ k.nbaccounts)
    (hb : 0 ≤ k.initBalance) (hf : m.seg fresh = none) :
    ∃ t l', Settles (fun fuel => allocTx k trigger fresh fuel m) t ∧ Sound k t l' 0 := by
  obtain rfl | ⟨pre, ⟨a, s⟩, rfl⟩ := List.eq_nil_or_concat' l
  · obtain ⟨pre, last, heq, -⟩ := h.books.full
    simp at heq
  · by_cases hc : trigger < totalCount (pre ++ [(a, s)]) ∧ 2 < totalCount (pre ++ [(a, s)])
    · obtain ⟨t, l', ht, hsound⟩ := h.deallocate hn hc.2
      refine ⟨t, l', ⟨pre.length + 1, fun fuel hle => ?_⟩, hsound⟩
      exact (allocTx_eq h.chain hle).trans (by rw [if_pos hc, ht])
    · obtain ⟨t, l', ht, hsound⟩ := h.allocate hn hb hf
      refine ⟨t, l', ⟨pre.length + 1, fun fuel hle => ?_⟩, hsound⟩
      exact (allocTx_eq h.chain hle).trans (by rw [if_neg hc, ht])

/-- Rounds for all segments are enough. -/
theorem Sound.allocTx_ok (trigger : ℕ) {fresh : A} (h : Sound k m l 0) (hn : 1 ≤ k.nbaccounts)
    (hb : 0 ≤ k.initBalance) (hf : m.seg fresh = none) :
    ∃ t, BankWorkload.allocTx k trigger fresh l.length m = .ok t := by
  obtain ⟨t, -, ⟨n, hrun⟩, -⟩ := h.allocTx trigger hn hb hf
  obtain rfl | ⟨pre, ⟨a, s⟩, rfl⟩ := List.eq_nil_or_concat' l
  · obtain ⟨pre, last, heq, -⟩ := h.books.full
    simp at heq
  · have hlen : pre.length + 1 ≤ (pre ++ [(a, s)]).length := by simp
    have hmax := (allocTx_eq h.chain (hlen.trans (le_max_right n _))).symm.trans
      (hrun _ (le_max_left n _))
    exact ⟨t, (allocTx_eq h.chain hlen).trans hmax⟩

/-! ## The transaction `short_tx` -/

omit [DecidableEq A] in
theorem surplus_update {i : ℕ} {v : ℤ} (h : i < s.count) :
    surplus k { s with accounts := Function.update s.accounts i v } =
      surplus k s + v - s.accounts i := by
  have hi : i ∈ Finset.range s.count := Finset.mem_range.mpr h
  simp only [surplus, AccountSegment.worth, Finset.sum_update_of_mem hi,
    Finset.sum_eq_add_sum_sdiff_singleton_of_mem hi s.accounts]
  ring

omit [DecidableEq A] in
theorem Books.count_le (h : Books k l d) {x : A × AccountSegment A} (hx : x ∈ l) :
    x.2.count ≤ k.nbaccounts := by
  obtain ⟨pre, last, heq, hpre, -, hlast⟩ := h.full
  have hmem : x.2.count ∈ pre ++ [last] := heq ▸ List.mem_map.mpr ⟨x, hx, rfl⟩
  rcases List.mem_append.mp hmem with hmem | hmem
  · exact (hpre _ hmem).le
  · exact (List.mem_singleton.mp hmem).trans_le hlast

omit [DecidableEq A] in
theorem Sound.readAccount (h : Sound k m l d) (hp : Held l p) :
    ∃ v, BankWorkload.readAccount k m p = .ok v ∧ 0 ≤ v := by
  obtain ⟨s, hmem, hlt⟩ := hp
  have hle : s.count ≤ k.nbaccounts := h.books.count_le hmem
  exact ⟨_, readAccount_eq (h.chain.path.cell hmem) (hlt.trans_le hle),
    h.books.solvent _ hmem _ hlt⟩

/-- A write to an allocated account changes the books by the difference. -/
theorem Sound.writeAccount {v w : ℤ} (h : Sound k m l d) (hp : Held l p)
    (hw : BankWorkload.readAccount k m p = .ok w) (hv : 0 ≤ v) :
    ∃ t l', BankWorkload.writeAccount k m p v = .ok t ∧ Sound k t l' (d + v - w) ∧
      ∀ q, Held l q → Held l' q := by
  obtain ⟨s, hmem, hlt⟩ := hp
  have hs : m.seg p.1 = some s := h.chain.path.cell hmem
  have hi : p.2 < k.nbaccounts := hlt.trans_le (h.books.count_le hmem)
  have hold : s.accounts p.2 = w := by
    rw [readAccount_eq hs hi] at hw
    exact Except.ok.inj hw
  obtain ⟨pre, post, rfl⟩ := List.append_of_mem hmem
  let e : AccountSegment A := { s with accounts := Function.update s.accounts p.2 v }
  have he : ∀ i < e.count, 0 ≤ e.accounts i := by
    intro i hi
    by_cases heq : i = p.2
    · simpa [e, heq] using hv
    · simpa [e, Function.update_of_ne heq] using h.books.solvent (p.1, s) hmem i hi
  refine ⟨_, pre ++ (p.1, e) :: post, writeAccount_eq hs hi, ⟨h.chain.store rfl, ?_⟩, ?_⟩
  · have hbooks := h.books.amend (e := e) rfl he
    rw [surplus_update hlt, hold] at hbooks
    convert hbooks using 1
    ring
  · rintro q ⟨u, hu, hq⟩
    rcases List.mem_append.mp hu with hu | hu
    · exact ⟨u, by simp [hu], hq⟩
    rcases List.mem_cons.mp hu with hu | hu
    · obtain ⟨hpq, hus⟩ := Prod.mk.inj hu
      exact ⟨e, by simp [hpq], by simpa [e, hus] using hq⟩
    · exact ⟨u, by simp [hu], hq⟩

/-- Sender and receiver may be the same account: it is read again before the second write. -/
theorem Sound.transfer {q : A × ℕ} (h : Sound k m l 0) (hp : Held l p) (hq : Held l q) :
    ∃ t l', transfer k m p q = .ok t ∧ Sound k t l' 0 := by
  obtain ⟨v, hv, hv0⟩ := h.readAccount hp
  by_cases hpos : 0 < v
  · obtain ⟨m₁, l₁, hm, h₁, hheld⟩ := h.writeAccount hp hv (v := v - 1) (by omega)
    obtain ⟨w, hw, hw0⟩ := h₁.readAccount (hheld q hq)
    obtain ⟨m₂, l₂, hm', h₂, -⟩ := h₁.writeAccount (hheld q hq) hw (v := w + 1) (by omega)
    refine ⟨m₂, l₂, by simp [BankWorkload.transfer, hv, hpos, hm, hw, hm'], ?_⟩
    convert h₂ using 1
    ring
  · exact ⟨m, l, by simp [BankWorkload.transfer, hv, hpos], h⟩

omit [DecidableEq A] in
theorem Search.visit_held {c : Search A} (hc : ∀ q, c.ptr = some q → Held l q)
    (ha : (a, s) ∈ l) : ∀ q, (c.visit a s.count).ptr = some q → Held l q := by
  intro q hq
  cases hptr : c.ptr with
  | some r => exact hc q (by simpa [Search.visit, hptr] using hq)
  | none =>
    by_cases hid : c.id < s.count
    · simp only [Search.visit, hptr, hid, if_true, Option.some.injEq] at hq
      exact hq ▸ ⟨s, ha, hid⟩
    · simp [Search.visit, hptr, hid] at hq

omit [DecidableEq A] in
theorem found_eq {send recv : Search A} {q : A × ℕ} (h : found send recv = some (p, q)) :
    send.ptr = some p ∧ recv.ptr = some q := by
  unfold found at h
  split at h
  · cases h
    exact ⟨by assumption, by assumption⟩
  · cases h

omit [DecidableEq A] in
/-- The loop returns, and what it finds are allocated accounts. -/
theorem shortLoop_settles (send recv : Search A) {start : A}
    (h : Path AccountSegment.next m.seg (some start) l none) (hl : ∀ x ∈ l, x ∈ pre)
    (hs : ∀ q, send.ptr = some q → Held pre q) (hr : ∀ q, recv.ptr = some q → Held pre q) :
    ∃ r, Settles (fun fuel => shortLoop m fuel send recv start) r ∧
      ∀ p q, r = some (p, q) → Held pre p ∧ Held pre q := by
  induction l generalizing start send recv with
  | nil => cases h
  | cons x l ih =>
    obtain ⟨hstart, hx, hrest⟩ := h
    cases hstart
    have hs' := Search.visit_held hs (hl x (by simp))
    have hr' := Search.visit_held hr (hl x (by simp))
    cases hfound : found (send.visit x.1 x.2.count) (recv.visit x.1 x.2.count) with
    | some r =>
      refine ⟨some r, ⟨1, fun fuel hle => ?_⟩, fun p q hpq => ?_⟩
      · obtain ⟨n, rfl⟩ := Nat.exists_eq_add_of_le' hle
        simp [shortLoop, hx, hfound]
      · obtain ⟨hp, hq⟩ := found_eq (hfound.trans hpq)
        exact ⟨hs' p hp, hr' q hq⟩
    | none =>
      cases hnext : x.2.next with
      | none =>
        refine ⟨none, ⟨1, fun fuel hle => ?_⟩, by simp⟩
        obtain ⟨n, rfl⟩ := Nat.exists_eq_add_of_le' hle
        simp [shortLoop, hx, hfound, hnext]
      | some b =>
        rw [hnext] at hrest
        obtain ⟨r, ⟨n, hn⟩, hheld⟩ := ih _ _ hrest (fun y hy => hl y (by simp [hy])) hs' hr'
        refine ⟨r, ⟨n + 1, fun fuel hle => ?_⟩, hheld⟩
        obtain ⟨i, rfl⟩ := Nat.exists_eq_add_of_le' hle
        simp [shortLoop, hx, hfound, hnext, hn (i + n) (Nat.le_add_left n i)]

theorem Sound.shortTx (sendId recvId : ℕ) (h : Sound k m l 0) :
    ∃ r t l', Settles (fun fuel => shortTx k sendId recvId fuel m) (r, t) ∧ Sound k t l' 0 := by
  obtain ⟨r, ⟨n, hn⟩, hheld⟩ := shortLoop_settles ⟨none, sendId⟩ ⟨none, recvId⟩ h.chain.path
    (fun x (hx : x ∈ l) => hx) (by simp) (by simp)
  cases r with
  | none =>
    refine ⟨false, m, l, ⟨n, fun fuel hle => ?_⟩, h⟩
    simp [BankWorkload.shortTx, hn fuel hle]
  | some pq =>
    obtain ⟨hp, hq⟩ := hheld pq.1 pq.2 rfl
    obtain ⟨t, l', ht, hsound⟩ := h.transfer hp hq
    refine ⟨true, t, l', ⟨n, fun fuel hle => ?_⟩, hsound⟩
    simp [BankWorkload.shortTx, hn fuel hle, ht]

/-! ## The transaction `long_tx` -/

omit [DecidableEq A] in
theorem sumAccounts_eq {n i : ℕ} (sum : ℤ) (hs : m.seg a = some s) (hi : i + n ≤ k.nbaccounts)
    (hv : ∀ j < i + n, 0 ≤ s.accounts j) :
    sumAccounts k m a n i sum = .ok (some (sum + ∑ j ∈ Finset.range n, s.accounts (i + j))) := by
  induction n generalizing i sum with
  | zero => simp [sumAccounts]
  | succ n ih =>
    have hread : readAccount k m (a, i) = .ok (s.accounts i) := readAccount_eq hs (by simp; omega)
    have hpos : ¬s.accounts i < 0 := not_lt.mpr (hv i (by omega))
    have hrest := ih (i := i + 1) (sum + s.accounts i) (by omega)
      fun j hj => hv j (by omega)
    have hsum : ∑ j ∈ Finset.range (n + 1), s.accounts (i + j) =
        s.accounts i + ∑ j ∈ Finset.range n, s.accounts (i + 1 + j) := by
      rw [Finset.sum_range_succ', add_comm]
      simp [Nat.add_comm, Nat.add_left_comm]
    rw [hsum, ← add_assoc]
    simpa [sumAccounts, hread, hpos] using hrest

omit [DecidableEq A] in
theorem longLoop_eq {fuel : ℕ} {start : Option A} (count : ℕ) (sum : ℤ)
    (h : Path AccountSegment.next m.seg start l none) (hf : l.length ≤ fuel)
    (hc : ∀ x ∈ l, x.2.count ≤ k.nbaccounts)
    (hv : ∀ x ∈ l, ∀ i < x.2.count, 0 ≤ x.2.accounts i) :
    longLoop k m fuel count sum start =
      .ok (some (count + totalCount l, sum + totalWorth l)) := by
  induction l generalizing start fuel count sum with
  | nil =>
    cases h
    simp [longLoop, totalCount, totalWorth]
  | cons x l ih =>
    obtain ⟨rfl, hx, hrest⟩ := h
    cases fuel with
    | zero => cases hf
    | succ fuel =>
      have hsum : sumAccounts k m x.1 x.2.count 0 (sum + x.2.parity) =
          .ok (some (sum + x.2.worth)) := by
        rw [sumAccounts_eq _ hx (by simpa using hc x (by simp)) (by simpa using hv x (by simp))]
        simp [AccountSegment.worth, add_assoc]
      have hloop := ih (count + x.2.count) (sum + x.2.worth) hrest
        (Nat.le_of_succ_le_succ hf) (fun y hy => hc y (by simp [hy]))
        fun y hy => hv y (by simp [hy])
      simpa [longLoop, hx, hsum, totalCount, totalWorth, add_assoc] using hloop

omit [DecidableEq A] in
theorem Sound.longTx (h : Sound k m l 0) :
    Settles (fun fuel => longTx k fuel m) (true, some (totalCount l)) := by
  refine ⟨l.length, fun fuel hle => ?_⟩
  have hloop := longLoop_eq (k := k) 0 0 h.chain.path hle
    (fun x hx => h.books.count_le hx) h.books.solvent
  have htotal := h.books.total
  rw [sum_surplus, sub_eq_zero] at htotal
  simp [BankWorkload.longTx, hloop, htotal]

/-! ## Runs -/

theorem fillAccounts_eq {n : ℕ} (hs : m.seg m.start = some s) (hn : n ≤ k.nbaccounts) :
    fillAccounts k m n = .ok (m.put m.start (some { s with
      accounts := fun i => if i < n then k.initBalance else s.accounts i })) := by
  induction n with
  | zero => simp [fillAccounts, Memory.put, ← hs]
  | succ n ih =>
    have hlt : n < k.nbaccounts := hn
    have hacc : Function.update (fun i => if i < n then k.initBalance else s.accounts i) n
        k.initBalance = fun i => if i < n + 1 then k.initBalance else s.accounts i := by
      funext i
      simp only [Function.update_apply]
      split_ifs <;> first | rfl | omega
    simp [fillAccounts, ih (Nat.le_of_lt hlt), writeAccount, hlt, hacc]

/-- The first segment after `init`. -/
def filled (n : ℕ) (b : ℤ) : AccountSegment A :=
  ⟨n, none, 0, fun i => if i < n then b else 0⟩

@[simp] theorem create_start {start : A} : (create start).start = start := rfl

theorem init_eq {start : A} (hn : 0 < k.nbaccounts) :
    init k (create start) =
      .ok (true, (create start).put start (some (filled k.nbaccounts k.initBalance))) := by
  let m : Memory A := (create start).put start (some { AccountSegment.zeroed with
    count := k.nbaccounts })
  have hfill : fillAccounts k m k.nbaccounts =
      .ok (m.put start (some (filled k.nbaccounts k.initBalance))) :=
    fillAccounts_eq put_seg_self le_rfl
  have hwrite : (create start).write start (fun s => { s with count := k.nbaccounts }) = .ok m := by
    simp [create, m]
  simp [init, hwrite, hfill, readAccount, hn]
  simp [m, filled, hn.ne']

theorem sound_init {start : A} (hn : 1 ≤ k.nbaccounts) (hb : 0 ≤ k.initBalance) :
    Sound k ((create start).put start (some (filled k.nbaccounts k.initBalance)))
      [(start, filled k.nbaccounts k.initBalance)] 0 := by
  refine ⟨⟨⟨rfl, put_seg_self, rfl⟩, by simp⟩, ?_, ?_, ?_⟩
  · exact ⟨[], k.nbaccounts, rfl, by simp, hn, le_rfl⟩
  · intro x hx i hi
    cases List.mem_singleton.mp hx
    simp only [filled] at hi ⊢
    simpa [hi] using hb
  · have hsum : ∑ i ∈ Finset.range k.nbaccounts, (filled (A := A) k.nbaccounts
        k.initBalance).accounts i = k.nbaccounts * k.initBalance := by
      rw [Finset.sum_congr rfl (g := fun _ => k.initBalance)]
      · simp
      · intro i hi
        simp [filled, Finset.mem_range.mp hi]
    simp only [List.map_singleton, List.sum_singleton, surplus, AccountSegment.worth]
    rw [show (filled (A := A) k.nbaccounts k.initBalance).count = k.nbaccounts from rfl, hsum]
    simp [filled, mul_comm]

theorem allocLoop_mono {trigger n i count : ℕ} {fresh : A} {prev : Option A}
    (h : allocLoop k trigger fresh m n count prev a = .ok t) (hn : n ≤ i) :
    allocLoop k trigger fresh m i count prev a = .ok t := by
  induction n generalizing i count prev a with
  | zero => simp [allocLoop] at h
  | succ n ih =>
    obtain ⟨i, rfl⟩ := Nat.exists_eq_add_of_le' hn
    simp only [allocLoop, bind_eq_ok] at h ⊢
    obtain ⟨s, hs, h⟩ := h
    refine ⟨s, hs, ?_⟩
    cases hnext : s.next with
    | none => simpa [hnext] using h
    | some b =>
      simp only [hnext] at h ⊢
      exact ih h (Nat.le_add_left n i)

omit [DecidableEq A] in
theorem shortLoop_mono {n i : ℕ} {send recv : Search A} {r : Option ((A × ℕ) × (A × ℕ))}
    (h : shortLoop m n send recv a = .ok r) (hn : n ≤ i) :
    shortLoop m i send recv a = .ok r := by
  induction n generalizing i send recv a with
  | zero => simp [shortLoop] at h
  | succ n ih =>
    obtain ⟨i, rfl⟩ := Nat.exists_eq_add_of_le' hn
    simp only [shortLoop, bind_eq_ok] at h ⊢
    obtain ⟨s, hs, h⟩ := h
    refine ⟨s, hs, ?_⟩
    cases hfound : found (send.visit a s.count) (recv.visit a s.count) with
    | some r => simpa [hfound] using h
    | none =>
      cases hnext : s.next with
      | none => simpa [hfound, hnext] using h
      | some b =>
        simp only [hfound, hnext] at h ⊢
        exact ih h (Nat.le_add_left n i)

/-- A run that returns, with any number of rounds, returns what enough rounds give. -/
theorem Settles.eq {α : Type} {run : ℕ → Except Fault α} {r x : α} {n : ℕ} (h : Settles run r)
    (mono : ∀ i, n ≤ i → run n = .ok x → run i = .ok x) (hx : run n = .ok x) : x = r := by
  obtain ⟨i, hi⟩ := h
  have hmax : run (max n i) = .ok x := mono _ (le_max_left n i) hx
  rw [hi _ (le_max_right n i)] at hmax
  exact (Except.ok.inj hmax).symm

omit [DecidableEq A] in
theorem toOption_eq_some {α : Type} {x : Except Fault α} {y : α} :
    x.toOption = some y ↔ x = .ok y := by
  cases x <;> simp [Except.toOption]

theorem Sound.step {ev : Event A} (h : Sound k m l 0) (hn : 1 ≤ k.nbaccounts)
    (hb : 0 ≤ k.initBalance) (ha : Allocator m ev) (ht : step k m ev = some t) :
    ∃ l', Sound k t l' 0 := by
  cases ev with
  | alloc trigger fresh fuel =>
    have hf : m.seg fresh = none := Option.isNone_iff_eq_none.mp ha
    obtain ⟨r, l', hr, hsound⟩ := h.allocTx trigger hn hb hf
    have heq : t = r := hr.eq (fun i hi hx => allocLoop_mono hx hi) (toOption_eq_some.mp ht)
    exact ⟨l', heq ▸ hsound⟩
  | short sendId recvId fuel =>
    obtain ⟨r, u, l', hr, hsound⟩ := h.shortTx sendId recvId
    obtain ⟨x, hx, rfl⟩ : ∃ x, BankWorkload.shortTx k sendId recvId fuel m = .ok x ∧ x.2 = t := by
      rw [BankWorkload.step, toOption_eq_some] at ht
      exact map_eq_ok.mp ht
    have heq : x = (r, u) := by
      refine hr.eq (fun i hi hrun => ?_) hx
      simp only [BankWorkload.shortTx, bind_eq_ok] at hrun ⊢
      obtain ⟨y, hy, hrun⟩ := hrun
      exact ⟨y, shortLoop_mono hy hi, hrun⟩
    exact ⟨l', heq ▸ hsound⟩

theorem reachable_sound (hn : 1 ≤ k.nbaccounts) (hb : 0 ≤ k.initBalance)
    (h : Reachable (system k A) Allocator m) : ∃ l, Sound k m l 0 := by
  refine h.invariant (I := fun m => ∃ l, Sound k m l 0) ?_ ?_
  · rintro m ⟨start, correct, hinit⟩
    rw [init_eq hn] at hinit
    cases hinit
    exact ⟨_, sound_init hn hb⟩
  · rintro m ev t ⟨l, hl⟩ ha ht
    exact hl.step hn hb ha ht

/-- After `init` and any transactions, `long_tx` finds no inconsistency. Every transaction
returns, so the first segment is never to be deallocated. -/
theorem bank_conservation (hn : 1 ≤ k.nbaccounts) (hb : 0 ≤ k.initBalance) :
    (∀ start : A, ∃ m, init k (create start) = .ok (true, m)) ∧
    ∀ m : Memory A, Reachable (system k A) Allocator m →
      (∃ l, Chain AccountSegment.next m.seg (some m.start) l ∧
        Full k.nbaccounts (l.map fun x => x.2.count) ∧
        (∀ x ∈ l, ∀ i < x.2.count, 0 ≤ x.2.accounts i) ∧
        totalWorth l = k.initBalance * totalCount l ∧
        Settles (fun fuel => longTx k fuel m) (true, some (totalCount l))) ∧
      (m.seg m.start).isSome ∧
      (∀ trigger fresh, m.seg fresh = none →
        ∃ t, Settles (fun fuel => allocTx k trigger fresh fuel m) t) ∧
      ∀ sendId recvId, ∃ r, Settles (fun fuel => shortTx k sendId recvId fuel m) r := by
  refine ⟨fun start => ⟨_, init_eq hn⟩, fun m hm => ?_⟩
  obtain ⟨l, hl⟩ := reachable_sound hn hb hm
  refine ⟨⟨l, hl.chain, hl.books.full, hl.books.solvent, ?_, hl.longTx⟩, ?_, ?_, ?_⟩
  · have htotal := hl.books.total
    rw [sum_surplus, sub_eq_zero] at htotal
    exact htotal
  · obtain ⟨pre, last, heq, -⟩ := hl.books.full
    cases l with
    | nil => simp at heq
    | cons x l =>
      obtain ⟨hstart, hx, -⟩ := hl.chain.path
      simp [Option.some.inj hstart, hx]
  · intro trigger fresh hf
    obtain ⟨t, -, ht, -⟩ := hl.allocTx trigger hn hb hf
    exact ⟨t, ht⟩
  · intro sendId recvId
    obtain ⟨r, t, -, ht, -⟩ := hl.shortTx sendId recvId
    exact ⟨(r, t), ht⟩

/-- With one account a segment: two more segments, a transfer from the first account to the
third, and the last segment goes with the balance 6. -/
theorem bank_conservation_shrinking :
    ∃ m, run (system ⟨1, 5, true⟩ ℕ) ((create 0).put 0 (some (filled 1 5)))
        [.alloc 9 1 3, .alloc 9 2 3, .short 0 2 3, .alloc 2 3 3] = some m ∧
      (m.seg 1).map (·.parity) = some 1 ∧ (m.seg 2).isNone ∧
      ∃ n, Settles (fun fuel => longTx ⟨1, 5, true⟩ fuel m) (true, some n) := by
  let M := run (system ⟨1, 5, true⟩ ℕ) ((create 0).put 0 (some (filled 1 5)))
    [.alloc 9 1 3, .alloc 9 2 3, .short 0 2 3, .alloc 2 3 3]
  have hparity : (M.bind fun m => (m.seg 1).map (·.parity)) = some 1 := by decide
  have hfreed : (M.map fun m => (m.seg 2).isNone) = some true := by decide
  obtain ⟨m, hm⟩ : ∃ m, M = some m := Option.isSome_iff_exists.mp (by decide)
  rw [hm] at hparity hfreed
  have hreach : Reachable (system ⟨1, 5, true⟩ ℕ) Allocator m :=
    .run (.init ⟨0, true, init_eq Nat.zero_lt_one⟩) _ (by decide) hm
  obtain ⟨⟨l, -, -, -, -, hlong⟩, -⟩ :=
    (bank_conservation (k := ⟨1, 5, true⟩) (A := ℕ) le_rfl (by decide)).2 m hreach
  exact ⟨m, hm, hparity, Option.some.inj hfreed, totalCount l, hlong⟩

end BankWorkload
