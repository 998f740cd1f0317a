import TransactionalMemory.CallLog
import TransactionalMemory.CommutingSteps

/-! # Plain memory

What the library is for: a memory of zero-initialised blocks on which transactions run one
at a time. A read is possible only if it returns what the block holds; a freed block stays
until the end of the epoch. -/
namespace PlainMemory

open ControlWord
open RegionState
open Calls
open CallLog
open CommutingSteps

variable {W : Type*}

structure Block (W : Type*) where
  size : ℕ
  word : ℕ → W
  freed : Bool

abbrev Memory (W : Type*) := SegId → Option (Block W)

def Block.zero [Zero W] (size : ℕ) : Block W := ⟨size, fun _ => 0, false⟩

def Block.read [DecidableEq W] (k : ℕ) (target : List W) (b : Block W) : Option (Block W) :=
  if k + target.length ≤ b.size ∧ copyOut b.word k target.length = target then some b else none

def Block.store (k : ℕ) (src : List W) (b : Block W) : Block W :=
  { b with
    word := fun i => if inRange k src.length i then (src[i - k]?).getD (b.word i) else b.word i }

def Block.write (k : ℕ) (src : List W) (b : Block W) : Option (Block W) :=
  if k + src.length ≤ b.size then some (b.store k src) else none

def Block.free (b : Block W) : Option (Block W) := some { b with freed := true }

def exec [Zero W] [DecidableEq W] (m : Memory W) : Entry W → Option (Memory W)
  | .read g k target => modify g (Block.read k target) m
  | .write g k src => modify g (Block.write k src) m
  | .alloc g size => create g (Block.zero size) m
  | .free g => modify g Block.free m
  | .commit | .abort => some m

/-- What the transaction did in the epoch, in its own order. -/
def calls (log : Log W) (u : Tx) : List (Entry W) :=
  log.filterMap fun x => if x.1 = u then some x.2 else none

def runTransaction [Zero W] [DecidableEq W] (log : Log W) (m : Memory W) (u : Tx) :
    Option (Memory W) := (calls log u).foldlM exec m

def endEpoch (m : Memory W) : Memory W := fun g => (m g).filter fun b => !b.freed

/-- The committed transactions of an epoch, those that only read before the others. -/
structure SerialOrder (log : Log W) (order : List Tx) : Prop where
  nodup : order.Nodup
  committed : ∀ u, u ∈ order ↔ (u, .commit) ∈ log
  readersFirst : order.Pairwise fun a b => isTxReadonly b = true → isTxReadonly a = true

instance [DecidableEq W] (log : Log W) (order : List Tx) : Decidable (SerialOrder log order) :=
  -- without this the quantifier would range over all handles
  have := List.decidableBAll (fun u => (u, .commit) ∈ log) order
  decidable_of_iff (order.Nodup ∧ (∀ u ∈ order, (u, .commit) ∈ log) ∧
      (∀ x ∈ log, x.2 = .commit → x.1 ∈ order) ∧
      order.Pairwise fun a b => isTxReadonly b = true → isTxReadonly a = true)
    ⟨fun h => ⟨h.1, fun u => ⟨h.2.1 u, fun hin => h.2.2.1 _ hin rfl⟩, h.2.2.2⟩,
      fun h => ⟨h.nodup, fun u => (h.committed u).mp,
        fun x hin hx => (h.committed x.1).mpr (by rwa [← hx]), h.readersFirst⟩⟩

/-- One epoch: its log, and the order in which its transactions run. -/
def runEpoch [Zero W] [DecidableEq W] (m : Memory W) (x : Log W × List Tx) :
    Option (Memory W) := (x.2.foldlM (runTransaction x.1) m).map endEpoch

def initialMemory [Zero W] (size : ℕ) : Memory W := fun g =>
  if g = 0 then some (Block.zero size) else none

theorem calls_snoc (log : Log W) (tx u : Tx) (e : Entry W) :
    calls (log ++ [(tx, e)]) u = if tx = u then calls log u ++ [e] else calls log u := by
  by_cases h : tx = u <;> simp [calls, h]

theorem mem_calls {log : Log W} {u : Tx} {e : Entry W} : e ∈ calls log u ↔ (u, e) ∈ log := by
  simp only [calls, List.mem_filterMap, Option.ite_none_right_eq_some, Option.some.injEq]
  constructor
  · rintro ⟨⟨v, e'⟩, hin, rfl, rfl⟩
    exact hin
  · exact fun hin => ⟨(u, e), hin, rfl, rfl⟩

section Commuting

variable {k k' : ℕ} {target src src' : List W} {act : Block W → Option (Block W)}

/-- A read commutes with whatever leaves the words it reads alone. -/
theorem read_commutes [DecidableEq W] (h : ∀ b c, act b = some c →
    c.size = b.size ∧ ∀ i, inRange k target.length i = true → c.word i = b.word i) :
    Commutes (Block.read k target) act := by
  refine Commutes.of_idle (fun b c hc => ?_) fun b c hc hb => ?_
  · simp only [Block.read, Option.ite_none_right_eq_some, Option.some.injEq] at hc
    exact hc.2.symm
  · obtain ⟨hsize, hword⟩ := h b c hc
    have same : copyOut c.word k target.length = copyOut b.word k target.length := by
      apply List.map_congr_left
      intro j hj
      rw [List.mem_range] at hj
      apply hword
      rw [inRange_iff]
      omega
    simp only [Block.read, Option.isSome_ite, hsize, same] at hb ⊢
    rw [if_pos hb]

theorem read_words [DecidableEq W] (b c : Block W) (h : Block.read k target b = some c) :
    c = b := by
  simp only [Block.read, Option.ite_none_right_eq_some, Option.some.injEq] at h
  exact h.2.symm

theorem write_words (b c : Block W) (h : Block.write k src b = some c) :
    c = b.store k src ∧ k + src.length ≤ b.size := by
  simp only [Block.write, Option.ite_none_right_eq_some, Option.some.injEq] at h
  exact ⟨h.2.symm, h.1⟩

theorem read_commutes_write [DecidableEq W]
    (h : ∀ i, inRange k' src.length i = true → inRange k target.length i = false) :
    Commutes (Block.read k target) (Block.write k' src) := by
  refine read_commutes fun b c hc => ?_
  obtain ⟨rfl, -⟩ := write_words b c hc
  refine ⟨rfl, fun i hi => ?_⟩
  cases hs : inRange k' src.length i with
  | false => simp [Block.store, hs]
  | true => simp [h i hs] at hi

theorem read_commutes_free [DecidableEq W] : Commutes (Block.read k target) Block.free := by
  refine read_commutes fun b c hc => ?_
  cases hc
  exact ⟨rfl, fun _ _ => rfl⟩

theorem write_commutes
    (h : ∀ i, inRange k src.length i = true → inRange k' src'.length i = false) :
    Commutes (Block.write k src) (Block.write k' src') := by
  intro m a b ha hb
  obtain ⟨rfl, hk⟩ := write_words m a ha
  obtain ⟨rfl, hk'⟩ := write_words m b hb
  refine ⟨(m.store k src).store k' src', if_pos hk', ?_⟩
  have swap : (m.store k' src').store k src = (m.store k src).store k' src' := by
    simp only [Block.store, Block.mk.injEq, true_and, and_true]
    funext i
    cases hi : inRange k src.length i with
    | true => simp [h i hi]
    | false => simp
  rw [← swap]
  exact if_pos hk

theorem write_commutes_free : Commutes (Block.write k src) Block.free := by
  intro m a b ha hb
  obtain ⟨rfl, hk⟩ := write_words m a ha
  cases hb
  exact ⟨_, rfl, if_pos hk⟩

theorem free_commutes : Commutes (Block.free : Block W → _) Block.free := by
  intro m a b ha hb
  cases ha
  cases hb
  exact ⟨_, rfl, rfl⟩

theorem some_commutes {σ : Type*} (f : σ → Option σ) : Commutes some f := by
  intro m a b ha hb
  cases ha
  exact ⟨b, hb, rfl⟩

end Commuting

theorem modify_both {g g' : SegId} {act act' : Block W → Option (Block W)}
    (h : g = g' → Commutes act act') : Commutes (modify g act) (modify g' act') := by
  by_cases hg : g = g'
  · subst g'
    exact modify_commutes (h rfl)
  · exact modify_commutes_far hg

/-- Calls that neither write a word the other uses nor allocate the same block. -/
structure Apart (e e' : Entry W) : Prop where
  stores : ∀ g i, e.stores g i = true → e'.accesses g i = false
  stored : ∀ g i, e'.stores g i = true → e.accesses g i = false
  fresh : ∀ g size, e = .alloc g size → e'.claims ≠ some g

theorem exec_commutes [Zero W] [DecidableEq W] {e e' : Entry W} (h : Apart e e') :
    Commutes (exec · e) (exec · e') := by
  cases e with
  | commit => exact some_commutes _
  | abort => exact some_commutes _
  | alloc g size =>
    cases e' with
    | commit => exact (some_commutes _).symm
    | abort => exact (some_commutes _).symm
    | alloc g' size' =>
      refine create_commutes fun hg => h.fresh g size rfl ?_
      rw [hg]
      rfl
    | _ => exact create_commutes_modify
  | read g k target =>
    cases e' with
    | commit => exact (some_commutes _).symm
    | abort => exact (some_commutes _).symm
    | alloc => exact create_commutes_modify.symm
    | free => exact modify_both fun _ => read_commutes_free
    | read g' k' target' =>
      refine modify_both fun _ => read_commutes fun b c hc => ?_
      cases read_words b c hc
      exact ⟨rfl, fun _ _ => rfl⟩
    | write g' k' src =>
      refine modify_both fun hg => read_commutes_write fun i hi => ?_
      subst g'
      simpa [Entry.accesses] using h.stored g i (by simpa [Entry.stores] using hi)
  | write g k src =>
    cases e' with
    | commit => exact (some_commutes _).symm
    | abort => exact (some_commutes _).symm
    | alloc => exact create_commutes_modify.symm
    | free => exact modify_both fun _ => write_commutes_free
    | read g' k' target =>
      refine modify_both fun hg => (read_commutes_write fun i hi => ?_).symm
      subst g'
      simpa [Entry.accesses] using h.stores g i (by simpa [Entry.stores] using hi)
    | write g' k' src' =>
      refine modify_both fun hg => write_commutes fun i hi => ?_
      subst g'
      simpa [Entry.accesses] using h.stores g i (by simpa [Entry.stores] using hi)
  | free g =>
    cases e' with
    | commit => exact (some_commutes _).symm
    | abort => exact (some_commutes _).symm
    | alloc => exact create_commutes_modify.symm
    | free => exact modify_both fun _ => free_commutes
    | write => exact modify_both fun _ => write_commutes_free.symm
    | read => exact modify_both fun _ => read_commutes_free.symm

end PlainMemory
