import TransactionalMemory.CallEffects

/-! # The log of an epoch

The calls of an epoch that succeeded, and the ends of its transactions, in the order in
which they took effect. Marks, owners and flags are functions of this log. -/
namespace CallLog

open ControlWord
open RegionState
open Calls
open CallEffects

variable {W : Type*}

/-- A read carries the words it returned, an allocation the block it obtained. -/
inductive Entry (W : Type*) where
  | read (g : SegId) (k : ℕ) (target : List W)
  | write (g : SegId) (k : ℕ) (src : List W)
  | alloc (g : SegId) (size : ℕ)
  | free (g : SegId)
  | commit
  | abort
  deriving DecidableEq, Repr

abbrev Log (W : Type*) := List (Tx × Entry W)

instance [DecidableEq W] (x : Tx × Entry W) (log : Log W) : Decidable (x ∈ log) :=
  List.instDecidableMemOfLawfulBEq x log

def Entry.accesses (e : Entry W) (g : SegId) (i : ℕ) : Bool :=
  match e with
  | .read x k target => decide (x = g) && inRange k target.length i
  | .write x k src => decide (x = g) && inRange k src.length i
  | _ => false

def Entry.stores (e : Entry W) (g : SegId) (i : ℕ) : Bool :=
  match e with
  | .write x k src => decide (x = g) && inRange k src.length i
  | _ => false

/-- Read-only transactions leave no marks when they read. -/
def Entry.marks (e : Entry W) (tx : Tx) (g : SegId) (i : ℕ) : Bool :=
  e.stores g i || (e.accesses g i && !isTxReadonly tx)

theorem Entry.marks_of_far {e : Entry W} {g : SegId} {i : ℕ} (h : e.accesses g i = false)
    (tx : Tx) : e.stores g i = false ∧ e.marks tx g i = false := by
  have hs : e.stores g i = false := by
    cases e with
    | write => exact h
    | _ => rfl
  exact ⟨hs, by simp [Entry.marks, hs, h]⟩

/-- The segment whose owner field the call sets. -/
def Entry.claims (e : Entry W) : Option SegId :=
  match e with
  | .alloc g _ => some g
  | .free g => some g
  | _ => none

/-- The segment the call is about. -/
def Entry.segment (e : Entry W) : Option SegId :=
  match e with
  | .read g _ _ | .write g _ _ | .alloc g _ | .free g => some g
  | .commit | .abort => none

/-- Transactions that did not abort and made a call of which `p` holds. -/
def standing (log : Log W) (p : Tx → Entry W → Bool) : Set Tx :=
  {u | (u, .abort) ∉ log ∧ ∃ e, (u, e) ∈ log ∧ p u e = true}

def passed (log : Log W) (g : SegId) (i : ℕ) : Set Tx := standing log fun u e => e.marks u g i
def wrote (log : Log W) (g : SegId) (i : ℕ) : Set Tx := standing log fun _ e => e.stores g i

/-- The transaction of this epoch that allocated the segment. -/
def allocator (log : Log W) (g : SegId) : Option Tx :=
  log.findSome? fun x => match x.2 with
    | .alloc y _ => if y = g then some x.1 else none
    | _ => none

/-- The last transaction that allocated or freed the segment. -/
def holder (log : Log W) (g : SegId) : Option Tx :=
  log.reverse.findSome? fun x => if x.2.claims = some g then some x.1 else none

/-- Some transaction aborted while it was the last one to have allocated or freed the
segment. -/
def Overruled (log : Log W) (g : SegId) : Prop :=
  ∃ pre u post, log = pre ++ (u, .abort) :: post ∧ holder pre g = some u

section Snoc

variable {log : Log W} {u tx : Tx} {e : Entry W} {g : SegId} {i : ℕ}
variable {p : Tx → Entry W → Bool}

theorem mem_snoc {x : Tx × Entry W} :
    x ∈ log ++ [(tx, e)] ↔ x ∈ log ∨ x = (tx, e) := by simp

theorem standing_nil : standing ([] : Log W) p = ∅ := by
  simp [standing]

theorem standing_snoc (he : e ≠ .abort) (hn : (tx, .abort) ∉ log) :
    standing (log ++ [(tx, e)]) p =
      if p tx e then insert tx (standing log p) else standing log p := by
  ext u
  simp only [standing, Set.mem_ofPred_eq, mem_snoc, Prod.mk.injEq, he.symm, and_false, or_false]
  cases hp : p tx e with
  | true =>
    simp only [if_true, Set.mem_insert_iff, Set.mem_ofPred_eq]
    constructor
    · rintro ⟨hu, e', he' | ⟨rfl, rfl⟩, hpe⟩
      · exact .inr ⟨hu, e', he', hpe⟩
      · exact .inl rfl
    · rintro (rfl | ⟨hu, e', he', hpe⟩)
      · exact ⟨hn, e, .inr ⟨rfl, rfl⟩, hp⟩
      · exact ⟨hu, e', .inl he', hpe⟩
  | false =>
    simp only [Bool.false_eq_true, if_false, Set.mem_ofPred_eq]
    constructor
    · rintro ⟨hu, e', he' | ⟨rfl, rfl⟩, hpe⟩
      · exact ⟨hu, e', he', hpe⟩
      · rw [hp] at hpe
        cases hpe
    · rintro ⟨hu, e', he', hpe⟩
      exact ⟨hu, e', .inl he', hpe⟩

theorem standing_abort (hp : p tx .abort = false) :
    standing (log ++ [(tx, .abort)]) p = standing log p \ {tx} := by
  ext u
  simp only [standing, Set.mem_ofPred_eq, mem_snoc, Prod.mk.injEq, and_true, not_or,
    Set.mem_sdiff, Set.mem_singleton_iff]
  constructor
  · rintro ⟨⟨hu, hne⟩, e', he' | ⟨rfl, -⟩, hpe⟩
    · exact ⟨⟨hu, e', he', hpe⟩, hne⟩
    · exact (hne rfl).elim
  · rintro ⟨⟨hu, e', he', hpe⟩, hne⟩
    exact ⟨⟨hu, hne⟩, e', .inl he', hpe⟩

theorem allocator_alloc (size : ℕ) (h : allocator log g = none) :
    allocator (log ++ [(tx, .alloc g size)]) g = some tx := by
  rw [allocator, List.findSome?_append]
  rw [allocator] at h
  simp [h]

theorem allocator_snoc (he : ∀ size, e ≠ .alloc g size) :
    allocator (log ++ [(tx, e)]) g = allocator log g := by
  rw [allocator, List.findSome?_append]
  have : ([(tx, e)].findSome? fun x => match x.2 with
      | .alloc y _ => if y = g then some x.1 else none
      | _ => none) = none := by
    cases e with
    | alloc y size =>
      have hy : y ≠ g := fun h => he size (by rw [h])
      simp [hy]
    | _ => rfl
  rw [this, Option.or_none]
  rfl

theorem holder_claim (he : e.claims = some g) : holder (log ++ [(tx, e)]) g = some tx := by
  simp [holder, he]

theorem holder_snoc (he : e.claims ≠ some g) : holder (log ++ [(tx, e)]) g = holder log g := by
  simp [holder, he]

theorem overruled_nil : ¬ Overruled ([] : Log W) g := by
  rintro ⟨pre, u, post, h, -⟩
  simp at h

theorem overruled_snoc : Overruled (log ++ [(tx, e)]) g ↔
    Overruled log g ∨ (e = .abort ∧ holder log g = some tx) := by
  constructor
  · rintro ⟨pre, u, post, h, hh⟩
    rcases List.eq_nil_or_concat post with rfl | ⟨post, x, rfl⟩
    · obtain ⟨rfl, he⟩ := List.append_inj' h rfl
      simp only [List.cons.injEq, Prod.mk.injEq, and_true] at he
      obtain ⟨rfl, rfl⟩ := he
      exact .inr ⟨rfl, hh⟩
    · rw [List.concat_eq_append, ← List.cons_append, ← List.append_assoc] at h
      exact .inl ⟨pre, u, post, (List.append_inj' h rfl).1, hh⟩
  · rintro (⟨pre, u, post, rfl, hh⟩ | ⟨rfl, hh⟩)
    · exact ⟨pre, u, post ++ [(tx, e)], by simp, hh⟩
    · exact ⟨log, tx, [], rfl, hh⟩

end Snoc

theorem mem_of_allocator {log : Log W} {g : SegId} {u : Tx} (h : allocator log g = some u) :
    ∃ size, (u, .alloc g size) ∈ log := by
  obtain ⟨⟨v, e⟩, hin, hx⟩ := List.exists_of_findSome?_eq_some h
  cases e with
  | alloc y size =>
    simp only [Option.ite_none_right_eq_some, Option.some.injEq] at hx
    obtain ⟨rfl, rfl⟩ := hx
    exact ⟨size, hin⟩
  | _ => cases hx

theorem allocator_isSome {log : Log W} {g : SegId} {u : Tx} {size : ℕ}
    (h : (u, .alloc g size) ∈ log) : allocator log g ≠ none := by
  rw [allocator, Ne, List.findSome?_eq_none_iff]
  intro hn
  have := hn _ h
  simp at this

theorem mem_of_holder {log : Log W} {g : SegId} {u : Tx} (h : holder log g = some u) :
    ∃ e, (u, e) ∈ log ∧ e.claims = some g := by
  obtain ⟨⟨v, e⟩, hin, hx⟩ := List.exists_of_findSome?_eq_some h
  simp only [Option.ite_none_right_eq_some, Option.some.injEq] at hx
  obtain ⟨hc, rfl⟩ := hx
  exact ⟨e, List.mem_reverse.mp hin, hc⟩

theorem holder_isSome {log : Log W} {g : SegId} {u : Tx} {e : Entry W} (h : (u, e) ∈ log)
    (hc : e.claims = some g) : holder log g ≠ none := by
  rw [holder, Ne, List.findSome?_eq_none_iff]
  intro hn
  have := hn (u, e) (List.mem_reverse.mpr h)
  simp [hc] at this

end CallLog
