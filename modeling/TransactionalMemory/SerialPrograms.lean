import TransactionalMemory.Lockstep
import TransactionalMemory.PlainMemory

/-! # Serial programs

A sequence of transactions, each run to its end before the next one begins. Segments are
named by allocation order, the first one 0. -/
namespace SerialPrograms

open RegionState
open Calls
open CallLog
open CommutingSteps
open PlainMemory
open Lockstep

variable {W : Type*}

inductive Call (W : Type*) where
  | read (g : SegId) (k n : ℕ)
  | write (g : SegId) (k : ℕ) (src : List W)
  | alloc (size : ℕ)
  | free (g : SegId)

structure Transaction (W : Type*) where
  isRo : Bool
  calls : List (Call W)

/-- What the program has allocated and freed so far. -/
structure Shape where
  count : ℕ
  size : SegId → ℕ
  freed : Finset SegId

def Shape.start (size : ℕ) : Shape := ⟨1, fun _ => size, ∅⟩

def Shape.after (sh : Shape) : Call W → Shape
  | .alloc n => { sh with count := sh.count + 1, size := Function.update sh.size sh.count n }
  | .free g => { sh with freed := insert g sh.freed }
  | .read .. | .write .. => sh

/-- The segment exists and has not been freed. -/
def Shape.Held (sh : Shape) (g : SegId) : Prop := g < sh.count ∧ g ∉ sh.freed

instance (sh : Shape) (g : SegId) : Decidable (sh.Held g) := by
  unfold Shape.Held
  infer_instance

/-- In bounds of a segment that has not been freed; read-only transactions only read, and
the first segment is never freed. -/
def Call.Allowed (sh : Shape) (isRo : Bool) : Call W → Prop
  | .read g k n => sh.Held g ∧ k + n ≤ sh.size g
  | .write g k src => isRo = false ∧ sh.Held g ∧ k + src.length ≤ sh.size g
  | .alloc _ => isRo = false
  | .free g => isRo = false ∧ sh.Held g ∧ g ≠ 0

instance (sh : Shape) (isRo : Bool) (c : Call W) : Decidable (c.Allowed sh isRo) := by
  cases c <;> simp only [Call.Allowed] <;> infer_instance

def CallsAllowed (isRo : Bool) : Shape → List (Call W) → Prop :=
  Along (fun sh c => c.Allowed sh isRo) Shape.after

instance (isRo : Bool) (sh : Shape) (cs : List (Call W)) : Decidable (CallsAllowed isRo sh cs) :=
  inferInstanceAs (Decidable (Along _ _ _ _))

def ProgramAllowed : Shape → List (Transaction W) → Prop :=
  Along (fun sh p => CallsAllowed p.isRo sh p.calls) fun sh p => p.calls.foldl Shape.after sh

instance (sh : Shape) (ps : List (Transaction W)) : Decidable (ProgramAllowed sh ps) :=
  inferInstanceAs (Decidable (Along _ _ _ _))

/-- The entry that a call leaves in a log, and what it delivers to the program. -/
inductive Logged (sh : Shape) : Call W → Entry W → List (List W) → Prop where
  | read {g k target} : Logged sh (.read g k target.length) (.read g k target) [target]
  | write {g k src} : Logged sh (.write g k src) (.write g k src) []
  | alloc {n} : Logged sh (.alloc n) (.alloc sh.count n) []
  | free {g} : Logged sh (.free g) (.free g) []

/-- The plain memory holds the segments of the program. -/
def Holds (sh : Shape) (m : Memory W) : Prop :=
  ∀ g, sh.Held g → ∃ b, m g = some b ∧ b.size = sh.size g ∧ b.freed = false

theorem Shape.held_alloc {sh : Shape} {n : ℕ} {g : SegId}
    (h : (sh.after (.alloc n : Call W)).Held g) (hg : g ≠ sh.count) :
    sh.Held g ∧ (sh.after (.alloc n : Call W)).size g = sh.size g := by
  obtain ⟨hlt, hf⟩ := h
  have hle : g ≤ sh.count := Nat.lt_succ_iff.mp hlt
  exact ⟨⟨Nat.lt_of_le_of_ne hle hg, hf⟩, Function.update_of_ne hg _ _⟩

theorem Shape.held_free {sh : Shape} {g x : SegId} (h : (sh.after (.free g : Call W)).Held x) :
    sh.Held x ∧ x ≠ g := by
  obtain ⟨hlt, hf⟩ := h
  have hf' : x ∉ insert g sh.freed := hf
  rw [Finset.mem_insert, not_or] at hf'
  exact ⟨⟨hlt, hf'.2⟩, hf'.1⟩

variable [DecidableEq W] [Zero W]

theorem Holds.exec {sh : Shape} {m m' : Memory W} {c : Call W} {e : Entry W}
    {out : List (List W)} (h : Holds sh m) (hl : Logged sh c e out)
    (hx : PlainMemory.exec m e = some m') : Holds (sh.after c) m' := by
  cases hl with
  | read =>
    obtain ⟨x, y, hm, hr, rfl⟩ := modify_eq_some.mp hx
    cases read_words x y hr
    rw [← hm, Function.update_eq_self]
    exact h
  | @write g k src =>
    obtain ⟨x, y, hm, hw, rfl⟩ := modify_eq_some.mp hx
    obtain ⟨rfl, -⟩ := write_words x y hw
    intro x' hx'
    obtain ⟨b, hb, hs, hf⟩ := h x' hx'
    by_cases hg : x' = g
    · subst x'
      rw [hm] at hb
      cases hb
      exact ⟨x.store k src, by simp, hs, hf⟩
    · exact ⟨b, by rw [Function.update_of_ne hg, hb], hs, hf⟩
  | @alloc n =>
    obtain ⟨-, rfl⟩ := create_eq_some.mp hx
    intro x hx'
    by_cases hg : x = sh.count
    · subst x
      refine ⟨_, Function.update_self _ _ _, ?_, rfl⟩
      show n = Function.update sh.size sh.count n sh.count
      rw [Function.update_self]
    · obtain ⟨hheld, hsize⟩ := Shape.held_alloc hx' hg
      obtain ⟨b, hb, hs, hf⟩ := h x hheld
      exact ⟨b, by rw [Function.update_of_ne hg, hb], hs.trans hsize.symm, hf⟩
  | @free g =>
    obtain ⟨x, y, hm, hw, rfl⟩ := modify_eq_some.mp hx
    intro x' hx'
    obtain ⟨hheld, hg⟩ := Shape.held_free hx'
    obtain ⟨b, hb, hs, hf⟩ := h x' hheld
    exact ⟨b, by rw [Function.update_of_ne hg, hb], hs, hf⟩

omit [DecidableEq W] [Zero W] in
theorem Holds.endEpoch {sh : Shape} {m : Memory W} (h : Holds sh m) {g : SegId}
    (hg : sh.Held g) : PlainMemory.endEpoch m g = m g := by
  obtain ⟨b, hb, -, hf⟩ := h g hg
  rw [PlainMemory.endEpoch, hb]
  simp [Option.filter, hf]

end SerialPrograms
