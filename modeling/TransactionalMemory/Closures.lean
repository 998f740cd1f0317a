import TransactionalMemory.PlainMemory

/-! # Closures on plain memory

What `transactional` is given to run, as a machine: in each of its states it makes a call and
says where it goes on. A closure is run alone on plain memory to see what it does. -/
namespace Closures

open RegionState
open Calls
open CallLog
open CommutingSteps
open PlainMemory

variable {W R C : Type*}

/-- `none` is an allocation that found no memory. -/
inductive Call (W R C : Type*) where
  | read (g : SegId) (k n : ℕ) (next : List W → C)
  | write (g : SegId) (k : ℕ) (src : List W) (next : C)
  | alloc (size : ℕ) (next : Option SegId → C)
  | free (g : SegId) (next : C)
  | ret (value : R)

/-- `again` is where it starts when it is called once more after an abort: variables that it
has captured keep what the aborted call left in them. -/
structure Closure (W R C : Type*) where
  call : C → Call W R C
  again : C → C

/-- From the state `c` on, the closure only makes calls that plain memory allows, whatever
block an allocation returns, and it returns with `Q`. -/
inductive Ensures [Zero W] (f : Closure W R C) (isRo : Bool) (Q : R → Memory W → Prop) :
    C → Memory W → Prop where
  | read {c m g k n next b} : f.call c = .read g k n next → m g = some b → k + n ≤ b.size →
      Ensures f isRo Q (next (copyOut b.word k n)) m → Ensures f isRo Q c m
  | write {c m g k src next b} : f.call c = .write g k src next → isRo = false →
      m g = some b → k + src.length ≤ b.size →
      Ensures f isRo Q next (Function.update m g (some (b.store k src))) → Ensures f isRo Q c m
  | alloc {c m size next} : f.call c = .alloc size next → isRo = false →
      (∀ g, m g = none →
        Ensures f isRo Q (next (some g)) (Function.update m g (some (.zero size)))) →
      Ensures f isRo Q (next none) m → Ensures f isRo Q c m
  | free {c m g next b} : f.call c = .free g next → isRo = false → m g = some b →
      Ensures f isRo Q next (Function.update m g (some { b with freed := true })) →
      Ensures f isRo Q c m
  | ret {c m value} : f.call c = .ret value → Q value m → Ensures f isRo Q c m

/-- A call that succeeds, and its entry in the log. -/
inductive Makes (f : Closure W R C) (c : C) : Entry W → C → Prop where
  | read {g k n next} (target : List W) : f.call c = .read g k n next → target.length = n →
      Makes f c (.read g k target) (next target)
  | write {g k src next} : f.call c = .write g k src next → Makes f c (.write g k src) next
  | alloc {size next} (g : SegId) : f.call c = .alloc size next →
      Makes f c (.alloc g size) (next (some g))
  | free {g next} : f.call c = .free g next → Makes f c (.free g) next

/-- The calls of an attempt, from its start to where it is now. -/
inductive Trace (f : Closure W R C) (start : C) : List (Entry W) → C → Prop where
  | nil : Trace f start [] start
  | call {es c e d} : Trace f start es c → Makes f c e d → Trace f start (es ++ [e]) d
  | nomem {es c size next} : Trace f start es c → f.call c = .alloc size next →
      Trace f start es (next none)

variable {f : Closure W R C} {isRo : Bool} {Q Q' : R → Memory W → Prop} {c c' d : C}
variable {m m' : Memory W} {es : List (Entry W)} {e : Entry W}

theorem Ensures.mono [Zero W] (h : Ensures f isRo Q c m) (hQ : ∀ r m, Q r m → Q' r m) :
    Ensures f isRo Q' c m := by
  induction h with
  | read hc hm hk _ ih => exact .read hc hm hk ih
  | write hc hro hm hk _ ih => exact .write hc hro hm hk ih
  | alloc hc hro _ _ ih ihnone => exact .alloc hc hro ih ihnone
  | free hc hro hm _ ih => exact .free hc hro hm ih
  | ret hc hq => exact .ret hc (hQ _ _ hq)

theorem Ensures.nomem [Zero W] {size : ℕ} {next : Option SegId → C} (h : Ensures f isRo Q c m)
    (hc : f.call c = .alloc size next) : Ensures f isRo Q (next none) m := by
  cases h with
  | alloc hc' _ _ h =>
    rw [hc] at hc'
    cases hc'
    exact h
  | _ hc' => cases hc.symm.trans hc'

theorem Ensures.result [Zero W] {value : R} (h : Ensures f isRo Q c m) (hc : f.call c = .ret value) :
    Q value m := by
  cases h with
  | ret hc' hq =>
    rw [hc] at hc'
    cases hc'
    exact hq
  | _ hc' => cases hc.symm.trans hc'

variable [DecidableEq W] [Zero W]

theorem Ensures.makes (h : Ensures f isRo Q c m) (hc : Makes f c e c')
    (he : exec m e = some m') : Ensures f isRo Q c' m' := by
  cases hc with
  | read target hc hn =>
    obtain ⟨b, b', hb, hr, rfl⟩ := modify_eq_some.mp he
    cases read_words b b' hr
    rw [← hb, Function.update_eq_self]
    simp only [Block.read, Option.ite_none_right_eq_some] at hr
    cases h with
    | read hc' hb' _ h =>
      rw [hc] at hc'
      cases hc'
      rw [hb] at hb'
      cases hb'
      rwa [← hn, hr.1.2] at h
    | _ hc' => cases hc.symm.trans hc'
  | write hc =>
    obtain ⟨b, b', hb, hw, rfl⟩ := modify_eq_some.mp he
    obtain ⟨rfl, -⟩ := write_words b b' hw
    cases h with
    | write hc' _ hb' _ h =>
      rw [hc] at hc'
      cases hc'
      rw [hb] at hb'
      cases hb'
      exact h
    | _ hc' => cases hc.symm.trans hc'
  | alloc g hc =>
    obtain ⟨hg, rfl⟩ := create_eq_some.mp he
    cases h with
    | alloc hc' _ h _ =>
      rw [hc] at hc'
      cases hc'
      exact h g hg
    | _ hc' => cases hc.symm.trans hc'
  | free hc =>
    obtain ⟨b, b', hb, hw, rfl⟩ := modify_eq_some.mp he
    cases hw
    cases h with
    | free hc' _ hb' h =>
      rw [hc] at hc'
      cases hc'
      rw [hb] at hb'
      cases hb'
      exact h
    | _ hc' => cases hc.symm.trans hc'

/-- What holds of a closure run alone holds of an attempt whose calls ran on that memory. -/
theorem Ensures.trace (h : Ensures f isRo Q c m) (ht : Trace f c es d)
    (he : es.foldlM exec m = some m') : Ensures f isRo Q d m' := by
  induction ht generalizing m' with
  | nil =>
    cases he
    exact h
  | call _ hc ih =>
    rw [foldlM_snoc] at he
    obtain ⟨m₁, hm, he⟩ := Option.bind_eq_some_iff.mp he
    exact (ih hm).makes hc he
  | nomem _ hc ih => exact (ih he).nomem hc

end Closures
