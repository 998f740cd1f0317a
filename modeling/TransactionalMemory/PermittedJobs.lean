import TransactionalMemory.AtomicClosures

/-! # Permitted jobs

What a worker has done is what it was permitted to do, one job after the other, also where
a job was attempted more than once. -/
namespace PermittedJobs

open TransitionSystem
open Calls
open CallOutcomes
open AtomicHistories
open Closures
open ClosureRuns
open AtomicClosures

variable {ι W R C : Type*} [DecidableEq ι] {f : Closure W R C} {x x' : Session ι W R C}
variable {permit : ι → List (Job C × R) → Job C → Prop} {w : ι} {j : Job C} {tx : ControlWord.Tx}

/-- A worker with the results `l` was permitted what it is doing. -/
def Doing (f : Closure W R C) (permit : List (Job C × R) → Job C → Prop)
    (l : List (Job C × R)) : Thread C → Prop
  | .idle => True
  | .pending j => permit l j
  | .inside _ j c => permit l j ∧ ∃ es, Trace f j.start es c

structure Lawful (f : Closure W R C) (permit : ι → List (Job C × R) → Job C → Prop)
    (x : Session ι W R C) : Prop where
  results : ∀ w, Permitted (permit w) (x.results w)
  doing : ∀ w, Doing f (permit w) (x.results w) (x.thread w)

namespace Lawful

variable (h : Lawful f permit x)
include h

theorem put {tm : AtomicCalls.State W} {th : Thread C}
    (hth : Doing f (permit w) (x.results w) th) : Lawful f permit (x.put w tm th) where
  results := h.results
  doing v := by
    by_cases hv : v = w
    · subst v
      simpa [Session.put] using hth
    · simpa [Session.put, Function.update_of_ne hv] using h.doing v

theorem finish {tm : AtomicCalls.State W} {value : R} (hj : permit w (x.results w) j) :
    Lawful f permit (x.finish w tm j value) where
  results v := by
    by_cases hv : v = w
    · subst v
      simpa [Session.finish] using (h.results w).snoc (x := (j, value)) hj
    · simpa [Session.finish, Function.update_of_ne hv] using h.results v
  doing v := by
    by_cases hv : v = w
    · subst v
      simp [Session.finish, Session.put, Doing]
    · simpa [Session.finish, Session.put, Function.update_of_ne hv] using h.doing v

variable (hretry : ∀ w l j es c, permit w l j → Trace f j.start es c →
  permit w l { j with start := f.again c })
include hretry

theorem after {tm : AtomicCalls.State W} {ok : Bool} {c : C} (hw : x.thread w = .inside tx j c) :
    Lawful f permit (x.after f w ok tx j c tm) := by
  have hdoing := h.doing w
  rw [hw] at hdoing
  obtain ⟨hj, es, htrace⟩ := hdoing
  have again : Lawful f permit (x.put w tm (.pending { j with start := f.again c })) :=
    h.put (hretry w _ j es c hj htrace)
  have on : ∀ {e c'}, Makes f c e c' → Lawful f permit (x.put w tm (.inside tx j c')) :=
    fun hmakes => h.put ⟨hj, _, htrace.call hmakes⟩
  cases hc : f.call c with
  | read g k n next =>
    rcases hread : tmRead x.tm.region tx g k n with ⟨_ | target, r⟩
    · simpa only [Session.after, hc, answer, hread, Option.map_none] using again
    · simpa only [Session.after, hc, answer, hread, Option.map_some] using
        on (.read target hc (tmRead_length hread))
  | write g k src next =>
    rcases hwrite : tmWrite x.tm.region tx g k src with ⟨_ | _, r⟩
    · simpa [Session.after, hc, answer, hwrite] using again
    · simpa [Session.after, hc, answer, hwrite] using on (.write hc)
  | alloc n next =>
    cases ok with
    | true => simpa [Session.after, hc, answer] using on (.alloc x.tm.region.nextSeg hc)
    | false =>
      have nomem : Lawful f permit (x.put w tm (.inside tx j (next none))) :=
        h.put ⟨hj, es, htrace.nomem hc⟩
      simpa [Session.after, hc, answer] using nomem
  | free g next => simpa [Session.after, hc, answer] using on (.free hc)
  | ret value => simpa [Session.after, hc] using h.finish hj

theorem step [Zero W] {ev : Event ι C} (hc : Contract permit x ev)
    (ht : ClosureRuns.step f x ev = some x') : Lawful f permit x' := by
  cases ev with
  | submit w j =>
    simp only [ClosureRuns.step] at ht
    cases hw : x.thread w with
    | idle =>
      simp only [hw, Option.some.injEq] at ht
      subst x'
      exact h.put hc
    | _ => simp [hw] at ht
  | turn w ok =>
    simp only [ClosureRuns.step] at ht
    have hdoing := h.doing w
    cases hw : x.thread w with
    | idle => simp [hw] at ht
    | pending j =>
      simp only [hw] at ht hdoing
      obtain ⟨t, -, rfl⟩ := Option.map_eq_some_iff.mp ht
      exact h.put ⟨hdoing, [], .nil⟩
    | inside tx j c =>
      simp only [hw] at ht
      obtain ⟨t, -, rfl⟩ := Option.map_eq_some_iff.mp ht
      exact h.after hretry hw

end Lawful

theorem reachable_lawful [Zero W] {tm : AtomicCalls.State W}
    (hretry : ∀ w l j es c, permit w l j → Trace f j.start es c →
      permit w l { j with start := f.again c })
    (h : Reachable (ClosureRuns.system ι f tm) (Contract permit) x) : Lawful f permit x := by
  refine h.invariant (I := Lawful f permit) ?_ fun x ev x' hx hc ht => hx.step hretry hc ht
  rintro x rfl
  exact ⟨fun _ => permitted_nil, fun _ => trivial⟩

end PermittedJobs
