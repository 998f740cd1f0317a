import TransactionalMemory.Closures

/-! # Code of closures

Closures as trees of calls on single words. A loop of the source is a leaf that names the
next round; the captured variables are set where the source assigns to them. The rules for
`Runs` execute code symbolically on plain memory. -/
namespace ClosureCode

open RegionState
open Calls
open CallLog
open PlainMemory
open Closures

variable {W R K L κ : Type*}

inductive Code (W R K L : Type*) where
  | read (g : SegId) (k : ℕ) (next : W → Code W R K L)
  | write (g : SegId) (k : ℕ) (v : W) (next : Code W R K L)
  | alloc (size : ℕ) (next : Option SegId → Code W R K L)
  | free (g : SegId) (next : Code W R K L)
  | capture (captured : K) (next : Code W R K L)
  | goto (round : L)
  | ret (value : R)

/-- The rounds of the loops, where a closure starts, and what it returns if a round begins
with something that is no call. -/
structure Source (W R K L : Type*) where
  body : L → Code W R K L
  start : K → L
  stuck : R

/-- A closure between two of its calls. -/
structure Frame (W R K L : Type*) where
  captured : K
  code : Code W R K L

variable (S : Source W R K L)

/-- Goes on up to the next call. -/
def Source.enter (S : Source W R K L) (captured : K) : Code W R K L → Frame W R K L
  | .capture captured next => enter S captured next
  | .goto round => ⟨captured, S.body round⟩
  | code => ⟨captured, code⟩

def Source.call [Zero W] (c : Frame W R K L) : Call W R (Frame W R K L) :=
  match c.code with
  | .read g k next => .read g k 1 fun target => S.enter c.captured (next (target.headD 0))
  | .write g k v next => .write g k [v] (S.enter c.captured next)
  | .alloc size next => .alloc size fun g => S.enter c.captured (next g)
  | .free g next => .free g (S.enter c.captured next)
  | .capture .. | .goto _ => .ret S.stuck
  | .ret value => .ret value

def Source.begin (captured : K) : Frame W R K L := S.enter captured (.goto (S.start captured))

def Source.closure [Zero W] : Closure W R (Frame W R K L) :=
  ⟨S.call, fun c => S.begin c.captured⟩

/-- A round that begins with a call, or returns. -/
def Code.Proper : Code W R K L → Prop
  | .capture .. | .goto _ => False
  | _ => True

variable {S} {isRo : Bool} {Q : R → Memory W → Prop} {captured : K} {m : Memory W} {b : Block W}
variable {g : SegId} {k : ℕ}

def Runs [Zero W] (S : Source W R K L) (isRo : Bool) (Q : R → Memory W → Prop) (captured : K)
    (code : Code W R K L) (m : Memory W) : Prop :=
  Ensures S.closure isRo Q (S.enter captured code) m

theorem store_word (b : Block W) (k : ℕ) (v : W) :
    b.store k [v] = { b with word := Function.update b.word k v } := by
  simp only [Block.store, Block.mk.injEq, true_and, and_true]
  funext i
  by_cases hi : i = k
  · subst i
    simp [inRange]
  · have hout : inRange k 1 i = false := by
      rw [Bool.eq_false_iff, Ne, inRange_iff]
      omega
    simp [hout, hi]

namespace Runs

variable [Zero W]

theorem read {next : W → Code W R K L} (hm : m g = some b) (hk : k < b.size)
    (h : Runs S isRo Q captured (next (b.word k)) m) :
    Runs S isRo Q captured (.read g k next) m := by
  refine Ensures.read rfl hm (Nat.succ_le_of_lt hk) ?_
  simpa [copyOut, Source.enter, Runs] using h

theorem write {v : W} {next : Code W R K L} (hro : isRo = false) (hm : m g = some b)
    (hk : k < b.size) (h : Runs S isRo Q captured next
      (Function.update m g (some { b with word := Function.update b.word k v }))) :
    Runs S isRo Q captured (.write g k v next) m := by
  refine Ensures.write rfl hro hm (Nat.succ_le_of_lt hk) ?_
  rw [store_word]
  exact h

theorem alloc {size : ℕ} {next : Option SegId → Code W R K L} (hro : isRo = false)
    (h : ∀ g, m g = none →
      Runs S isRo Q captured (next (some g)) (Function.update m g (some (.zero size))))
    (hnone : Runs S isRo Q captured (next none) m) :
    Runs S isRo Q captured (.alloc size next) m :=
  Ensures.alloc rfl hro h hnone

theorem free {next : Code W R K L} (hro : isRo = false) (hm : m g = some b)
    (h : Runs S isRo Q captured next (Function.update m g (some { b with freed := true }))) :
    Runs S isRo Q captured (.free g next) m :=
  Ensures.free rfl hro hm h

theorem ret {value : R} (h : Q value m) : Runs S isRo Q captured (.ret value) m :=
  Ensures.ret rfl h

theorem capture {x : K} {next : Code W R K L} (h : Runs S isRo Q x next m) :
    Runs S isRo Q captured (.capture x next) m := h

theorem goto {round : L} (hp : (S.body round).Proper)
    (h : Runs S isRo Q captured (S.body round) m) :
    Runs S isRo Q captured (.goto round) m := by
  have heq : S.enter captured (S.body round) = ⟨captured, S.body round⟩ := by
    cases hb : S.body round with
    | capture => simp [hb, Code.Proper] at hp
    | goto => simp [hb, Code.Proper] at hp
    | _ => rfl
  rw [Runs, heq] at h
  exact h

end Runs

/-! ### What a closure may capture -/

/-- The code only captures and goes to what is of one kind. -/
def Code.Stays (ofK : K → κ) (ofL : L → κ) (x : κ) : Code W R K L → Prop
  | .read _ _ next => ∀ w, (next w).Stays ofK ofL x
  | .write _ _ _ next => next.Stays ofK ofL x
  | .alloc _ next => ∀ g, (next g).Stays ofK ofL x
  | .free _ next => next.Stays ofK ofL x
  | .capture captured next => ofK captured = x ∧ next.Stays ofK ofL x
  | .goto round => ofL round = x
  | .ret _ => True

/-- Every round stays within its kind. -/
structure Sorted (S : Source W R K L) (ofK : K → κ) (ofL : L → κ) : Prop where
  body : ∀ l, (S.body l).Stays ofK ofL (ofL l)
  start : ∀ captured, ofL (S.start captured) = ofK captured

variable {ofK : K → κ} {ofL : L → κ} {x : κ} {c d : Frame W R K L} {es : List (Entry W)}

def Frame.Of (ofK : K → κ) (ofL : L → κ) (x : κ) (c : Frame W R K L) : Prop :=
  ofK c.captured = x ∧ c.code.Stays ofK ofL x

theorem Sorted.enter (h : Sorted S ofK ofL) {code : Code W R K L} (hK : ofK captured = x)
    (hcode : code.Stays ofK ofL x) : (S.enter captured code).Of ofK ofL x := by
  induction code generalizing captured with
  | capture y next ih => exact ih hcode.1 hcode.2
  | goto round =>
    have hround : ofL round = x := hcode
    exact ⟨hK, hround ▸ h.body round⟩
  | _ => exact ⟨hK, hcode⟩

variable [Zero W]

theorem Sorted.makes (h : Sorted S ofK ofL) {e : Entry W} (hc : c.Of ofK ofL x)
    (he : Makes S.closure c e d) : d.Of ofK ofL x := by
  obtain ⟨captured, code⟩ := c
  obtain ⟨hK, hcode⟩ := hc
  cases he with
  | read target heq _ =>
    cases code <;> simp only [Source.closure, Source.call, reduceCtorEq] at heq
    cases heq
    exact h.enter hK (hcode _)
  | write heq =>
    cases code <;> simp only [Source.closure, Source.call, reduceCtorEq] at heq
    cases heq
    exact h.enter hK hcode
  | alloc g heq =>
    cases code <;> simp only [Source.closure, Source.call, reduceCtorEq] at heq
    cases heq
    exact h.enter hK (hcode _)
  | free heq =>
    cases code <;> simp only [Source.closure, Source.call, reduceCtorEq] at heq
    cases heq
    exact h.enter hK hcode

/-- An attempt never leaves the kind of the closure it started with. -/
theorem Sorted.trace (h : Sorted S ofK ofL) (hc : c.Of ofK ofL x)
    (ht : Trace S.closure c es d) : d.Of ofK ofL x := by
  induction ht with
  | nil => exact hc
  | call _ he ih => exact h.makes ih he
  | @nomem es c size next _ heq ih =>
    obtain ⟨captured, code⟩ := c
    obtain ⟨hK, hcode⟩ := ih
    cases code <;> simp only [Source.closure, Source.call, reduceCtorEq] at heq
    cases heq
    exact h.enter hK (hcode _)

omit [Zero W] in
theorem Sorted.begin (h : Sorted S ofK ofL) (captured : K) :
    (S.begin captured).Of ofK ofL (ofK captured) :=
  h.enter rfl (h.start captured)

end ClosureCode
