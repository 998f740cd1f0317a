import Mathlib.Data.Set.Basic

/-! # Guarded transition systems

A system is an initial predicate and an executable, partial step function. Runs are
filtered by a contract on (state, event) pairs: what the environment promises is kept
apart from what the program does. -/
namespace TransitionSystem

structure System (σ ε : Type*) where
  init : σ → Prop
  step : σ → ε → Option σ

variable {σ ε : Type*} {M : System σ ε} {P Q : σ → ε → Prop}

/-- States of the runs in which every step meets the contract `P`. -/
inductive Reachable (M : System σ ε) (P : σ → ε → Prop) : σ → Prop where
  | init {s} : M.init s → Reachable M P s
  | step {s e t} : Reachable M P s → P s e → M.step s e = some t → Reachable M P t

/-- The contract that promises nothing. -/
def Unrestricted (_ : σ) (_ : ε) : Prop := True

instance (s : σ) (e : ε) : Decidable (Unrestricted s e) := inferInstanceAs (Decidable True)

theorem Reachable.invariant {I : σ → Prop} (start : ∀ s, M.init s → I s)
    (step : ∀ s e t, I s → P s e → M.step s e = some t → I t) {s : σ}
    (h : Reachable M P s) : I s := by
  induction h with
  | init hs => exact start _ hs
  | step _ hp ht ih => exact step _ _ _ ih hp ht

/-- A second invariant may use a first one, already known of every reachable state. -/
theorem Reachable.invariant_under {I J : σ → Prop} (known : ∀ s, Reachable M P s → I s)
    (start : ∀ s, M.init s → J s)
    (step : ∀ s e t, I s → J s → P s e → M.step s e = some t → J t) {s : σ}
    (h : Reachable M P s) : J s := by
  induction h with
  | init hs => exact start _ hs
  | step hr hp ht ih => exact step _ _ _ (known _ hr) ih hp ht

theorem Reachable.mono (h : Reachable M P s) (weaken : ∀ s e, P s e → Q s e) :
    Reachable M Q s := by
  induction h with
  | init hs => exact .init hs
  | step _ hp ht ih => exact .step ih (weaken _ _ hp) ht

/-- A run of a system whose steps are steps of another one, seen through `f`. -/
theorem Reachable.project {τ α : Type*} {N : System τ α} {R : τ → α → Prop} (f : σ → τ)
    (start : ∀ s, M.init s → N.init (f s))
    (step : ∀ s e t, P s e → M.step s e = some t → ∃ a, R (f s) a ∧ N.step (f s) a = some (f t))
    {s : σ} (h : Reachable M P s) : Reachable N R (f s) := by
  induction h with
  | init hs => exact .init (start _ hs)
  | step _ hp ht ih =>
    obtain ⟨a, ha, hstep⟩ := step _ _ _ hp ht
    exact .step ih ha hstep

def run (M : System σ ε) (s : σ) : List ε → Option σ
  | [] => some s
  | e :: es => (M.step s e).bind fun t => run M t es

/-- The contract along the run of a list of events. -/
def Meets (M : System σ ε) (P : σ → ε → Prop) (s : σ) : List ε → Prop
  | [] => True
  | e :: es => P s e ∧ ∀ t, M.step s e = some t → Meets M P t es

instance decidableMeets (M : System σ ε) (P : σ → ε → Prop) [∀ s e, Decidable (P s e)] :
    ∀ (s : σ) (es : List ε), Decidable (Meets M P s es)
  | _, [] => isTrue trivial
  | s, e :: es =>
    match h : M.step s e with
    | none => decidable_of_iff (P s e) (by simp [Meets, h])
    | some t =>
      have := decidableMeets M P t es
      decidable_of_iff (P s e ∧ Meets M P t es) (by simp [Meets, h])

theorem Reachable.next {s t : σ} (h : Reachable M P s) (e : ε) (ht : M.step s e = some t)
    (hp : P s e) : Reachable M P t := .step h hp ht

theorem Reachable.run {s t : σ} (h : Reachable M P s) (es : List ε) (hm : Meets M P s es)
    (hr : run M s es = some t) : Reachable M P t := by
  induction es generalizing s with
  | nil => cases hr; exact h
  | cons e es ih =>
    obtain ⟨u, hu, hr⟩ := Option.bind_eq_some_iff.mp hr
    exact ih (.step h hm.1 hu) (hm.2 u hu) hr

end TransitionSystem
