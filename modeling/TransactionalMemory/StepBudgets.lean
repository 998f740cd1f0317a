import Mathlib.Data.List.Basic
import TransactionalMemory.TransitionSystem

/-! # Counting the steps of one process

A process is inside an operation and `spent` says how far it has come. Its own steps raise
`spent` and no other step lowers it, so a run that is still inside at its end holds no more
steps of the process than `spent` has risen by. -/
namespace StepBudgets

open TransitionSystem

variable {σ ε : Type*} {M : System σ ε} {P : σ → ε → Prop} {own : ε → Bool}
variable {known inside : σ → Prop} {spent : σ → ℕ}

/-- No step allowed by `P` enters the operation, and `known` holds all along. -/
structure Budget (M : System σ ε) (P : σ → ε → Prop) (own : ε → Bool) (known inside : σ → Prop)
    (spent : σ → ℕ) : Prop where
  keeps : ∀ {s e t}, known s → P s e → M.step s e = some t → known t
  stays : ∀ {s e t}, known s → P s e → M.step s e = some t → inside t → inside s
  spends : ∀ {s e t}, known s → P s e → M.step s e = some t → inside t → own e = true →
    spent s < spent t
  grows : ∀ {s e t}, known s → P s e → M.step s e = some t → inside t → spent s ≤ spent t

namespace Budget

variable {s t : σ} {es : List ε}

theorem known_after (h : Budget M P own known inside spent) (hs : known s)
    (hm : Meets M P s es) (hr : run M s es = some t) : known t := by
  induction es generalizing s with
  | nil =>
    cases hr
    exact hs
  | cons e es ih =>
    obtain ⟨u, hu, hr⟩ := Option.bind_eq_some_iff.mp hr
    exact ih (h.keeps hs hm.1 hu) (hm.2 u hu) hr

theorem inside_before (h : Budget M P own known inside spent) (hs : known s)
    (hm : Meets M P s es) (hr : run M s es = some t) (ht : inside t) : inside s := by
  induction es generalizing s with
  | nil =>
    cases hr
    exact ht
  | cons e es ih =>
    obtain ⟨u, hu, hr⟩ := Option.bind_eq_some_iff.mp hr
    exact h.stays hs hm.1 hu (ih (h.keeps hs hm.1 hu) (hm.2 u hu) hr)

theorem count_le (h : Budget M P own known inside spent) (hs : known s)
    (hm : Meets M P s es) (hr : run M s es = some t) (ht : inside t) :
    spent s + es.countP own ≤ spent t := by
  induction es generalizing s with
  | nil =>
    cases hr
    simp
  | cons e es ih =>
    obtain ⟨u, hu, hr⟩ := Option.bind_eq_some_iff.mp hr
    have ku := h.keeps hs hm.1 hu
    have iu := h.inside_before ku (hm.2 u hu) hr ht
    have rest := ih ku (hm.2 u hu) hr
    rw [List.countP_cons]
    split_ifs with ho
    · have := h.spends hs hm.1 hu iu ho
      omega
    · have := h.grows hs hm.1 hu iu
      omega

end Budget

end StepBudgets
