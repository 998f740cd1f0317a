import Mathlib.Tactic.Common

/-! # Answering in lockstep

A machine takes requests one at a time and answers each, or gets stuck. Two machines that
keep a relation between their states, and what is still to be asked, give the same
answers. -/
namespace Lockstep

variable {σ τ ι α β : Type*}

/-- The answers to a list of requests; `none` if the machine gets stuck. -/
def answers (f : σ → α → Option (List β × σ)) : σ → List α → Option (List β × σ)
  | s, [] => some ([], s)
  | s, a :: l => (f s a).bind fun x => (answers f x.2 l).map fun y => (x.1 ++ y.1, y.2)

def Keeps (f : σ → α → Option (List β × σ)) (g : τ → α → Option (List β × τ))
    (R : List α → σ → τ → Prop) : Prop :=
  ∀ a l s t, R (a :: l) s t →
    ∃ out s' t', f s a = some (out, s') ∧ g t a = some (out, t') ∧ R l s' t'

theorem Keeps.answers {f : σ → α → Option (List β × σ)} {g : τ → α → Option (List β × τ)}
    {R : List α → σ → τ → Prop} (h : Keeps f g R) {l : List α} {s : σ} {t : τ}
    (hr : R l s t) : ∃ out s' t', Lockstep.answers f s l = some (out, s') ∧
      Lockstep.answers g t l = some (out, t') ∧ R [] s' t' := by
  induction l generalizing s t with
  | nil => exact ⟨[], s, t, rfl, rfl, hr⟩
  | cons a l ih =>
    obtain ⟨out, s₁, t₁, hf, hg, hr⟩ := h a l s t hr
    obtain ⟨outs, s', t', hf', hg', hr'⟩ := ih hr
    refine ⟨out ++ outs, s', t', ?_, ?_, hr'⟩
    · simp [Lockstep.answers, hf, hf']
    · simp [Lockstep.answers, hg, hg']

/-- The requests are permitted, each at the index that the ones before it lead to. -/
def Along (ok : ι → α → Prop) (next : ι → α → ι) : ι → List α → Prop
  | _, [] => True
  | i, a :: l => ok i a ∧ Along ok next (next i a) l

instance decidableAlong (ok : ι → α → Prop) (next : ι → α → ι) [∀ i a, Decidable (ok i a)] :
    ∀ i l, Decidable (Along ok next i l)
  | _, [] => isTrue trivial
  | i, a :: l =>
    have := decidableAlong ok next (next i a) l
    inferInstanceAs (Decidable (ok i a ∧ Along ok next (next i a) l))

end Lockstep
