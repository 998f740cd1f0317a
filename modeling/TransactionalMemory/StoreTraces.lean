import Mathlib.Data.List.Basic

/-! # Stores in program order

A sequence of stores to a memory of any kind, each of which may fault. An unlocked reader may
find the memory as it is before the first store, between any two, or after the last. -/
namespace StoreTraces

variable {σ α ε : Type}

def run (store : σ → α → Except ε σ) : σ → List α → Except ε σ
  | s, [] => .ok s
  | s, a :: l => do run store (← store s a) l

/-- All the states that a run goes through, its first and its last included. -/
def states (store : σ → α → Except ε σ) : σ → List α → List σ
  | s, [] => [s]
  | s, a :: l => s :: match store s a with
    | .ok t => states store t l
    | .error _ => []

variable {store : σ → α → Except ε σ} {s t u x : σ} {a : α} {l l₁ l₂ : List α}

theorem run_singleton : run store s [a] = store s a := by
  cases h : store s a <;> simp only [run, h] <;> rfl

theorem run_cons (h : store s a = .ok t) : run store s (a :: l) = run store t l := by
  rw [run, h]
  rfl

theorem run_append : run store s (l₁ ++ l₂) = (run store s l₁).bind (run store · l₂) := by
  induction l₁ generalizing s with
  | nil => rfl
  | cons a l ih =>
    rw [List.cons_append]
    cases h : store s a with
    | ok t => rw [run_cons h, run_cons h, ih]
    | error e => simp only [run, h]; rfl

theorem run_append_ok (h : run store s l₁ = .ok t) :
    run store s (l₁ ++ l₂) = run store t l₂ := by
  rw [run_append, h]
  rfl

theorem states_head : s ∈ states store s l := by
  cases l <;> simp [states]

theorem mem_states_append (h : run store s l₁ = .ok t) :
    x ∈ states store s (l₁ ++ l₂) ↔ x ∈ states store s l₁ ∨ x ∈ states store t l₂ := by
  induction l₁ generalizing s with
  | nil =>
    cases h
    simp only [List.nil_append, states, List.mem_singleton]
    exact ⟨.inr, fun hx => hx.elim (fun he => he ▸ states_head) id⟩
  | cons a l ih =>
    rw [List.cons_append]
    cases ha : store s a with
    | ok u =>
      rw [run_cons ha] at h
      simp only [states, ha, List.mem_cons, ih h, or_assoc]
    | error e => simp [run, ha, bind, Except.bind] at h

theorem run_mem (h : run store s l = .ok t) : t ∈ states store s l := by
  rw [← List.append_nil l]
  exact (mem_states_append h).mpr (.inr states_head)

/-- The last store leads to the result. -/
theorem mem_states_concat (h : run store s (l ++ [a]) = .ok u)
    (hx : x ∈ states store s (l ++ [a])) : x ∈ states store s l ∨ x = u := by
  cases hl : run store s l with
  | error e =>
    rw [run_append, hl] at h
    cases h
  | ok t =>
    have ha : store t a = .ok u := calc
      store t a = run store t [a] := run_singleton.symm
      _ = run store s (l ++ [a]) := (run_append_ok hl).symm
      _ = .ok u := h
    rcases (mem_states_append hl).mp hx with hx | hx
    · exact .inl hx
    · simp only [states, ha, List.mem_cons, List.not_mem_nil, or_false] at hx
      rcases hx with rfl | rfl
      · exact .inl (run_mem hl)
      · exact .inr rfl

/-- What every store of a run preserves holds in every state of it. -/
theorem states_invariant {P : σ → Prop} (h : P s)
    (step : ∀ a ∈ l, ∀ s t, P s → store s a = .ok t → P t) : ∀ x ∈ states store s l, P x := by
  induction l generalizing s with
  | nil => simpa [states] using h
  | cons a l ih =>
    intro x hx
    rw [states, List.mem_cons] at hx
    rcases hx with rfl | hx
    · exact h
    · cases ha : store s a with
      | ok t =>
        rw [ha] at hx
        exact ih (step a (List.mem_cons_self ..) s t h ha)
          (fun b hb => step b (List.mem_cons_of_mem a hb)) x hx
      | error e => simp [ha] at hx

end StoreTraces
