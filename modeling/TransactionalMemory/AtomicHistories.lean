import Mathlib.Data.List.Basic
import Mathlib.Data.List.Induction

/-! # Atomic histories

A sequence of jobs, each with the worker that did it and its result, and the states of an
abstract machine on which every job is done at once. -/
namespace AtomicHistories

variable {A J R ι : Type*} {next : A → J → R → A → Prop} {a b a' : A}
variable {hist h₁ h₂ : List (ι × J × R)}

/-- The jobs of a history, one after the other. -/
inductive Ran (next : A → J → R → A → Prop) (a : A) : List (ι × J × R) → A → Prop where
  | nil : Ran next a [] a
  | snoc {hist b x a'} : Ran next a hist b → next b x.2.1 x.2.2 a' → Ran next a (hist ++ [x]) a'

theorem ran_nil (h : Ran next a ([] : List (ι × J × R)) b) : b = a := by
  generalize hl : ([] : List (ι × J × R)) = l at h
  cases h with
  | nil => rfl
  | snoc => simp at hl

theorem Ran.append (h : Ran next a h₁ b) (h' : Ran next b h₂ a') :
    Ran next a (h₁ ++ h₂) a' := by
  induction h' with
  | nil => rwa [List.append_nil]
  | snoc _ hn ih =>
    rw [← List.append_assoc]
    exact ih.snoc hn

/-- Jobs that leave the state as it is, in any number. -/
theorem Ran.idle (h : ∀ x ∈ hist, next a x.2.1 x.2.2 a) : Ran next a hist a := by
  induction hist using List.reverseRecOn with
  | nil => exact .nil
  | append_singleton l x ih =>
    exact .snoc (ih fun y hy => h y (by simp [hy])) (h x (by simp))

/-- What every job keeps, a history keeps. -/
theorem Ran.stable {P : A → Prop} (h : Ran next a hist b)
    (hP : ∀ a j r a', P a → next a j r a' → P a') (ha : P a) : P b := by
  induction h with
  | nil => exact ha
  | snoc _ hn ih => exact hP _ _ _ _ ih hn

theorem Ran.mem (h : Ran next a hist b) {z : ι × J × R} (hz : z ∈ hist) :
    ∃ c d, next c z.2.1 z.2.2 d := by
  induction h with
  | nil => simp at hz
  | snoc _ hn ih =>
    rcases List.mem_append.mp hz with hz | hz
    · exact ih hz
    · cases List.mem_singleton.mp hz
      exact ⟨_, _, hn⟩

/-- Each job is one that was permitted after those before it. -/
def Permitted (permit : List (J × R) → J → Prop) (l : List (J × R)) : Prop :=
  ∀ l₁ z l₂, l = l₁ ++ z :: l₂ → permit l₁ z.1

theorem permitted_nil {permit : List (J × R) → J → Prop} : Permitted permit [] := by
  intro l₁ z l₂ h
  simp at h

theorem Permitted.snoc {permit : List (J × R) → J → Prop} {l : List (J × R)} {x : J × R}
    (h : Permitted permit l) (hx : permit l x.1) : Permitted permit (l ++ [x]) := by
  intro l₁ z l₂ heq
  rcases List.eq_nil_or_concat' l₂ with rfl | ⟨q, y, rfl⟩
  · obtain ⟨rfl, hz⟩ := List.append_inj' heq rfl
    cases hz
    exact hx
  · rw [← List.cons_append, ← List.append_assoc] at heq
    exact h l₁ z q (List.append_inj' heq rfl).1

variable [DecidableEq ι]

/-- What one worker did, with what results. -/
def ofWorker (w : ι) (hist : List (ι × J × R)) : List (J × R) :=
  hist.filterMap fun x => if x.1 = w then some x.2 else none

@[simp] theorem ofWorker_nil (w : ι) : ofWorker w ([] : List (ι × J × R)) = [] := rfl

@[simp] theorem ofWorker_append (w : ι) (h₁ h₂ : List (ι × J × R)) :
    ofWorker w (h₁ ++ h₂) = ofWorker w h₁ ++ ofWorker w h₂ := List.filterMap_append

theorem ofWorker_cons (w v : ι) (x : J × R) (hist : List (ι × J × R)) :
    ofWorker w ((v, x) :: hist) = if v = w then x :: ofWorker w hist else ofWorker w hist := by
  by_cases h : v = w <;> simp [ofWorker, h]

theorem ofWorker_absent {w : ι} (h : ∀ x ∈ hist, x.1 ≠ w) :
    ofWorker w hist = [] := by
  rw [ofWorker, List.filterMap_eq_nil_iff]
  exact fun x hx => if_neg (h x hx)

theorem mem_ofWorker {w : ι} {z : J × R} : z ∈ ofWorker w hist ↔ (w, z) ∈ hist := by
  rw [ofWorker, List.mem_filterMap]
  constructor
  · rintro ⟨⟨v, y⟩, hy, hz⟩
    rw [Option.ite_none_right_eq_some, Option.some.injEq] at hz
    obtain ⟨rfl, rfl⟩ := hz
    exact hy
  · exact fun h => ⟨(w, z), h, by simp⟩

/-- In a history of permitted jobs, a job was permitted by what its worker had done. -/
theorem permitted_of {permit : ι → List (J × R) → J → Prop} {z : ι × J × R}
    (h : ∀ w, Permitted (permit w) (ofWorker w (h₁ ++ z :: h₂))) :
    permit z.1 (ofWorker z.1 h₁) z.2.1 := by
  refine h z.1 _ z.2 (ofWorker z.1 h₂) ?_
  obtain ⟨w, x⟩ := z
  rw [ofWorker_append, ofWorker_cons, if_pos rfl]

theorem Permitted.of_append {permit : List (J × R) → J → Prop} {l l' : List (J × R)}
    (h : Permitted permit (l ++ l')) : Permitted permit l := by
  intro l₁ z l₂ heq
  exact h l₁ z (l₂ ++ l') (by rw [heq, List.append_assoc, List.cons_append])

/-- Induction over a history in which each worker does only what it is permitted. -/
theorem Ran.lawful {permit : ι → List (J × R) → J → Prop} {Q : List (ι × J × R) → A → Prop}
    (h : Ran next a hist b) (hp : ∀ w, Permitted (permit w) (ofWorker w hist)) (nil : Q [] a)
    (snoc : ∀ hist b z a', Q hist b → permit z.1 (ofWorker z.1 hist) z.2.1 →
      next b z.2.1 z.2.2 a' → Q (hist ++ [z]) a') : Q hist b := by
  induction h with
  | nil => exact nil
  | @snoc hist b z a' _ hn ih =>
    refine snoc hist b z a' (ih fun w => ?_) (permitted_of hp) hn
    exact (ofWorker_append w hist [z] ▸ hp w).of_append

end AtomicHistories
