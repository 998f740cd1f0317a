import Mathlib.Data.Fintype.Card

/-! # Counting the positions of threads

How many members of a finite family have a property, and what becomes of the number when
one member changes. A number that misses only one member decides about all the others. -/
namespace Tally

variable {ι α : Type*} [Fintype ι] (p : α → Prop) [DecidablePred p]

def tally (f : ι → α) : ℕ := (Finset.univ.filter fun i => p (f i)).card

variable {p} {f : ι → α} {i : ι} {a : α}

theorem tally_le : tally p f ≤ Fintype.card ι := Finset.card_le_univ _

theorem tally_eq_zero (h : ∀ i, ¬ p (f i)) : tally p f = 0 := by
  rw [tally, Finset.card_eq_zero, Finset.filter_eq_empty_iff]
  intro i _
  exact h i

theorem tally_eq_card (h : ∀ i, p (f i)) : tally p f = Fintype.card ι := by
  rw [tally, Finset.filter_true_of_mem fun i _ => h i, Finset.card_univ]

/-- Only member `i` is in. -/
theorem others_out (hi : p (f i)) (h : tally p f = 1) {j : ι} (hj : j ≠ i) : ¬ p (f j) := by
  intro hin
  obtain ⟨x, hx⟩ := Finset.card_eq_one.mp h
  have one : ∀ y, p (f y) → y = x := by
    intro y hy
    have : y ∈ Finset.univ.filter fun i => p (f i) := by simpa using hy
    rwa [hx, Finset.mem_singleton] at this
  exact hj ((one j hin).trans (one i hi).symm)

/-- Only member `i` is out. -/
theorem others_in (hi : ¬ p (f i)) (h : tally p f + 1 = Fintype.card ι) {j : ι} (hj : j ≠ i) :
    p (f j) := by
  have hsplit : tally p f + tally (fun a => ¬ p a) f = Fintype.card ι :=
    Finset.card_filter_add_card_filter_not fun i => p (f i)
  have hone : tally (fun a => ¬ p a) f = 1 := by omega
  exact not_not.mp (others_out (p := fun a => ¬ p a) hi hone hj)

/-- One member is at `a`, all the others are at `b`. -/
structure Solo (f : ι → α) (i : ι) (a b : α) : Prop where
  at_member : f i = a
  at_others : ∀ j ≠ i, f j = b

omit [Fintype ι] in
theorem Solo.value {b : α} (h : Solo f i a b) (j : ι) : f j = b ∨ j = i ∧ f j = a := by
  by_cases hj : j = i
  · subst j
    exact .inr ⟨rfl, h.at_member⟩
  · exact .inl (h.at_others j hj)

variable [DecidableEq ι]

omit [Fintype ι] in
theorem Solo.update {b : α} (h : ∀ j ≠ i, f j = b) (a : α) :
    Solo (Function.update f i a) i a b := by
  constructor
  · exact Function.update_self _ _ _
  · intro j hj
    rw [Function.update_of_ne hj]
    exact h j hj

theorem tally_join (hi : ¬ p (f i)) (ha : p a) :
    tally p (Function.update f i a) = tally p f + 1 := by
  have hset : (Finset.univ.filter fun j => p (Function.update f i a j)) =
      insert i (Finset.univ.filter fun j => p (f j)) := by
    ext j
    by_cases hj : j = i
    · subst j
      simp [ha]
    · simp [hj]
  rw [tally, hset, Finset.card_insert_of_notMem (by simpa using hi), tally]

theorem tally_leave (hi : p (f i)) (ha : ¬ p a) :
    tally p (Function.update f i a) + 1 = tally p f := by
  have hback := tally_join (f := Function.update f i a) (i := i) (a := f i) (by simpa using ha) hi
  rwa [Function.update_idem, Function.update_eq_self, eq_comm] at hback

theorem tally_stay (h : p a ↔ p (f i)) : tally p (Function.update f i a) = tally p f := by
  have hset : ∀ j, p (Function.update f i a j) ↔ p (f j) := by
    intro j
    by_cases hj : j = i
    · subst j
      simpa using h
    · simp [hj]
  simp only [tally, hset]

end Tally
