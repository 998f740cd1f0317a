import Mathlib.Data.Finset.Card
import Mathlib.Logic.Function.Basic
import Mathlib.Tactic.Common

/-! # Partial steps and the order in which they are taken

A step is a partial function on states. Two steps commute when from any state that allows
both, either may go first. A store of cells gives the instances, and a family of states
indexed by the set of agents that have run makes every order of the agents reach one
state. -/
namespace CommutingSteps

variable {σ ι κ β : Type*}

def Commutes (f g : σ → Option σ) : Prop :=
  ∀ m a b, f m = some a → g m = some b → ∃ c, g a = some c ∧ f b = some c

variable {f g : σ → Option σ}

theorem Commutes.symm (h : Commutes f g) : Commutes g f := by
  intro m a b hg hf
  obtain ⟨c, hc⟩ := h m b a hf hg
  exact ⟨c, hc.symm⟩

/-- A step that changes no state commutes with every step that keeps it possible. -/
theorem Commutes.of_idle (hf : ∀ m a, f m = some a → a = m)
    (hg : ∀ m b, g m = some b → (f m).isSome → f b = some b) : Commutes f g := by
  intro m a b ha hb
  cases hf m a ha
  exact ⟨b, hb, hg _ b hb (by rw [ha]; rfl)⟩

theorem Commutes.foldlM {step : σ → ι → Option σ} {l : List ι}
    (h : ∀ x ∈ l, Commutes f (step · x)) : Commutes f (l.foldlM step) := by
  induction l with
  | nil =>
    intro m a b hf hb
    cases hb
    exact ⟨a, rfl, hf⟩
  | cons x l ih =>
    intro m a b hf hb
    simp only [List.foldlM_cons] at hb ⊢
    obtain ⟨m', hx, hb⟩ := Option.bind_eq_some_iff.mp hb
    obtain ⟨a', ha', hf'⟩ := h x (by simp) m a m' hf hx
    obtain ⟨c, hc, hfc⟩ := ih (fun y hy => h y (by simp [hy])) m' a' b hf' hb
    exact ⟨c, Option.bind_eq_some_iff.mpr ⟨a', ha', hc⟩, hfc⟩

theorem foldlM_snoc (step : σ → ι → Option σ) (l : List ι) (x : ι) (m : σ) :
    (l ++ [x]).foldlM step m = (l.foldlM step m).bind (step · x) := by
  rw [List.foldlM_append]
  cases l.foldlM step m <;> simp

/-! ### Stores of cells -/

variable [DecidableEq κ]

/-- Act on one existing cell. -/
def modify (k : κ) (act : β → Option β) (m : κ → Option β) : Option (κ → Option β) :=
  ((m k).bind act).map fun b => Function.update m k (some b)

/-- Fill an empty cell. -/
def create (k : κ) (b : β) (m : κ → Option β) : Option (κ → Option β) :=
  if (m k).isNone then some (Function.update m k (some b)) else none

variable {k k' : κ} {act act' : β → Option β} {b b' : β} {m n : κ → Option β}

theorem modify_eq_some :
    modify k act m = some n ↔ ∃ x y, m k = some x ∧ act x = some y ∧
      n = Function.update m k (some y) := by
  simp only [modify, Option.map_eq_some_iff, Option.bind_eq_some_iff]
  constructor
  · rintro ⟨y, ⟨x, hx, hy⟩, rfl⟩
    exact ⟨x, y, hx, hy, rfl⟩
  · rintro ⟨x, y, hx, hy, rfl⟩
    exact ⟨y, ⟨x, hx, hy⟩, rfl⟩

theorem modify_idle {x : β} (hm : m k = some x) (hx : act x = some x) : modify k act m = some m :=
  modify_eq_some.mpr ⟨x, x, hm, hx, by rw [← hm, Function.update_eq_self]⟩

theorem modify_bind (act act' : β → Option β) :
    (modify k act m).bind (modify k act') = modify k (fun b => (act b).bind act') m := by
  cases hm : m k with
  | none => simp [modify, hm]
  | some b =>
    cases ha : act b with
    | none => simp [modify, hm, ha]
    | some c => cases hb : act' c <;> simp [modify, hm, ha, hb]

theorem create_eq_some :
    create k b m = some n ↔ m k = none ∧ n = Function.update m k (some b) := by
  simp only [create, Option.isNone_iff_eq_none, Option.ite_none_right_eq_some,
    Option.some.injEq]
  exact and_congr_right fun _ => eq_comm

theorem modify_commutes_far (h : k ≠ k') : Commutes (modify k act) (modify k' act') := by
  intro m a b ha hb
  obtain ⟨x, y, hx, hy, rfl⟩ := modify_eq_some.mp ha
  obtain ⟨x', y', hx', hy', rfl⟩ := modify_eq_some.mp hb
  refine ⟨Function.update (Function.update m k (some y)) k' (some y'),
    modify_eq_some.mpr ⟨x', y', ?_, hy', rfl⟩, modify_eq_some.mpr ⟨x, y, ?_, hy, ?_⟩⟩
  · rw [Function.update_of_ne h.symm, hx']
  · rw [Function.update_of_ne h, hx]
  · exact Function.update_comm h _ _ _

theorem modify_commutes (h : Commutes act act') : Commutes (modify k act) (modify k act') := by
  intro m a b ha hb
  obtain ⟨x, y, hx, hy, rfl⟩ := modify_eq_some.mp ha
  obtain ⟨x', y', hx', hy', rfl⟩ := modify_eq_some.mp hb
  rw [hx] at hx'
  cases hx'
  obtain ⟨z, hz, hz'⟩ := h x y y' hy hy'
  refine ⟨Function.update m k (some z), modify_eq_some.mpr ⟨y, z, by simp, hz, by simp⟩,
    modify_eq_some.mpr ⟨y', z, by simp, hz', by simp⟩⟩

theorem create_commutes (h : k ≠ k') : Commutes (create k b) (create k' b') := by
  intro m a c ha hc
  obtain ⟨hx, rfl⟩ := create_eq_some.mp ha
  obtain ⟨hx', rfl⟩ := create_eq_some.mp hc
  refine ⟨Function.update (Function.update m k (some b)) k' (some b'),
    create_eq_some.mpr ⟨?_, rfl⟩, create_eq_some.mpr ⟨?_, ?_⟩⟩
  · rw [Function.update_of_ne h.symm, hx']
  · rw [Function.update_of_ne h, hx]
  · exact Function.update_comm h _ _ _

/-- No state allows to fill a cell and to act on it. -/
theorem create_commutes_modify : Commutes (create k b) (modify k' act) := by
  intro m a c ha hc
  obtain ⟨hx, rfl⟩ := create_eq_some.mp ha
  obtain ⟨x', y', hx', hy', rfl⟩ := modify_eq_some.mp hc
  have h : k ≠ k' := by
    rintro rfl
    rw [hx] at hx'
    cases hx'
  refine ⟨Function.update (Function.update m k (some b)) k' (some y'),
    modify_eq_some.mpr ⟨x', y', ?_, hy', rfl⟩, create_eq_some.mpr ⟨?_, ?_⟩⟩
  · rw [Function.update_of_ne h.symm, hx']
  · rw [Function.update_of_ne h, hx]
  · exact Function.update_comm h _ _ _

/-! ### Orders of the agents -/

variable [DecidableEq ι]

/-- `view U` is the state once the agents of `U` have run, in whatever order. -/
theorem foldlM_view {run : σ → ι → Option σ} {view : Finset ι → σ} {p : ι → Prop}
    (h : ∀ U u, (∀ v ∈ U, p v) → p u → u ∉ U → run (view U) u = some (view (insert u U)))
    {l : List ι} (hn : l.Nodup) (hl : ∀ u ∈ l, p u) {U : Finset ι} (hU : ∀ v ∈ U, p v)
    (hd : ∀ u ∈ l, u ∉ U) : l.foldlM run (view U) = some (view (U ∪ l.toFinset)) := by
  induction l generalizing U with
  | nil => simp
  | cons u l ih =>
    rw [List.nodup_cons] at hn
    rw [List.foldlM_cons, h U u hU (hl u (by simp)) (hd u (by simp))]
    show l.foldlM run (view (insert u U)) = _
    rw [ih hn.2 (fun v hv => hl v (by simp [hv])), List.toFinset_cons, Finset.insert_union,
      Finset.union_insert]
    · rw [Finset.forall_mem_insert]
      exact ⟨hl u (by simp), hU⟩
    · intro v hv
      rw [Finset.mem_insert, not_or]
      exact ⟨fun he => hn.1 (he ▸ hv), hd v (by simp [hv])⟩

end CommutingSteps
