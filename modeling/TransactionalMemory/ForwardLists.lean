import Mathlib.Data.List.Nodup
import Mathlib.Logic.Function.Basic

/-! # Singly linked lists

A heap of cells, each of which may point to a next one. A chain is what a walk visits from an
address to the null pointer, as a list of addresses and cells. -/
namespace ForwardLists

variable {P C : Type*} (next : C → Option P)

/-- The cells `l` lie one after another from `p` to `q`. -/
def Path (m : P → Option C) : Option P → List (P × C) → Option P → Prop
  | p, [], q => p = q
  | p, x :: l, q => p = some x.1 ∧ m x.1 = some x.2 ∧ Path m (next x.2) l q

/-- A path to the null pointer that meets no cell twice. -/
structure Chain (m : P → Option C) (p : Option P) (l : List (P × C)) : Prop where
  path : Path next m p l none
  nodup : (l.map Prod.fst).Nodup

variable {next} {m t : P → Option C} {p q : Option P} {l l₁ l₂ : List (P × C)} {a b : P}
variable {c d e : C}

theorem path_append :
    Path next m p (l₁ ++ l₂) q ↔ ∃ r, Path next m p l₁ r ∧ Path next m r l₂ q := by
  induction l₁ generalizing p with
  | nil => simp [Path]
  | cons x l ih =>
    simp only [List.cons_append, Path, ih]
    constructor
    · rintro ⟨hp, hx, r, hl, hr⟩
      exact ⟨r, ⟨hp, hx, hl⟩, hr⟩
    · rintro ⟨r, ⟨hp, hx, hl⟩, hr⟩
      exact ⟨hp, hx, r, hl, hr⟩

theorem Path.cell (h : Path next m p l q) {x : P × C} (hx : x ∈ l) : m x.1 = some x.2 := by
  induction l generalizing p with
  | nil => cases hx
  | cons y l ih =>
    obtain ⟨-, hy, hl⟩ := h
    rcases List.mem_cons.mp hx with rfl | hx
    · exact hy
    · exact ih hl hx

/-- A path depends on its own cells. -/
theorem Path.frame (h : Path next m p l q) (hm : ∀ x ∈ l, t x.1 = m x.1) :
    Path next t p l q := by
  induction l generalizing p with
  | nil => exact h
  | cons y l ih =>
    obtain ⟨hp, hy, hl⟩ := h
    refine ⟨hp, (hm y (by simp)).trans hy, ih hl fun x hx => hm x (by simp [hx])⟩

theorem Path.last (h : Path next m p (l ++ [(a, c)]) q) : next c = q := by
  obtain ⟨r, -, -, -, hq⟩ := path_append.mp h
  exact hq

theorem Path.link (h : Path next m p (l ++ [(a, c)] ++ [(b, d)]) q) : next c = some b := by
  obtain ⟨r, hl, hr, -⟩ := path_append.mp h
  exact hl.last.trans hr

variable [DecidableEq P]

namespace Chain

/-- A store that keeps the pointer to the next cell. -/
theorem store (h : Chain next m p (l₁ ++ (a, c) :: l₂)) (he : next e = next c) :
    Chain next (Function.update m a (some e)) p (l₁ ++ (a, e) :: l₂) := by
  have hnd := h.nodup
  rw [List.map_append, List.map_cons, List.nodup_append, List.nodup_cons] at hnd
  obtain ⟨r, h₁, hr, -, h₂⟩ := path_append.mp h.path
  refine ⟨path_append.mpr ⟨r, h₁.frame fun x hx => ?_, hr, by simp, ?_⟩, ?_⟩
  · have hne : x.1 ≠ a := hnd.2.2 _ (List.mem_map_of_mem hx) _ (by simp)
    exact Function.update_of_ne hne _ _
  · rw [he]
    refine h₂.frame fun x hx => ?_
    have hne : x.1 ≠ a := by
      rintro rfl
      exact hnd.2.1.1 (List.mem_map.mpr ⟨x, hx, rfl⟩)
    exact Function.update_of_ne hne _ _
  · simpa using h.nodup

/-- A new cell behind the last one. -/
theorem extend (h : Chain next m p (l ++ [(a, c)])) (hb : b ∉ (l ++ [(a, c)]).map Prod.fst)
    (he : next e = some b) (hd : next d = none) :
    Chain next (Function.update (Function.update m a (some e)) b (some d)) p
      (l ++ [(a, e)] ++ [(b, d)]) := by
  rw [List.append_assoc, List.singleton_append]
  have hnd := h.nodup
  rw [List.map_append, List.nodup_append] at hnd
  rw [List.map_append, List.mem_append, not_or] at hb
  have hab : a ≠ b := fun hab => hb.2 (by simp [hab])
  obtain ⟨r, h₁, hr, -, -⟩ := path_append.mp h.path
  refine ⟨path_append.mpr ⟨r, h₁.frame fun x hx => ?_, hr, by simp [hab], he, by simp, hd⟩, ?_⟩
  · have hxa : x.1 ≠ a := hnd.2.2 _ (List.mem_map_of_mem hx) _ (by simp)
    have hxb : x.1 ≠ b := by
      rintro rfl
      exact hb.1 (List.mem_map_of_mem hx)
    rw [Function.update_of_ne hxb, Function.update_of_ne hxa]
  · rw [List.map_append, List.nodup_append]
    refine ⟨hnd.1, by simp [hab], fun x hx y hy => ?_⟩
    rw [List.map_cons, List.map_cons, List.map_nil, List.mem_cons, List.mem_singleton] at hy
    rcases hy with rfl | rfl
    · exact hnd.2.2 x hx _ (by simp)
    · exact fun hxy => hb.1 (hxy ▸ hx)

/-- The last cell goes. -/
theorem cut (h : Chain next m p (l ++ [(a, c)] ++ [(b, d)])) (he : next e = none) :
    Chain next (Function.update (Function.update m b none) a (some e)) p (l ++ [(a, e)]) := by
  rw [List.append_assoc, List.singleton_append] at h
  have hnd := h.nodup
  rw [List.map_append, List.nodup_append] at hnd
  obtain ⟨r, h₁, hr, -, -⟩ := path_append.mp h.path
  refine ⟨path_append.mpr ⟨r, h₁.frame fun x hx => ?_, hr, by simp, he⟩, ?_⟩
  · have hxa : x.1 ≠ a := hnd.2.2 _ (List.mem_map_of_mem hx) _ (by simp)
    have hxb : x.1 ≠ b := hnd.2.2 _ (List.mem_map_of_mem hx) _ (by simp)
    rw [Function.update_of_ne hxa, Function.update_of_ne hxb]
  · rw [List.map_append, List.nodup_append]
    refine ⟨hnd.1, by simp, fun x hx y hy => hnd.2.2 x hx y ?_⟩
    exact List.mem_cons.mpr (.inl (List.mem_singleton.mp hy))

end Chain

end ForwardLists
