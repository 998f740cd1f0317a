import Mathlib.Data.List.Cycle

/-! # Circular doubly linked lists

Two pointer fields over any type of addresses. A list of distinct addresses is a ring when
both fields go round it, one against the other, wherever the round is started. -/
namespace CircularLists

variable {P : Type*}

/-- `none` stands for the null pointer, and for what is no cell of the heap. -/
structure Fields (P : Type*) where
  next : P → Option P
  prev : P → Option P

def Linked (f : Fields P) (a b : P) : Prop := f.next a = some b ∧ f.prev b = some a

structure Ring (f : Fields P) (l : List P) : Prop where
  nodup : l.Nodup
  chain : (l : Cycle P).Chain (Linked f)

theorem cycle_chain_iff {R : P → P → Prop} {l : List P} : (l : Cycle P).Chain R ↔
    l.IsChain R ∧ ∀ x ∈ l.getLast?, ∀ y ∈ l.head?, R x y := by
  cases l with
  | nil => simp
  | cons a l =>
    rw [Cycle.chain_coe_cons, ← List.cons_append, List.isChain_append]
    simp

theorem head_concat (l : List P) (p : P) : ∃ q, (l ++ [p]).head? = some q :=
  Option.isSome_iff_exists.mp (List.isSome_head?.mpr (List.concat_ne_nil p l))

theorem last_cons (p : P) (l : List P) : ∃ a, (p :: l).getLast? = some a :=
  Option.isSome_iff_exists.mp (List.getLast?_isSome.mpr (List.cons_ne_nil p l))

namespace Ring

variable {f g : Fields P} {l l₁ l₂ : List P} {p : P}

theorem nil : Ring f [] := ⟨List.nodup_nil, Cycle.Chain.nil _⟩

theorem singleton (hn : f.next p = some p) (hp : f.prev p = some p) : Ring f [p] :=
  ⟨List.nodup_singleton p, (Cycle.chain_singleton _ p).mpr ⟨hn, hp⟩⟩

theorem rotate (h : Ring f (l₁ ++ l₂)) : Ring f (l₂ ++ l₁) := by
  have hr : (l₁ ++ l₂) ~r (l₂ ++ l₁) := List.isRotated_append
  refine ⟨hr.nodup_iff.mp h.nodup, ?_⟩
  rw [← Cycle.coe_eq_coe.mpr hr]
  exact h.chain

/-- The rings of a heap depend on the fields of their own members. -/
theorem frame (h : Ring f l) (hn : ∀ x ∈ l, g.next x = f.next x)
    (hp : ∀ x ∈ l, g.prev x = f.prev x) : Ring g l := by
  obtain ⟨hc, hl⟩ := cycle_chain_iff.mp h.chain
  refine ⟨h.nodup, cycle_chain_iff.mpr ⟨?_, fun x hx y hy => ?_⟩⟩
  · refine hc.imp_of_mem_imp fun x y hx hy hxy => ⟨?_, ?_⟩
    · rw [hn x hx]
      exact hxy.1
    · rw [hp y hy]
      exact hxy.2
  · rw [Linked, hn x (List.mem_of_getLast? hx), hp y (List.mem_of_head? hy)]
    exact hl x hx y hy

/-- The neighbours of the first member. -/
theorem head (h : Ring f (p :: l)) :
    f.next p = (l ++ [p]).head? ∧ f.prev p = (p :: l).getLast? := by
  obtain ⟨hc, hl⟩ := cycle_chain_iff.mp h.chain
  constructor
  · cases l with
    | nil => exact (hl p (by simp) p (by simp)).1
    | cons c l => exact (List.isChain_cons_cons.mp hc).1.1
  · obtain ⟨a, ha⟩ := last_cons p l
    rw [ha]
    exact (hl a ha p (by simp)).2

/-- The last member is found from the first one. -/
theorem last (h : Ring f (p :: l)) :
    ∃ a ∈ p :: l, (p :: l).getLast? = some a ∧ f.prev p = some a := by
  obtain ⟨a, ha⟩ := last_cons p l
  exact ⟨a, List.mem_of_getLast? ha, ha, h.head.2.trans ha⟩

/-- The neighbours of any member. -/
theorem member (h : Ring f (l₁ ++ p :: l₂)) :
    f.next p = (l₂ ++ l₁ ++ [p]).head? ∧ f.prev p = (p :: (l₂ ++ l₁)).getLast? :=
  Ring.head (l := l₂ ++ l₁) h.rotate

/-- No pointer leads out of a ring. -/
theorem closed {q : P} (h : Ring f l) (hp : p ∈ l) (hq : f.next p = some q ∨ f.prev p = some q) :
    q ∈ l := by
  obtain ⟨l₁, l₂, rfl⟩ := List.append_of_mem hp
  obtain ⟨hn, hv⟩ := h.member
  rcases hq with hq | hq
  · have hin := List.mem_of_head? (hn ▸ hq)
    simp only [List.mem_append, List.mem_cons, List.not_mem_nil] at hin ⊢
    tauto
  · have hin := List.mem_of_getLast? (hv ▸ hq)
    simp only [List.mem_append, List.mem_cons] at hin ⊢
    tauto

theorem reach {q : P} (h : Ring f l) (hp : p ∈ l)
    (hq : Relation.ReflTransGen (fun a b => f.next a = some b ∨ f.prev a = some b) p q) :
    q ∈ l := by
  induction hq with
  | refl => exact hp
  | tail _ hab ih => exact h.closed ih hab

/-- Seen from the other side a ring is the ring of the reversed list. -/
theorem reverse (h : Ring f l) : Ring ⟨f.prev, f.next⟩ l.reverse := by
  obtain ⟨hc, hl⟩ := cycle_chain_iff.mp h.chain
  refine ⟨List.nodup_reverse.mpr h.nodup, cycle_chain_iff.mpr ⟨?_, fun x hx y hy => ?_⟩⟩
  · rw [List.isChain_reverse]
    exact hc.imp fun x y hxy => ⟨hxy.2, hxy.1⟩
  · rw [List.getLast?_reverse] at hx
    rw [List.head?_reverse] at hy
    exact (hl y hy x hx).symm

/-- The walk along `next` from the first member meets them all. -/
theorem forward (h : Ring f (p :: l)) {q : P} :
    Relation.ReflTransGen (fun a b => f.next a = some b) p q ↔ q ∈ p :: l := by
  constructor
  · intro hq
    exact h.reach (List.mem_cons_self ..) (Relation.ReflTransGen.mono (fun _ _ => .inl) _ _ hq)
  · intro hq
    obtain ⟨hc, -⟩ := cycle_chain_iff.mp h.chain
    clear h
    induction l generalizing p with
    | nil =>
      cases List.mem_singleton.mp hq
      exact .refl
    | cons a l ih =>
      obtain ⟨hpa, hrest⟩ := List.isChain_cons_cons.mp hc
      rcases List.mem_cons.mp hq with rfl | hq
      · exact .refl
      · exact .head hpa.1 (ih hq hrest)

/-- And so does the walk along `prev`. -/
theorem backward (h : Ring f (p :: l)) {q : P} :
    Relation.ReflTransGen (fun a b => f.prev a = some b) p q ↔ q ∈ p :: l := by
  have hr := h.reverse
  rw [List.reverse_cons] at hr
  rw [hr.rotate.forward]
  simp

end Ring

variable [DecidableEq P]

def Fields.setNext (f : Fields P) (a : P) (v : Option P) : Fields P :=
  { f with next := Function.update f.next a v }
def Fields.setPrev (f : Fields P) (a : P) (v : Option P) : Fields P :=
  { f with prev := Function.update f.prev a v }

/-- The two stores that take `p` out between its neighbours. -/
def Fields.unlink (f : Fields P) (a c : P) : Fields P :=
  (f.setNext a (some c)).setPrev c (some a)

/-- The four stores that put `p` between `a` and `b`. -/
def Fields.splice (f : Fields P) (a p b : P) : Fields P :=
  (((f.setPrev p (some a)).setNext p (some b)).setPrev b (some p)).setNext a (some p)

namespace Ring

variable {f g : Fields P} {l : List P} {a b c p : P}

/-- Taking out the first member leaves the ring of the others. -/
theorem unlink (h : Ring f (p :: l)) (hl : l ≠ []) (hc : f.next p = some c)
    (ha : f.prev p = some a) : Ring (f.unlink a c) l := by
  obtain ⟨hchain, hlast⟩ := cycle_chain_iff.mp h.chain
  obtain ⟨hp, hnd⟩ := List.nodup_cons.mp h.nodup
  obtain ⟨x, t, rfl⟩ := List.exists_cons_of_ne_nil hl
  have hx : c = x := by simpa [hc] using h.head.1
  subst x
  have hal : (c :: t).getLast? = some a := by simpa [ha] using h.head.2.symm
  have hap : f.next a = some p := (hlast a (by simpa using hal) p (by simp)).1
  refine ⟨hnd, cycle_chain_iff.mpr ⟨?_, fun y hy z hz => ?_⟩⟩
  · refine (List.isChain_cons_cons.mp hchain).2.imp_of_mem_tail_imp fun y z hy hz hyz => ?_
    -- only the last member leads to `p`, only the first is led to by it
    have hza : z ≠ c := fun he => (List.nodup_cons.mp hnd).1 (he ▸ hz)
    have hya : y ≠ a := by
      rintro rfl
      rw [hyz.1, Option.some.injEq] at hap
      exact hp (hap ▸ List.mem_of_mem_tail hz)
    exact ⟨by simpa [Fields.unlink, Fields.setNext, Fields.setPrev, hya] using hyz.1,
      by simpa [Fields.unlink, Fields.setNext, Fields.setPrev, hza] using hyz.2⟩
  · rw [Option.mem_def, hal, Option.some.injEq] at hy
    rw [Option.mem_def, List.head?_cons, Option.some.injEq] at hz
    subst y z
    simp [Linked, Fields.unlink, Fields.setNext, Fields.setPrev]

/-- A new cell before the first member is the new last one. -/
theorem splice (h : Ring f (b :: l)) (hp : p ∉ b :: l) (ha : f.prev b = some a) :
    Ring (f.splice a p b) (b :: l ++ [p]) := by
  obtain ⟨hchain, hlast⟩ := cycle_chain_iff.mp h.chain
  have hal : (b :: l).getLast? = some a := h.head.2.symm.trans ha
  have hab : f.next a = some b := (hlast a hal b (by simp)).1
  have hma : a ∈ b :: l := List.mem_of_getLast? hal
  have hpa : a ≠ p := fun he => hp (he ▸ hma)
  have hpb : b ≠ p := fun he => hp (by simp [he])
  refine ⟨?_, cycle_chain_iff.mpr ⟨List.isChain_append.mpr ⟨?_, List.isChain_singleton p, ?_⟩, ?_⟩⟩
  · rw [List.nodup_append]
    exact ⟨h.nodup, List.nodup_singleton p, fun x hx y hy he => hp (by simp_all)⟩
  · refine hchain.imp_of_mem_tail_imp fun y z hy hz hyz => ?_
    have hzb : z ≠ b := fun he => (List.nodup_cons.mp h.nodup).1 (he ▸ hz)
    have hzp : z ≠ p := fun he => hp (he ▸ List.mem_of_mem_tail hz)
    have hyp : y ≠ p := fun he => hp (he ▸ hy)
    have hya : y ≠ a := by
      rintro rfl
      rw [hyz.1, Option.some.injEq] at hab
      exact hzb hab
    exact ⟨by simpa [Fields.splice, Fields.setNext, Fields.setPrev, hya, hyp] using hyz.1,
      by simpa [Fields.splice, Fields.setNext, Fields.setPrev, hzb, hzp] using hyz.2⟩
  · intro x hx y hy
    rw [Option.mem_def, hal, Option.some.injEq] at hx
    rw [Option.mem_def, List.head?_cons, Option.some.injEq] at hy
    subst x y
    simp [Linked, Fields.splice, Fields.setNext, Fields.setPrev, hpb.symm]
  · intro x hx y hy
    rw [Option.mem_def, List.getLast?_concat, Option.some.injEq] at hx
    rw [Option.mem_def, List.cons_append, List.head?_cons, Option.some.injEq] at hy
    subst x y
    simp [Linked, Fields.splice, Fields.setNext, Fields.setPrev, hpa.symm]

end Ring

end CircularLists
