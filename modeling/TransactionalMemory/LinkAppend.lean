import TransactionalMemory.ListRefinement

/-! # Appending a list to a list

`link_append` makes three of the four stores that join two rings. The one it leaves out is the
`prev` pointer of the base, where `_link_insert` looks for the last link. -/
namespace LinkAppend

open CircularLists
open LinkHeap
open ListRefinement

variable {W : Type}

/-- One ring from the base pointer on, the same in both directions, and `_link_insert` goes on
at its end. -/
structure Concatenated (m : Heap W) (b : Base) (l : List LinkId) : Prop where
  base : m.base b = l.head?
  ring : Ring m.fields l
  both : ∀ p ∈ m.base b, ∀ q, Relation.ReflTransGen (fun x y => m.fields.next x = some y) p q ↔
    Relation.ReflTransGen (fun x y => m.fields.prev x = some y) p q
  insertion : ∀ p, p ∉ l → (m.link p).isSome → ∃ t, insertLink m b p = .ok t ∧
    t.base b = l.head? ∧ Ring t.fields (l ++ [p])

variable {m : Heap W} {b : Base} {l l₁ l₂ : List LinkId} {link base a c p : LinkId}

theorem linked_of_next (h : m.fields.next a = some c) : (m.link a).isSome := by
  obtain ⟨n, hn, -⟩ := Option.bind_eq_some_iff.mp h
  rw [hn]
  rfl

theorem linked_of_ring (h : Ring m.fields l) (hp : p ∈ l) : (m.link p).isSome := by
  obtain ⟨l₁, l₂, rfl⟩ := List.append_of_mem hp
  obtain ⟨c, hc⟩ := head_concat (l₂ ++ l₁) p
  exact linked_of_next (h.member.1.trans hc)

/-- `_link_insert` of a link that is not on the list. -/
theorem insertLink_ring (hb : m.base b = some base) (h : Ring m.fields (base :: l))
    (hp : p ∉ base :: l) (hs : (m.link p).isSome) : ∃ t, insertLink m b p = .ok t ∧
      t.base b = some base ∧ Ring t.fields (base :: l ++ [p]) := by
  obtain ⟨a, ha, -, hprev⟩ := h.last
  have has := linked_of_ring h ha
  have hbs := linked_of_ring h (List.mem_cons_self ..)
  refine ⟨m.splice a p base, insertLink_splice hb hprev has hs, ?_, ?_⟩
  · simp [Heap.splice, hb]
  · rw [fields_splice hs has hbs]
    exact h.splice hp hprev

theorem Concatenated.of_ring (hb : m.base b = some base) (h : Ring m.fields (base :: l)) :
    Concatenated m b (base :: l) where
  base := hb
  ring := h
  both p hp q := by
    rw [hb] at hp
    cases hp
    rw [h.forward, h.backward]
  insertion p hp hs := insertLink_ring hb h hp hs

/-- The three stores of `link_append`. -/
theorem linkAppend_eq (hb : m.base b = some base) (ha : m.fields.prev base = some a)
    (hc : m.fields.prev link = some c) (has : (m.link a).isSome) (hcs : (m.link c).isSome) :
    linkAppend m b link =
      .ok (((m.putNext a (some link)).putPrev link (some a)).putNext c (some base)) := by
  obtain ⟨n, hn, hnp⟩ := Option.bind_eq_some_iff.mp ha
  obtain ⟨k, hk, hkp⟩ := Option.bind_eq_some_iff.mp hc
  have hls : (m.link link).isSome := by rw [hk]; rfl
  simp only [linkAppend, hb, hn, hnp, hk, hkp, deref_some, ok_bind, Heap.setNext_eq has]
  rw [Heap.setPrev_eq (by simpa using hls), ok_bind, Heap.setNext_eq (by simpa using hcs)]

/-- What `link_append` leaves of the fields when neither list is empty. -/
theorem linkAppend_fields (hb : m.base b = some base) (h₁ : Ring m.fields (base :: l₁))
    (h₂ : Ring m.fields (link :: l₂)) : ∃ a c t, (base :: l₁).getLast? = some a ∧
      (link :: l₂).getLast? = some c ∧ m.fields.prev base = some a ∧
      linkAppend m b link = .ok t ∧ t.base b = some base ∧
      t.fields = ((m.fields.setNext a (some link)).setPrev link (some a)).setNext c (some base) ∧
      ∀ p, (t.link p).isSome = (m.link p).isSome := by
  obtain ⟨a, ha, hal, hap⟩ := h₁.last
  obtain ⟨c, hc, hcl, hcp⟩ := h₂.last
  have has := linked_of_ring h₁ ha
  have hcs := linked_of_ring h₂ hc
  have hls := linked_of_ring h₂ (List.mem_cons_self ..)
  refine ⟨a, c, _, hal, hcl, hap, linkAppend_eq hb hap hcp has hcs, ?_, ?_, ?_⟩
  · simp [hb]
  · rw [Heap.fields_putNext (by simpa using hcs), Heap.fields_putPrev (by simpa using hls),
      Heap.fields_putNext has]
  · simp

/-- `link_append` joins the lists exactly when the one it appends to is empty. -/
theorem link_append_concatenates (hb : m.base b = l₁.head?) (h₁ : Ring m.fields l₁)
    (h₂ : Ring m.fields l₂) (hl : l₂.head? = some link) (hd : List.Disjoint l₁ l₂) :
    (∃ t, linkAppend m b link = .ok t ∧ Concatenated t b (l₁ ++ l₂)) ↔ l₁ = [] := by
  obtain ⟨l, rfl⟩ : ∃ l, l₂ = link :: l := List.head?_eq_some_iff.mp hl
  constructor
  · rintro ⟨t, ht, hcat⟩
    cases l₁ with
    | nil => rfl
    | cons base l' =>
      obtain ⟨a, c, u, ha, hc, hap, hu, -, hf, -⟩ := linkAppend_fields hb h₁ h₂
      rw [hu, Except.ok.injEq] at ht
      subst u
      have hne : base ≠ link := fun he => hd (List.mem_cons_self ..) (by simp [he])
      -- the base still points back to the end of its own list
      have hprev : t.fields.prev base = some a := by
        rw [hf]
        simpa [Fields.setNext, Fields.setPrev, hne] using hap
      have hlast : t.fields.prev base = (base :: l' ++ link :: l).getLast? := hcat.ring.head.2
      rw [List.getLast?_append, hc, Option.some_or, hprev] at hlast
      have hac : a = c := Option.some.inj hlast
      exact (hd (List.mem_of_getLast? ha) (hac ▸ List.mem_of_getLast? hc)).elim
  · rintro rfl
    refine ⟨m.setBase b (some link), ?_, ?_⟩
    · rw [linkAppend, show m.base b = none from hb]
      rfl
    · exact .of_ring (by simp) (by simpa using h₂)

/-- Three links in one list; no base points to it. -/
def threeLinks : Heap ℕ :=
  { seg := fun _ => none
    link := fun p => if p < 3 then some ⟨p, some ((p + 2) % 3), some ((p + 1) % 3)⟩ else none
    segLinks := none, dirtySegLinks := none, freedSegs := [], freedLinks := [] }

theorem threeLinks_ring : Ring threeLinks.fields [1, 2, 0] := by
  refine ⟨by decide, ?_⟩
  rw [Cycle.chain_coe_cons]
  simp [Linked, Heap.fields, threeLinks]

theorem link_append_concatenates_null : ∃ t,
    linkAppend threeLinks .segLinks 1 = .ok t ∧
      Concatenated t .segLinks ([] ++ [1, 2, 0]) :=
  (link_append_concatenates rfl Ring.nil threeLinks_ring rfl (by simp)).mpr rfl

/-- Two links, each a list by itself; the base points to the first. -/
def apart : Heap ℕ :=
  { seg := fun _ => none
    link := fun p => if p < 2 then some ⟨p, some p, some p⟩ else none
    segLinks := some 0, dirtySegLinks := none, freedSegs := [], freedLinks := [] }

theorem base_not_relinked : ¬ ∃ t, linkAppend apart .segLinks 1 = .ok t ∧
    Concatenated t .segLinks ([0] ++ [1]) := by
  rintro ⟨t, ht, h⟩
  have hprev : (linkAppend apart .segLinks 1).toOption.map (fun t => t.fields.prev 0) =
      some (some 0) := by decide
  have hlast : t.fields.prev 0 = some 1 := h.ring.head.2
  rw [ht] at hprev
  simp [Except.toOption, hlast] at hprev

/-- The next insertion after a `link_append` to a list that is not empty loses the links that
were appended. -/
theorem insertion_drops (hb : m.base b = some base) (h₁ : Ring m.fields (base :: l₁))
    (h₂ : Ring m.fields (link :: l₂)) (hd : List.Disjoint (base :: l₁) (link :: l₂))
    (hp : p ∉ base :: l₁) (hp' : p ∉ link :: l₂) (hs : (m.link p).isSome) :
    ∃ t u, linkAppend m b link = .ok t ∧ insertLink t b p = .ok u ∧ u.base b = some base ∧
      Ring u.fields (base :: l₁ ++ [p]) := by
  obtain ⟨a, c, t, ha, hc, hap, ht, htb, hf, hsome⟩ := linkAppend_fields hb h₁ h₂
  have hbs := linked_of_ring h₁ (List.mem_cons_self ..)
  have has := linked_of_ring h₁ (List.mem_of_getLast? ha)
  have hne : base ≠ link := fun he => hd (List.mem_cons_self ..) (by simp [he])
  have hprev : t.fields.prev base = some a := by
    rw [hf]
    simpa [Fields.setNext, Fields.setPrev, hne] using hap
  refine ⟨t, t.splice a p base, ht,
    insertLink_splice htb hprev (by rwa [hsome]) (by rwa [hsome]), ?_, ?_⟩
  · simp [Heap.splice, htb]
  · rw [fields_splice (by rwa [hsome]) (by rwa [hsome]) (by rwa [hsome]), hf]
    have away : ∀ x ∈ base :: l₁ ++ [p], x ∉ link :: l₂ := by
      intro x hx
      rcases List.mem_append.mp hx with hx | hx
      · exact fun hin => hd hx hin
      · rwa [List.mem_singleton.mp hx]
    refine (h₁.splice hp hap).frame (fun x hx => ?_) (fun x hx => ?_)
    · have hxc : x ≠ c := fun he => away x hx (he ▸ List.mem_of_getLast? hc)
      by_cases hxa : x = a <;>
        simp [Fields.splice, Fields.setNext, Fields.setPrev, Function.update_apply, hxc, hxa]
    · have hxl : x ≠ link := fun he => away x hx (by simp [he])
      by_cases hxb : x = base <;>
        simp [Fields.splice, Fields.setNext, Fields.setPrev, Function.update_apply, hxl, hxb]

end LinkAppend
