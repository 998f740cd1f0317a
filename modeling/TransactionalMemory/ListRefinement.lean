import TransactionalMemory.LinkHeap

/-! # The lists refine sequences

Two rings of links on the heap stand for two sequences of segments. The operations of
`link.c` append to a sequence, erase from it, or move a segment to the end of the other. -/
namespace ListRefinement

open CircularLists
open RegionState (SegId Segment)
open LinkHeap

variable {W : Type}

abbrev Lists := Base → List SegId

/-- The segments `L b` have links `node`, which form the ring at the base pointer `b`. -/
structure Represents (m : Heap W) (node : SegId → LinkId) (L : Lists) : Prop where
  nodup : ∀ b, (L b).Nodup
  apart : ∀ b c g, g ∈ L b → g ∈ L c → b = c
  base : ∀ b, m.base b = ((L b).map node).head?
  ring : ∀ b, Ring m.fields ((L b).map node)
  attached : ∀ b, ∀ g ∈ L b, (m.seg g).bind Block.link = some (node g)
  back : ∀ b, ∀ g ∈ L b, (m.link (node g)).map Link.seg = some g

def Lists.append (L : Lists) (b : Base) (g : SegId) : Lists := Function.update L b (L b ++ [g])
def Lists.erase (L : Lists) (b : Base) (g : SegId) : Lists :=
  Function.update L b ((L b).erase g)

theorem Lists.erase_sublist {L : Lists} {b c : Base} {g : SegId} :
    ((L.erase b g) c).Sublist (L c) := by
  by_cases hc : c = b
  · subst c
    rw [Lists.erase, Function.update_self]
    exact List.erase_sublist
  · rw [Lists.erase, Function.update_of_ne hc]

theorem map_node {node : SegId → LinkId} {g : SegId} {p : LinkId} {l : List SegId}
    (hg : g ∉ l) : l.map (Function.update node g p) = l.map node := by
  refine List.map_congr_left fun x hx => Function.update_of_ne ?_ _ _
  rintro rfl
  exact hg hx

section Stores

variable {m : Heap W} {p q a c base : LinkId} {b : Base}

theorem fields_splice (hp : (m.link p).isSome) (ha : (m.link a).isSome)
    (hb : (m.link base).isSome) : (m.splice a p base).fields = m.fields.splice a p base := by
  rw [Heap.splice, Heap.fields_putNext (by simpa using ha), Heap.fields_putPrev (by simpa using hb),
    Heap.fields_putNext (by simpa using hp), Heap.fields_putPrev hp]
  rfl

theorem fields_alone (hp : (m.link p).isSome) :
    (m.alone b p).fields = (m.fields.setPrev p (some p)).setNext p (some p) := by
  rw [Heap.alone, Heap.fields_putNext (by simpa using hp), Heap.fields_putPrev (by simpa using hp),
    Heap.fields_setBase]

theorem fields_detach (ha : (m.link a).isSome) (hc : (m.link c).isSome) :
    (m.detach b a p c).fields = m.fields.unlink a c := by
  have stores : ((m.putNext a (some c)).putPrev c (some a)).fields = m.fields.unlink a c := by
    rw [Heap.fields_putPrev (by simpa using hc), Heap.fields_putNext ha]
    rfl
  unfold Heap.detach
  dsimp only
  split_ifs <;> simp [stores]

theorem base_detach : (m.detach b a p c).base b =
    if a = p then none else if m.base b = some p then some c else m.base b := by
  unfold Heap.detach
  dsimp only
  split_ifs <;> simp

theorem base_detach_other {d : Base} (hd : d ≠ b) : (m.detach b a p c).base d = m.base d := by
  unfold Heap.detach
  dsimp only
  split_ifs <;> simp [Heap.base_setBase_other hd]

end Stores

namespace Represents

variable {m t : Heap W} {node : SegId → LinkId} {L : Lists} {b c : Base} {g x : SegId}
variable {p : LinkId} {s : Block W}

theorem base_nil (h : Represents m node L) (hL : L b = []) : m.base b = none := by
  rw [h.base b, hL]
  rfl

theorem base_cons (h : Represents m node L) {l : List SegId} (hL : L b = x :: l) :
    m.base b = some (node x) := by
  rw [h.base b, hL]
  rfl

theorem linked (h : Represents m node L) (hg : g ∈ L b) : (m.link (node g)).isSome := by
  have := congrArg Option.isSome (h.back b g hg)
  simpa using this

theorem node_inj (h : Represents m node L) (hg : g ∈ L b) (hx : x ∈ L c)
    (he : node g = node x) : g = x := by
  have hb := h.back b g hg
  rw [he, h.back c x hx] at hb
  exact (Option.some.inj hb).symm

/-- Other lists have other links. -/
theorem node_ne (h : Represents m node L) (hg : g ∈ L b) (hx : x ∈ L c) (hne : c ≠ b) :
    node x ≠ node g := by
  intro he
  have := h.node_inj hx hg he
  subst x
  exact hne (h.apart c b g hx hg)

theorem setSeg (h : Represents m node L) (hs : ∀ b, g ∈ L b → s.link = some (node g)) :
    Represents (m.setSeg g s) node L := by
  refine ⟨h.nodup, h.apart, fun b => ?_, h.ring, fun b x hx => ?_, h.back⟩
  · rw [← h.base b]
    cases b <;> rfl
  · by_cases hxg : x = g
    · subst x
      simpa [Heap.setSeg] using hs b hx
    · simpa [Heap.setSeg, hxg] using h.attached b x hx

/-- The base leads back to the last link. -/
theorem last (h : Represents m node L) {l : List SegId} (hL : L b = x :: l) :
    ∃ y ∈ L b, m.fields.prev (node x) = some (node y) := by
  have hring := h.ring b
  rw [hL, List.map_cons] at hring
  obtain ⟨a, hin, -, hprev⟩ := hring.last
  rw [← List.map_cons, ← hL] at hin
  obtain ⟨y, hy, rfl⟩ := List.mem_map.mp hin
  exact ⟨y, hy, hprev⟩

/-- What the appended lists need of a heap: the old ring at `b` with the link at its end. -/
theorem appended (h : Represents m node L) (hg : ∀ c, g ∉ L c) (hs : m.seg g = some s)
    (hl : s.link = some p) (hp : (m.link p).map Link.seg = some g) (ht : Relinked m t)
    (hbase : t.base b = ((L b).map node ++ [p]).head?)
    (hring : Ring t.fields ((L b).map node ++ [p]))
    (hother : ∀ c, c ≠ b → t.base c = m.base c ∧ Ring t.fields ((L c).map node)) :
    Represents t (Function.update node g p) (L.append b g) := by
  have same : ∀ c, c ≠ b → (L.append b g) c = L c := fun c hc => Function.update_of_ne hc _ _
  have here : (L.append b g) b = L b ++ [g] := Function.update_self _ _ _
  have member : ∀ c x, x ∈ (L.append b g) c → (x ≠ g ∧ x ∈ L c) ∨ (x = g ∧ c = b) := by
    intro c x hx
    by_cases hc : c = b
    · rw [hc, here, List.mem_append, List.mem_singleton] at hx
      rcases hx with hx | hx
      · exact .inl ⟨fun he => hg b (he ▸ hx), hc ▸ hx⟩
      · exact .inr ⟨hx, hc⟩
    · rw [same c hc] at hx
      exact .inl ⟨fun he => hg c (he ▸ hx), hx⟩
  have nodes : ((L.append b g) b).map (Function.update node g p) = (L b).map node ++ [p] := by
    rw [here, List.map_append, map_node (hg b)]
    simp
  refine ⟨fun c => ?_, fun c d x hx hy => ?_, fun c => ?_, fun c => ?_, fun c x hx => ?_,
    fun c x hx => ?_⟩
  · by_cases hc : c = b
    · rw [hc, here, List.nodup_append]
      refine ⟨h.nodup b, List.nodup_singleton g, fun y hy z hz he => hg b ?_⟩
      rw [List.mem_singleton] at hz
      rwa [← hz, ← he]
    · rw [same c hc]
      exact h.nodup c
  · rcases member c x hx with ⟨hne, hx⟩ | ⟨hxg, hc⟩ <;>
      rcases member d x hy with ⟨hne', hy⟩ | ⟨hyg, hd⟩
    · exact h.apart c d x hx hy
    · exact (hne hyg).elim
    · exact (hne' hxg).elim
    · exact hc.trans hd.symm
  · by_cases hc : c = b
    · rw [hc, hbase, nodes]
    · rw [(hother c hc).1, same c hc, map_node (hg c), h.base c]
  · by_cases hc : c = b
    · rw [hc, nodes]
      exact hring
    · rw [same c hc, map_node (hg c)]
      exact (hother c hc).2
  · rw [ht.seg]
    rcases member c x hx with ⟨hne, hx⟩ | ⟨rfl, -⟩
    · rw [Function.update_of_ne hne]
      exact h.attached c x hx
    · rw [Function.update_self, hs]
      exact hl
  · rw [ht.owner]
    rcases member c x hx with ⟨hne, hx⟩ | ⟨rfl, -⟩
    · rw [Function.update_of_ne hne]
      exact h.back c x hx
    · rw [Function.update_self]
      exact hp

/-- `_link_insert` of a link that is on no list. -/
theorem insert (h : Represents m node L) (hg : ∀ c, g ∉ L c) (hs : m.seg g = some s)
    (hl : s.link = some p) (hp : (m.link p).map Link.seg = some g) (b : Base) :
    ∃ t, insertLink m b p = .ok t ∧ Relinked m t ∧
      Represents t (Function.update node g p) (L.append b g) := by
  have away : ∀ c, ∀ x ∈ L c, node x ≠ p := by
    rintro c x hx rfl
    have hb := h.back c x hx
    rw [hp, Option.some.injEq] at hb
    exact hg c (hb ▸ hx)
  have hin : (m.link p).isSome := by simpa using congrArg Option.isSome hp
  cases hL : L b with
  | nil =>
    refine ⟨_, insertLink_null (h.base_nil hL) hin, Relinked.alone,
      h.appended hg hs hl hp Relinked.alone ?_ ?_ fun c hc => ⟨?_, ?_⟩⟩
    · simp [Heap.alone, hL]
    · rw [hL, fields_alone hin]
      exact Ring.singleton (by simp [Fields.setNext]) (by simp [Fields.setNext, Fields.setPrev])
    · simp [Heap.alone, Heap.base_setBase_other hc]
    · rw [fields_alone hin]
      refine (h.ring c).frame ?_ ?_ <;> intro y hy <;> obtain ⟨x, hx, rfl⟩ := List.mem_map.mp hy
      · simp [Fields.setNext, Fields.setPrev, away c x hx]
      · simp [Fields.setNext, Fields.setPrev, away c x hx]
  | cons x l =>
    have hx : x ∈ L b := by simp [hL]
    have hb := h.base_cons hL
    have hring := h.ring b
    rw [hL, List.map_cons] at hring
    obtain ⟨y, hy, hprev⟩ := h.last hL
    refine ⟨_, insertLink_splice hb hprev (h.linked hy) hin, Relinked.splice,
      h.appended hg hs hl hp Relinked.splice ?_ ?_ fun c hc => ⟨?_, ?_⟩⟩
    · simp [Heap.splice, hL, hb]
    · rw [hL, fields_splice hin (h.linked hy) (h.linked hx), List.map_cons]
      refine hring.splice ?_ hprev
      rw [← List.map_cons, ← hL]
      intro hp
      obtain ⟨z, hz, hzp⟩ := List.mem_map.mp hp
      exact away b z hz hzp
    · simp [Heap.splice]
    · rw [fields_splice hin (h.linked hy) (h.linked hx)]
      refine (h.ring c).frame ?_ ?_ <;> intro w hw <;> obtain ⟨z, hz, rfl⟩ := List.mem_map.mp hw
      · simp [Fields.splice, Fields.setNext, Fields.setPrev, away c z hz, h.node_ne hy hz hc]
      · simp [Fields.splice, Fields.setNext, Fields.setPrev, away c z hz, h.node_ne hx hz hc]

/-- The neighbours of a link in its ring. -/
theorem neighbours (h : Represents m node L) (l₁ : List SegId) {l₂ : List SegId}
    (hL : L b = l₁ ++ g :: l₂) :
    ∃ a ∈ L b, ∃ c ∈ L b, (g :: (l₂ ++ l₁)).getLast? = some a ∧ (l₂ ++ l₁ ++ [g]).head? = some c ∧
      m.fields.prev (node g) = some (node a) ∧ m.fields.next (node g) = some (node c) := by
  have hring := h.ring b
  rw [hL, List.map_append, List.map_cons] at hring
  obtain ⟨hnext, hprev⟩ := hring.member
  obtain ⟨a, ha⟩ := last_cons g (l₂ ++ l₁)
  obtain ⟨c, hc⟩ := head_concat (l₂ ++ l₁) g
  have hmem : ∀ y, y ∈ l₂ ++ l₁ ∨ y = g → y ∈ L b := by
    intro y hy
    rw [hL]
    simp only [List.mem_append, List.mem_cons] at hy ⊢
    tauto
  refine ⟨a, hmem a ?_, c, hmem c ?_, ha, ?_, ?_, ?_⟩
  · simpa [or_comm] using List.mem_of_getLast? ha
  · simpa [or_assoc] using List.mem_of_head? hc
  · exact hc
  · rw [hprev, ← List.map_append, ← List.map_cons, List.getLast?_map, ha]
    rfl
  · rw [hnext, ← List.map_append, ← List.map_singleton, ← List.map_append, List.head?_map, hc]
    rfl

theorem erase_member (h : Represents m node L) {l₁ l₂ : List SegId} (hL : L b = l₁ ++ g :: l₂) :
    g ∉ l₂ ++ l₁ ∧ (L.erase b g) b = l₁ ++ l₂ := by
  have hnd := h.nodup b
  rw [hL, List.nodup_append, List.nodup_cons] at hnd
  have hg₁ : g ∉ l₁ := fun hin => hnd.2.2 g hin g (by simp) rfl
  refine ⟨fun hin => (List.mem_append.mp hin).elim hnd.2.1.1 hg₁, ?_⟩
  rw [Lists.erase, Function.update_self, hL, List.erase_append_right _ hg₁, List.erase_cons_head]

/-- `link_remove` moves the base on when the link that goes is the first one. -/
theorem detach_base (h : Represents m node L) {l₁ l₂ : List SegId} {y : SegId}
    (hL : L b = l₁ ++ g :: l₂) (hx : x ∈ L b) (hlast : (g :: (l₂ ++ l₁)).getLast? = some x)
    (hhead : (l₂ ++ l₁ ++ [g]).head? = some y) :
    (m.detach b (node x) (node g) (node y)).base b = ((l₁ ++ l₂).map node).head? := by
  have hg : g ∈ L b := by simp [hL]
  obtain ⟨hout, -⟩ := h.erase_member hL
  rw [base_detach]
  by_cases hxg : x = g
  · have hnil : l₂ ++ l₁ = [] := by
      by_contra hne
      rw [List.getLast?_cons_of_ne_nil hne] at hlast
      exact hout (hxg ▸ List.mem_of_getLast? hlast)
    rw [List.append_eq_nil_iff] at hnil
    simp [hxg, hnil]
  · rw [if_neg fun he => hxg (h.node_inj hx hg he)]
    cases l₁ with
    | nil =>
      rw [if_pos (h.base_cons hL)]
      cases l₂ with
      | nil =>
        rw [List.nil_append, List.getLast?_singleton, Option.some.injEq] at hlast
        exact (hxg hlast.symm).elim
      | cons z l₂ =>
        have hzy : z = y := by simpa using hhead
        simp [hzy]
    | cons z l₁ =>
      have hz : z ∈ L b := by simp [hL]
      have hzg : z ≠ g := fun he => hout (by simp [he])
      rw [h.base_cons hL, if_neg fun he => hzg (h.node_inj hz hg (Option.some.inj he))]
      rfl

theorem detach_ring (h : Represents m node L) {l₁ l₂ : List SegId} {a c : LinkId}
    (hL : L b = l₁ ++ g :: l₂) (hprev : m.fields.prev (node g) = some a)
    (hnext : m.fields.next (node g) = some c) :
    Ring (m.fields.unlink a c) ((l₁ ++ l₂).map node) := by
  by_cases hnil : l₂ ++ l₁ = []
  · rw [List.append_eq_nil_iff] at hnil
    simpa [hnil] using Ring.nil
  · have hring := h.ring b
    rw [hL, List.map_append, List.map_cons] at hring
    rw [List.map_append]
    exact (hring.rotate.unlink (by simpa [and_comm] using hnil) hnext hprev).rotate

/-- The rings at the other bases have none of the links that `link_remove` stores into. -/
theorem detach_ring_other (h : Represents m node L) {y : SegId} (hx : x ∈ L b) (hy : y ∈ L b)
    (hc : c ≠ b) : Ring (m.fields.unlink (node x) (node y)) ((L c).map node) := by
  refine (h.ring c).frame ?_ ?_ <;> intro w hw <;> obtain ⟨z, hz, rfl⟩ := List.mem_map.mp hw
  · simp [Fields.unlink, Fields.setNext, Fields.setPrev, h.node_ne hx hz hc]
  · simp [Fields.unlink, Fields.setNext, Fields.setPrev, h.node_ne hy hz hc]

/-- `link_remove` of a member. -/
theorem remove (h : Represents m node L) (hg : g ∈ L b) :
    ∃ t, Relinked m t ∧ Represents t node (L.erase b g) ∧ ∀ discard,
      linkRemove m b (node g) discard = .ok (if discard then none else some (node g),
        if discard then t.dropLink (node g) else t) := by
  obtain ⟨l₁, l₂, hL⟩ := List.append_of_mem hg
  obtain ⟨a, ha, c, hc, hlast, hhead, hprev, hnext⟩ := h.neighbours l₁ hL
  obtain ⟨-, here⟩ := h.erase_member hL
  have same : ∀ d, d ≠ b → (L.erase b g) d = L d := fun d hd => Function.update_of_ne hd _ _
  have hfields := fields_detach (b := b) (p := node g) (h.linked ha) (h.linked hc)
  have hrel : Relinked m (m.detach b (node a) (node g) (node c)) := Relinked.detach
  refine ⟨_, hrel, ⟨fun d => (h.nodup d).sublist Lists.erase_sublist, fun d e x hx hy =>
      h.apart d e x (Lists.erase_sublist.subset hx) (Lists.erase_sublist.subset hy), fun d => ?_,
    fun d => ?_, fun d x hx => ?_, fun d x hx => ?_⟩,
    linkRemove_eq hnext hprev (h.linked ha) (h.linked hc)⟩
  · by_cases hd : d = b
    · subst d
      rw [here]
      exact h.detach_base hL ha hlast hhead
    · rw [base_detach_other hd, same d hd, h.base d]
  · rw [hfields]
    by_cases hd : d = b
    · subst d
      rw [here]
      exact h.detach_ring hL hprev hnext
    · rw [same d hd]
      exact h.detach_ring_other ha hc hd
  · rw [hrel.seg]
    exact h.attached d x (Lists.erase_sublist.subset hx)
  · rw [hrel.owner]
    exact h.back d x (Lists.erase_sublist.subset hx)

theorem mallocLink (h : Represents m node L) (hp : m.link p = none) :
    Represents (m.mallocLink p g) node L := by
  have hfields : (m.mallocLink p g).fields = m.fields := by
    simp only [Heap.fields, Heap.mallocLink, Fields.mk.injEq]
    constructor <;> funext q <;> by_cases hq : q = p <;> simp [hq, hp]
  refine ⟨h.nodup, h.apart, fun b => ?_, fun b => hfields ▸ h.ring b, h.attached,
    fun b x hx => ?_⟩
  · rw [← h.base b]
    cases b <;> rfl
  · have hne : node x ≠ p := by
      rintro rfl
      have := h.back b x hx
      simp [hp] at this
    simpa [Heap.mallocLink, hne] using h.back b x hx

theorem dropLink (h : Represents m node L) (hp : ∀ b, ∀ x ∈ L b, node x ≠ p) :
    Represents (m.dropLink p) node L := by
  refine ⟨h.nodup, h.apart, fun b => ?_, fun b => ?_, h.attached, fun b x hx => ?_⟩
  · rw [← h.base b]
    cases b <;> rfl
  · refine (h.ring b).frame ?_ ?_ <;> intro y hy <;> obtain ⟨x, hx, rfl⟩ := List.mem_map.mp hy
    · simp [Heap.fields, Heap.dropLink, hp b x hx]
    · simp [Heap.fields, Heap.dropLink, hp b x hx]
  · simpa [Heap.dropLink, hp b x hx] using h.back b x hx

theorem dropSeg (h : Represents m node L) (hg : ∀ b, g ∉ L b) :
    Represents (m.dropSeg g) node L := by
  refine ⟨h.nodup, h.apart, fun b => ?_, h.ring, fun b x hx => ?_, h.back⟩
  · rw [← h.base b]
    cases b <;> rfl
  · have hne : x ≠ g := fun he => hg b (he ▸ hx)
    simpa [Heap.dropSeg, hne] using h.attached b x hx

theorem erased (h : Represents m node L) (hg : g ∈ L b) (c : Base) : g ∉ (L.erase b g) c := by
  by_cases hc : c = b
  · rw [Lists.erase, hc, Function.update_self]
    exact (h.nodup b).not_mem_erase
  · rw [Lists.erase, Function.update_of_ne hc]
    exact fun hin => hc (h.apart c b g hin hg)

theorem block (h : Represents m node L) (hg : g ∈ L b) :
    ∃ s, m.seg g = some s ∧ s.link = some (node g) :=
  Option.bind_eq_some_iff.mp (h.attached b g hg)

/-- `link_insert` with an address that `malloc` finds unused. -/
theorem linkInsert (h : Represents m node L) (hg : ∀ c, g ∉ L c) (hs : m.seg g = some s)
    (hp : m.link p = none) (b : Base) : ∃ t, linkInsert m b g p = .ok t ∧
      Relinked ((m.mallocLink p g).setSeg g { s with link := some p }) t ∧
      Represents t (Function.update node g p) (L.append b g) := by
  have hm := (h.mallocLink hp (g := g)).setSeg (s := { s with link := some p })
    fun c hin => (hg c hin).elim
  obtain ⟨t, ht, hrel, hrep⟩ := hm.insert (p := p) (s := { s with link := some p }) hg
    (by simp [Heap.setSeg]) rfl (by simp [Heap.setSeg, Heap.mallocLink]) b
  refine ⟨t, ?_, hrel, hrep⟩
  rw [LinkHeap.linkInsert]
  simp only [show (m.mallocLink p g).seg g = some s from hs, deref_some, ok_bind]
  exact ht

/-- `link_remove` with the address of the field, without and with its release. -/
theorem linkRemoveOf (h : Represents m node L) (hg : g ∈ L b) (hs : m.seg g = some s) :
    ∃ t, Relinked m t ∧ Represents t node (L.erase b g) ∧
      LinkHeap.linkRemoveOf m b g false = .ok t ∧
      LinkHeap.linkRemoveOf m b g true =
        .ok ((t.dropLink (node g)).setSeg g { s with link := none }) := by
  have hl : s.link = some (node g) := by simpa [hs] using h.attached b g hg
  obtain ⟨t, hrel, hrep, ht⟩ := h.remove hg
  refine ⟨t, hrel, hrep, ?_, ?_⟩
  · have hts : some s = t.seg g := by rw [hrel.seg, hs]
    have hself : t.setSeg g { s with link := some (node g) } = t := by
      rw [← hl, Heap.setSeg, hts, Function.update_eq_self]
    simp [LinkHeap.linkRemoveOf, hs, hl, ht, hself]
  · simp [LinkHeap.linkRemoveOf, hs, hl, ht]

/-- A move keeps the link of the segment. -/
theorem relink (h : Represents m node L) (hg : g ∈ L b) (hs : m.seg g = some s)
    (c : Base) : ∃ t u, LinkHeap.linkRemoveOf m b g false = .ok t ∧ t.seg g = some s ∧
      insertLink t c (node g) = .ok u ∧ Relinked m u ∧
      Represents u node ((L.erase b g).append c g) := by
  have hl : s.link = some (node g) := by simpa [hs] using h.attached b g hg
  obtain ⟨t, hrel, hrep, ht, -⟩ := h.linkRemoveOf hg hs
  have hts : t.seg g = some s := by rw [hrel.seg, hs]
  obtain ⟨u, hu, hrel', hrep'⟩ := hrep.insert (h.erased hg) hts hl
    (by rw [hrel.owner]; exact h.back b g hg) c
  rw [Function.update_eq_self] at hrep'
  exact ⟨t, u, ht, hts, hu, hrel.trans hrel', hrep'⟩

theorem moveToDirty (h : Represents m node L) (hg : g ∈ L .segLinks) (hs : m.seg g = some s)
    (hd : s.dirty = false) : ∃ t, LinkHeap.moveToDirty m g = .ok t ∧
      Relinked (m.setSeg g { s with dirty := true }) t ∧
      Represents t node ((L.erase .segLinks g).append .dirtySegLinks g) := by
  have hl : s.link = some (node g) := by simpa [hs] using h.attached _ g hg
  have hm := h.setSeg (g := g) (s := { s with dirty := true }) fun _ _ => hl
  obtain ⟨t, u, ht, hts, hu, hrel, hrep⟩ :=
    hm.relink (s := { s with dirty := true }) hg (by simp [Heap.setSeg]) .dirtySegLinks
  refine ⟨u, ?_, hrel, hrep⟩
  simp only [LinkHeap.moveToDirty, hs, hd, deref_some, ok_bind, Bool.false_eq_true, if_false, ht,
    hts]
  rw [hl]
  exact hu

theorem moveToClean (h : Represents m node L) (hg : g ∈ L .dirtySegLinks)
    (hs : m.seg g = some s) (hd : s.dirty = true) : ∃ t, LinkHeap.moveToClean m g = .ok t ∧
      Relinked (m.setSeg g { s with dirty := false }) t ∧
      Represents t node ((L.erase .dirtySegLinks g).append .segLinks g) := by
  have hl : s.link = some (node g) := by simpa [hs] using h.attached _ g hg
  have hm := h.setSeg (g := g) (s := { s with dirty := false }) fun _ _ => hl
  obtain ⟨t, u, ht, hts, hu, hrel, hrep⟩ :=
    hm.relink (s := { s with dirty := false }) hg (by simp [Heap.setSeg]) .segLinks
  refine ⟨u, ?_, hrel, hrep⟩
  simp only [LinkHeap.moveToClean, hs, hd, deref_some, ok_bind, if_true, ht, hts]
  rw [hl]
  exact hu

end Represents

end ListRefinement
