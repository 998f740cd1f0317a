import TransactionalMemory.ListRefinement
import TransactionalMemory.TransitionSystem

/-! # Sequences of list operations

The operations of `link.c` in any order, on the heap and on two sequences side by side. The
sequences are never looked at by the heap; they say what its rings should be. -/
namespace ListSequences

open TransitionSystem
open CircularLists
open RegionState (SegId Segment)
open LinkHeap
open ListRefinement

variable {W : Type}

/-- `p` is the address that `malloc` returns to `link_insert`. -/
inductive Op where
  | insert (b : Base) (g : SegId) (p : LinkId)
  | remove (b : Base) (g : SegId) (discard : Bool)
  | moveToDirty (g : SegId)
  | moveToClean (g : SegId)
  deriving DecidableEq, Repr

def exec (m : Heap W) : Op → Except Fault (Heap W)
  | .insert b g p => linkInsert m b g p
  | .remove b g discard => linkRemoveOf m b g discard
  | .moveToDirty g => moveToDirty m g
  | .moveToClean g => moveToClean m g

/-- To the end of the other list, if the segment is on this one. -/
def move (L : Lists) (b c : Base) (g : SegId) : Lists :=
  if g ∈ L b then (L.erase b g).append c g else L

/-- The operations on the two sequences. -/
def apply (L : Lists) : Op → Lists
  | .insert b g _ => L.append b g
  | .remove b g _ => L.erase b g
  | .moveToDirty g => move L .segLinks .dirtySegLinks g
  | .moveToClean g => move L .dirtySegLinks .segLinks g

/-- The dirty flag names the list. -/
def Named (m : Heap W) (b : Base) (g : SegId) : Prop :=
  (m.seg g).map (fun seg => seg.dirty) = some (decide (b = .dirtySegLinks))

instance (m : Heap W) (b : Base) (g : SegId) : Decidable (Named m b g) :=
  inferInstanceAs (Decidable (_ = _))

/-- A segment on neither list and an unused address, or a member of a list. -/
def Legal (m : Heap W) (L : Lists) : Op → Prop
  | .insert _ g p => (m.seg g).isSome ∧ (∀ c, g ∉ L c) ∧ m.link p = none
  | .remove b g _ => g ∈ L b
  | .moveToDirty g | .moveToClean g => ∃ b, g ∈ L b ∧ Named m b g

/-- The move that the dirty flag does not ask for. -/
def Idle (L : Lists) : Op → Prop
  | .moveToDirty g => g ∈ L .dirtySegLinks
  | .moveToClean g => g ∈ L .segLinks
  | .insert .. | .remove .. => False

/-- `live` are the segments inserted and not removed. -/
structure State (W : Type) where
  heap : Heap W
  lists : Lists
  live : Finset SegId

def record (live : Finset SegId) : Op → Finset SegId
  | .insert _ g _ => insert g live
  | .remove _ g _ => live.erase g
  | .moveToDirty _ | .moveToClean _ => live

def step (s : State W) (op : Op) : Option (State W) :=
  match exec s.heap op with
  | .ok m => some ⟨m, apply s.lists op, record s.live op⟩
  | .error _ => none

abbrev system (W : Type) : System (State W) Op where
  init s := s.heap.segLinks = none ∧ s.heap.dirtySegLinks = none ∧
    s.lists = (fun _ => []) ∧ s.live = ∅
  step := step

/-- New segments go to the list that their flag names, the others are live. -/
def Admissible (s : State W) : Op → Prop
  | .insert b g p => g ∉ s.live ∧ Named s.heap b g ∧ s.heap.link p = none
  | .remove b g _ => g ∈ s.lists b
  | .moveToDirty g | .moveToClean g => g ∈ s.live

instance (s : State W) (op : Op) : Decidable (Admissible s op) :=
  match op with
  | .insert .. => inferInstanceAs (Decidable (_ ∧ _ ∧ _))
  | .remove .. | .moveToDirty _ | .moveToClean _ => inferInstanceAs (Decidable (_ ∈ _))

/-- Two rings without a common link, and every live segment on the one its flag names. -/
structure Sound (s : State W) : Prop where
  rings : ∃ node, Represents s.heap node s.lists ∧
    List.Disjoint ((s.lists .segLinks).map node) ((s.lists .dirtySegLinks).map node)
  named : ∀ b, ∀ g ∈ s.lists b, Named s.heap b g
  live : ∀ g, g ∈ s.live ↔ ∃! b, g ∈ s.lists b

variable {m t : Heap W} {L : Lists} {node : SegId → LinkId} {op : Op} {b c : Base} {g x : SegId}

theorem mem_append {L : Lists} : x ∈ (L.append b g) c ↔ x ∈ L c ∨ (x = g ∧ c = b) := by
  by_cases hc : c = b
  · subst c
    simp [Lists.append]
  · simp [Lists.append, hc]

theorem mem_erase (h : Represents m node L) :
    x ∈ (L.erase b g) c ↔ x ∈ L c ∧ ¬ (x = g ∧ c = b) := by
  by_cases hc : c = b
  · subst c
    simp [Lists.erase, (h.nodup b).mem_erase_iff, and_comm]
  · simp [Lists.erase, hc]

theorem mem_move (h : Represents m node L) {d : Base} : x ∈ move L b c g d ↔
    if x = g ∧ g ∈ L b then d = c else x ∈ L d := by
  rw [move]
  by_cases hg : g ∈ L b
  · rw [if_pos hg, mem_append, mem_erase h]
    by_cases hx : x = g
    · subst x
      simp only [true_and, hg, and_self, if_true]
      constructor
      · rintro (⟨hd, hne⟩ | hd)
        · exact (hne (h.apart d b g hd hg)).elim
        · exact hd
      · exact .inr
    · simp [hx]
  · simp [hg]

/-- The dirty flags of all segments are left alone. -/
theorem named_of_relinked (ht : Relinked m t) : Named t b g ↔ Named m b g := by
  rw [Named, Named, ht.seg]

theorem named_setSeg {s : Block W} :
    Named (m.setSeg g s) b x ↔
      if x = g then s.dirty = decide (b = .dirtySegLinks) else Named m b x := by
  by_cases hx : x = g
  · subst x
    simp [Named, Heap.setSeg]
  · simp [Named, Heap.setSeg, hx]

theorem named_iff (h : Named m b g) : Named m c g ↔ c = b := by
  rw [Named] at h ⊢
  rw [h]
  cases b <;> cases c <;> simp

/-- How an operation changes which segments are flagged for which list. -/
def Reflagged (m t : Heap W) (op : Op) : Prop :=
  ∀ c x, Named t c x ↔ match op with
    | .insert .. | .remove .. => Named m c x
    | .moveToDirty g => if x = g then c = .dirtySegLinks else Named m c x
    | .moveToClean g => if x = g then c = .segLinks else Named m c x

/-- A move that changes nothing leaves its segment where the flag says. -/
theorem named_unmoved (hb : Named m b g) :
    Named m c x ↔ if x = g then c = b else Named m c x := by
  split_ifs with hx
  · rw [hx]
    exact named_iff hb
  · exact Iff.rfl

theorem Named.dirty {s : Block W} (hb : Named m b g) (hs : m.seg g = some s) :
    s.dirty = decide (b = .dirtySegLinks) := by
  simpa [Named, hs] using hb

/-- An operation on the heap follows the one on the sequences. -/
theorem exec_refines (h : Represents m node L) (hl : Legal m L op) : ∃ t node',
    exec m op = .ok t ∧ Represents t node' (apply L op) ∧ (Idle L op → t = m) ∧
      Reflagged m t op := by
  have same : ∀ {g : SegId} {s : Block W} {link : Option LinkId}, m.seg g = some s → ∀ c x,
      Named (m.setSeg g { s with link }) c x ↔ Named m c x := by
    intro g s link hs c x
    rw [named_setSeg]
    split_ifs with hx
    · subst x
      simp [Named, hs]
    · rfl
  cases op with
  | insert b g p =>
    obtain ⟨hsome, hg, hp⟩ := hl
    obtain ⟨s, hs⟩ := Option.isSome_iff_exists.mp hsome
    obtain ⟨t, ht, hrel, hrep⟩ := h.linkInsert hg hs hp b
    refine ⟨t, _, ht, hrep, nofun, fun c x => ?_⟩
    rw [named_of_relinked hrel]
    exact same hs c x
  | remove b g discard =>
    obtain ⟨s, hs, hlink⟩ := h.block hl
    obtain ⟨t, hrel, hrep, hkeep, hdrop⟩ := h.linkRemoveOf hl hs
    cases discard with
    | false => exact ⟨t, node, hkeep, hrep, nofun, fun c x => named_of_relinked hrel⟩
    | true =>
      have hout : ∀ c, ∀ x ∈ (L.erase b g) c, node x ≠ node g := by
        intro c x hx he
        rw [mem_erase h] at hx
        have hxg := h.node_inj hx.1 hl he
        exact hx.2 ⟨hxg, h.apart c b g (hxg ▸ hx.1) hl⟩
      have hrep' := (hrep.dropLink hout).setSeg (g := g) (s := { s with link := none })
        fun c hin => (h.erased hl c hin).elim
      refine ⟨_, node, hdrop, hrep', nofun, fun c x => ?_⟩
      have hnamed : Named t c x ↔ Named m c x := named_of_relinked hrel
      rw [← same hs c x, named_setSeg, named_setSeg]
      split_ifs
      · rfl
      · exact hnamed
  | moveToDirty g =>
    obtain ⟨b, hg, hb⟩ := hl
    obtain ⟨s, hs, -⟩ := h.block hg
    have hflag := hb.dirty hs
    cases b with
    | segLinks =>
      obtain ⟨t, ht, hrel, hrep⟩ := h.moveToDirty hg hs hflag
      refine ⟨t, node, ht, ?_, fun hi => ?_, fun c x => ?_⟩
      · rwa [apply, move, if_pos hg]
      · cases h.apart _ _ g hg hi
      · rw [named_of_relinked hrel, named_setSeg]
        cases c <;> simp
    | dirtySegLinks =>
      have hn : g ∉ L .segLinks := fun hin => by cases h.apart _ _ g hg hin
      refine ⟨m, node, by simp [exec, LinkHeap.moveToDirty, hs, hflag], ?_, fun _ => rfl,
        fun c x => named_unmoved hb⟩
      rwa [apply, move, if_neg hn]
  | moveToClean g =>
    obtain ⟨b, hg, hb⟩ := hl
    obtain ⟨s, hs, -⟩ := h.block hg
    have hflag := hb.dirty hs
    cases b with
    | dirtySegLinks =>
      obtain ⟨t, ht, hrel, hrep⟩ := h.moveToClean hg hs hflag
      refine ⟨t, node, ht, ?_, fun hi => ?_, fun c x => ?_⟩
      · rwa [apply, move, if_pos hg]
      · cases h.apart _ _ g hg hi
      · rw [named_of_relinked hrel, named_setSeg]
        cases c <;> simp
    | segLinks =>
      have hn : g ∉ L .dirtySegLinks := fun hin => by cases h.apart _ _ g hg hin
      refine ⟨m, node, by simp [exec, LinkHeap.moveToClean, hs, hflag], ?_, fun _ => rfl,
        fun c x => named_unmoved hb⟩
      rwa [apply, move, if_neg hn]

theorem one_list (h : Represents m node L) : (∃! b, x ∈ L b) ↔ ∃ b, x ∈ L b :=
  ⟨fun hx => hx.exists, fun ⟨b, hb⟩ => ⟨b, hb, fun c hc => h.apart c b x hc hb⟩⟩

theorem no_common_link (h : Represents m node L) :
    List.Disjoint ((L .segLinks).map node) ((L .dirtySegLinks).map node) := by
  intro p hp hp'
  obtain ⟨x, hx, rfl⟩ := List.mem_map.mp hp
  obtain ⟨y, hy, he⟩ := List.mem_map.mp hp'
  exact h.node_ne hx hy (by simp) he

variable {s u : State W}

theorem Sound.listed (h : Sound s) : g ∈ s.live ↔ ∃ b, g ∈ s.lists b := by
  obtain ⟨node, hrep, -⟩ := h.rings
  rw [h.live, one_list hrep]

theorem Sound.legal (h : Sound s) (hop : Admissible s op) : Legal s.heap s.lists op := by
  cases op with
  | insert b g p =>
    obtain ⟨hg, hb, hp⟩ := hop
    refine ⟨?_, fun c hin => hg (h.listed.mpr ⟨c, hin⟩), hp⟩
    obtain ⟨seg, hseg, -⟩ := Option.map_eq_some_iff.mp hb
    rw [hseg]
    rfl
  | remove b g discard => exact hop
  | moveToDirty g | moveToClean g =>
    obtain ⟨b, hb⟩ := h.listed.mp hop
    exact ⟨b, hb, h.named b g hb⟩

theorem mem_move_named (h : Sound s) (hbc : ∀ d, d ≠ b → d = c)
    (hx : x ∈ move s.lists b c g d) : if x = g then d = c else Named s.heap d x := by
  obtain ⟨node, hrep, -⟩ := h.rings
  rw [mem_move hrep] at hx
  by_cases hxg : x = g
  · rw [if_pos hxg]
    by_cases hg : g ∈ s.lists b
    · rwa [if_pos ⟨hxg, hg⟩] at hx
    · rw [if_neg (by simp [hg])] at hx
      apply hbc
      rintro rfl
      exact hg (hxg ▸ hx)
  · rw [if_neg (by simp [hxg])] at hx
    rw [if_neg hxg]
    exact h.named d x hx

/-- The segments of the new sequences keep to their flags. -/
theorem apply_named (h : Sound s) (hop : Admissible s op) (ht : Reflagged s.heap t op) :
    ∀ b, ∀ x ∈ apply s.lists op b, Named t b x := by
  obtain ⟨node, hrep, -⟩ := h.rings
  intro c x hx
  rw [ht c x]
  cases op with
  | insert b g p =>
    rcases mem_append.mp hx with hx | ⟨rfl, rfl⟩
    · exact h.named c x hx
    · exact hop.2.1
  | remove b g discard => exact h.named c x ((mem_erase hrep).mp hx).1
  | moveToDirty g => exact mem_move_named h (fun d hd => by cases d <;> simp_all) hx
  | moveToClean g => exact mem_move_named h (fun d hd => by cases d <;> simp_all) hx

theorem move_listed (h : Represents m node L) :
    (∃ d, x ∈ move L b c g d) ↔ ∃ d, x ∈ L d := by
  simp only [mem_move h]
  by_cases hx : x = g ∧ g ∈ L b
  · simp only [hx, and_self, if_true, exists_eq, true_iff]
    exact ⟨b, hx.1 ▸ hx.2⟩
  · simp [hx]

theorem apply_listed (h : Sound s) (hop : Admissible s op) :
    x ∈ record s.live op ↔ ∃ b, x ∈ apply s.lists op b := by
  obtain ⟨node, hrep, -⟩ := h.rings
  cases op with
  | insert b g p =>
    simp only [record, apply, Finset.mem_insert, mem_append, exists_or, h.listed]
    rw [or_comm]
    simp
  | remove b g discard =>
    simp only [record, apply, Finset.mem_erase, h.listed, mem_erase hrep]
    constructor
    · rintro ⟨hne, c, hc⟩
      exact ⟨c, hc, fun he => hne he.1⟩
    · rintro ⟨c, hc, hno⟩
      refine ⟨fun he => hno ⟨he, ?_⟩, c, hc⟩
      exact hrep.apart c b g (he ▸ hc) hop
  | moveToDirty g => rw [record, apply, move_listed hrep, h.listed]
  | moveToClean g => rw [record, apply, move_listed hrep, h.listed]

/-- No admissible operation is at fault, and the rings stay what the sequences say. -/
theorem step_sound (h : Sound s) (hop : Admissible s op) :
    ∃ u, step s op = some u ∧ Sound u := by
  obtain ⟨node, hrep, -⟩ := h.rings
  obtain ⟨t, node', ht, hrep', -, hflags⟩ := exec_refines hrep (h.legal hop)
  refine ⟨⟨t, apply s.lists op, record s.live op⟩, by rw [step, ht], ?_⟩
  refine ⟨⟨node', hrep', no_common_link hrep'⟩, apply_named h hop hflags, fun x => ?_⟩
  rw [one_list hrep']
  exact apply_listed h hop

theorem reachable_sound (h : Reachable (system W) Admissible s) : Sound s := by
  refine h.invariant ?_ fun s op u hs hop hu => ?_
  · rintro ⟨m, L, live⟩ ⟨hc, hd, rfl, rfl⟩
    refine ⟨⟨fun _ => 0, ⟨by simp, by simp, fun b => ?_, fun b => Ring.nil, by simp, by simp⟩,
      by simp⟩, by simp, by simp⟩
    cases b with
    | segLinks => exact hc
    | dirtySegLinks => exact hd
  · obtain ⟨v, hv, hsound⟩ := step_sound hs hop
    rw [show u = v from Option.some.inj (hu.symm.trans hv)]
    exact hsound

/-- Each operation refines its counterpart on sequences, on every heap that represents two
of them; and every sequence of operations from empty lists leaves two closed rings. -/
theorem lists_refine_sequences :
    (∀ (m : Heap W) node L op, Represents m node L → Legal m L op → ∃ t node',
      exec m op = .ok t ∧ Represents t node' (apply L op) ∧ (Idle L op → t = m)) ∧
    ∀ s : State W, Reachable (system W) Admissible s →
      Sound s ∧ ∀ op, Admissible s op → ∃ u, step s op = some u := by
  refine ⟨fun m node L op h hl => ?_, fun s hs => ⟨reachable_sound hs, fun op hop => ?_⟩⟩
  · obtain ⟨t, node', ht, hrep, hidle, -⟩ := exec_refines h hl
    exact ⟨t, node', ht, hrep, hidle⟩
  · obtain ⟨u, hu, -⟩ := step_sound (reachable_sound hs) hop
    exact ⟨u, hu⟩

/-- The segments of `test_links` and the links they get. -/
def blocks : Heap ℕ :=
  { seg := fun g => if g < 3 then
      some { RegionState.allocSegment 64 1 with dirty := decide (0 < g), link := none } else none
    link := fun _ => none
    segLinks := none, dirtySegLinks := none, freedSegs := [], freedLinks := [] }

/-- Three segments are inserted and cleaned up, the last and the first one get dirty. -/
def operations : List Op :=
  [.insert .segLinks 0 10, .insert .dirtySegLinks 1 11, .insert .dirtySegLinks 2 12,
    .moveToClean 2, .moveToClean 1, .moveToDirty 1, .moveToDirty 0, .moveToDirty 1]

theorem lists_refine_sequences_links : ∃ s, run (system ℕ) ⟨blocks, fun _ => [], ∅⟩ operations =
    some s ∧ Sound s ∧ s.lists .segLinks = [2] ∧ s.lists .dirtySegLinks = [1, 0] := by
  have hr : Reachable (system ℕ) Admissible ⟨blocks, fun _ => [], ∅⟩ := .init ⟨rfl, rfl, rfl, rfl⟩
  exact ⟨_, rfl, (lists_refine_sequences.2 _ (hr.run operations (by decide) rfl)).1, by decide,
    by decide⟩

end ListSequences
