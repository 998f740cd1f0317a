import TransactionalMemory.ReferenceMemory
import TransactionalMemory.SerialPrograms

/-! # Serial programs on the reference

The flat memory holds the words of every segment of the program at the pointer it gave out,
each in a block of its own. Every call answers from those words what the plain memory
answers. -/
namespace ReferenceSimulation

open ControlWord
open RegionState (SegId)
open Calls (copyOut inRange inRange_iff)
open CallLog
open CommutingSteps
open PlainMemory
open Lockstep
open SerialPrograms
open ReferenceMemory

variable {W : Type*}

/-- `names` are the pointers given out, in allocation order. -/
structure Session (W : Type*) where
  region : Region W
  names : List ℕ

def Session.pointer (s : Session W) (g : SegId) : ℕ := s.names.getD g 0

def referenceCall [Zero W] (A : Allocator W) (tx : Tx) (s : Session W) :
    Call W → Option (List (List W) × Session W)
  | .read g k n => some ([tmRead s.region tx (s.pointer g + k) n], s)
  | .write g k src => some ([], { s with region := tmWrite s.region tx src (s.pointer g + k) })
  | .alloc n =>
    let (segment, region) := tmAlloc A s.region tx n
    some ([], ⟨region, s.names ++ [segment]⟩)
  | .free g => some ([], { s with region := tmFree A s.region tx (s.pointer g) })

def referenceTransaction [Zero W] (A : Allocator W) (s : Session W) (p : Transaction W) :
    Option (List (List W) × Session W) :=
  (tmBegin s.region p.isRo).bind fun (tx, region) =>
    (answers (referenceCall A tx) { s with region } p.calls).map fun (out, s) =>
      (out, { s with region := tmEnd s.region tx })

def referenceStart [Zero W] (A : Allocator W) (contents : ℕ → W) (size align : ℕ) : Session W :=
  let region := tmCreate A contents size align
  ⟨region, [tmStart region]⟩

def referenceProgram [Zero W] (A : Allocator W) (contents : ℕ → W) (size align : ℕ)
    (ps : List (Transaction W)) : Option (List (List W)) :=
  (answers (referenceTransaction A) (referenceStart A contents size align) ps).map Prod.fst

/-- Words before the segment in its block; the first segment has no link. -/
def Session.head (s : Session W) (g : SegId) : ℕ := if g = 0 then 0 else s.region.deltaAlloc

def Session.block (s : Session W) (sh : Shape) (g : SegId) : ℕ × ℕ :=
  (s.pointer g - s.head g, s.head g + sh.size g)

structure Stands (sh : Shape) (m : Memory W) (s : Session W) : Prop where
  count : s.names.length = sh.count
  started : 0 < sh.count
  linked : 0 < s.region.deltaAlloc
  behind : ∀ g, sh.Held g → s.head g ≤ s.pointer g
  inUse : ∀ g, sh.Held g → ∀ a, Within (s.block sh g) a → s.block sh g ∈ s.region.heap.blocks
  apart : ∀ g x, sh.Held g → sh.Held x → g ≠ x → ∀ a, Within (s.block sh g) a →
    ¬ Within (s.block sh x) a
  words : ∀ g b, sh.Held g → m g = some b → ∀ i < sh.size g,
    s.region.heap.word (s.pointer g + i) = b.word i

namespace Stands

variable {sh : Shape} {m m' : Memory W} {s : Session W} {g : SegId}

theorem within (h : Stands sh m s) (hg : sh.Held g) {i : ℕ} (hi : i < sh.size g) :
    Within (s.block sh g) (s.pointer g + i) := by
  have := h.behind g hg
  refine ⟨?_, ?_⟩
  · show s.pointer g - s.head g ≤ s.pointer g + i
    omega
  · show s.pointer g + i < s.pointer g - s.head g + (s.head g + sh.size g)
    omega

theorem used (h : Stands sh m s) (hg : sh.Held g) {a : ℕ} (ha : Within (s.block sh g) a) :
    s.region.heap.Used a := ⟨_, h.inUse g hg a ha, ha⟩

/-- Only the segments that the program holds count, and not their freed marks. -/
theorem congr (h : Stands sh m s) (hm : ∀ g, sh.Held g → m' g = m g) : Stands sh m' s :=
  ⟨h.count, h.started, h.linked, h.behind, h.inUse, h.apart, fun g b hg hb =>
    h.words g b hg (hm g hg ▸ hb)⟩

/-- The lock says nothing about the memory. -/
theorem withLock (h : Stands sh m s) (lock : Lock) :
    Stands sh m { s with region := { s.region with lock } } :=
  ⟨h.count, h.started, h.linked, h.behind, h.inUse, h.apart, h.words⟩

theorem read (h : Stands sh m s) (hg : sh.Held g) {b : Block W} (hb : m g = some b) {k n : ℕ}
    (hk : k + n ≤ sh.size g) (tx : Tx) :
    tmRead s.region tx (s.pointer g + k) n = copyOut b.word k n := by
  apply List.map_congr_left
  intro j hj
  rw [List.mem_range] at hj
  rw [Nat.add_assoc]
  exact h.words g b hg hb (k + j) (by omega)

theorem write (h : Stands sh m s) (hg : sh.Held g) {b : Block W} (hb : m g = some b) {k : ℕ}
    {src : List W} (hk : k + src.length ≤ sh.size g) (tx : Tx) :
    Stands sh (Function.update m g (some (b.store k src)))
      { s with region := tmWrite s.region tx src (s.pointer g + k) } := by
  refine ⟨h.count, h.started, h.linked, h.behind, h.inUse, h.apart, fun x c hx hc i hi => ?_⟩
  show memcpy s.region.heap.word (s.pointer g + k) src (s.pointer x + i) = c.word i
  by_cases hxg : x = g
  · subst x
    rw [Function.update_self] at hc
    cases hc
    have hold := h.words g b hg hb i hi
    have hsame : inRange (s.pointer g + k) src.length (s.pointer g + i) =
        inRange k src.length i := by
      rw [Bool.eq_iff_iff, inRange_iff, inRange_iff]
      omega
    have hoff : s.pointer g + i - (s.pointer g + k) = i - k := by omega
    simp only [memcpy, Block.store, hsame, hoff, hold]
  · rw [Function.update_of_ne hxg] at hc
    rw [memcpy_outside]
    · exact h.words x c hx hc i hi
    · -- the words written lie in another block
      rw [Bool.eq_false_iff, Ne, inRange_iff]
      rintro ⟨hlo, hhi⟩
      refine h.apart x g hx hg hxg _ (h.within hx hi) ?_
      obtain ⟨j, hj⟩ := Nat.exists_eq_add_of_le hlo
      rw [hj, Nat.add_assoc]
      exact h.within hg (by omega)

theorem alloc [Zero W] (h : Stands sh m s) (A : Allocator W) (tx : Tx) (n : ℕ) :
    Stands (sh.after (.alloc n : Call W)) (Function.update m sh.count (some (Block.zero n)))
      ⟨(tmAlloc A s.region tx n).2, s.names ++ [(tmAlloc A s.region tx n).1]⟩ := by
  let t : Session W := ⟨(tmAlloc A s.region tx n).2, s.names ++ [(tmAlloc A s.region tx n).1]⟩
  let p := A.place s.region.heap s.region.alignAlloc (s.region.deltaAlloc + n)
  have old : ∀ g, (sh.after (.alloc n : Call W)).Held g → g ≠ sh.count →
      sh.Held g ∧ t.pointer g = s.pointer g ∧ t.block (sh.after (.alloc n : Call W)) g = s.block sh g := by
    intro g hg hne
    obtain ⟨hheld, hsize⟩ := Shape.held_alloc hg hne
    have hp : t.pointer g = s.pointer g := by
      have : g < s.names.length := h.count ▸ hheld.1
      simp [t, Session.pointer, List.getD_eq_getElem?_getD, List.getElem?_append_left this]
    exact ⟨hheld, hp, by rw [Session.block, hp, hsize]; rfl⟩
  have new : t.pointer sh.count = p + s.region.deltaAlloc := by
    simp [t, Session.pointer, List.getD_eq_getElem?_getD, ← h.count, p, tmAlloc, posixMemalign]
  have hhead : t.head sh.count = s.region.deltaAlloc := if_neg h.started.ne'
  have hsize : (sh.after (.alloc n : Call W)).size sh.count = n := Function.update_self _ _ _
  have hblock : t.block (sh.after (.alloc n : Call W)) sh.count = (p, s.region.deltaAlloc + n) := by
    rw [Session.block, new, hhead, hsize, Nat.add_sub_cancel]
  have fresh : ∀ a, Within (p, s.region.deltaAlloc + n) a → ¬ s.region.heap.Used a := fun a =>
    A.place_unused _ _ _ a
  refine ⟨?_, Nat.succ_pos _, h.linked, fun g hg => ?_, fun g hg a ha => ?_, fun g x hg hx hne a ha hb => ?_,
    fun g b hg hb i hi => ?_⟩
  · show (s.names ++ [_]).length = sh.count + 1
    rw [List.length_append, h.count, List.length_singleton]
  · by_cases hgc : g = sh.count
    · show t.head g ≤ t.pointer g
      rw [hgc, new, hhead]
      omega
    · obtain ⟨hheld, hp, -⟩ := old g hg hgc
      exact hp ▸ h.behind g hheld
  · show t.block _ g ∈ (p, s.region.deltaAlloc + n) :: s.region.heap.blocks
    by_cases hgc : g = sh.count
    · rw [hgc, hblock]
      exact List.mem_cons_self
    · obtain ⟨hheld, -, he⟩ := old g hg hgc
      rw [he]
      exact List.mem_cons_of_mem _ (h.inUse g hheld a (he ▸ ha))
  · change Within (t.block _ g) a at ha
    change Within (t.block _ x) a at hb
    by_cases hgc : g = sh.count
    · obtain ⟨hheld, -, he⟩ := old x hx fun hxc => hne (hgc.trans hxc.symm)
      rw [hgc, hblock] at ha
      exact fresh a ha (h.used hheld (he ▸ hb))
    · obtain ⟨hheld, -, he⟩ := old g hg hgc
      by_cases hxc : x = sh.count
      · rw [hxc, hblock] at hb
        exact fresh a hb (h.used hheld (he ▸ ha))
      · obtain ⟨hheld', -, he'⟩ := old x hx hxc
        exact h.apart g x hheld hheld' hne a (he ▸ ha) (he' ▸ hb)
  · show memset (A.obtained s.region.heap s.region.alignAlloc (s.region.deltaAlloc + n))
      (p + s.region.deltaAlloc) n (t.pointer g + i) = b.word i
    by_cases hgc : g = sh.count
    · subst g
      rw [Function.update_self] at hb
      cases hb
      have hin : inRange (p + s.region.deltaAlloc) n (t.pointer sh.count + i) = true := by
        rw [inRange_iff, new]
        rw [hsize] at hi
        omega
      exact if_pos hin
    · obtain ⟨hheld, hp, he⟩ := old g hg hgc
      rw [Function.update_of_ne hgc] at hb
      have hi' : i < sh.size g := (Shape.held_alloc hg hgc).2 ▸ hi
      have hused := h.used hheld (h.within hheld hi')
      have hout : inRange (p + s.region.deltaAlloc) n (s.pointer g + i) = false := by
        rw [Bool.eq_false_iff, Ne, inRange_iff]
        rintro ⟨hlo, hhi⟩
        exact fresh _ ⟨by show p ≤ _; omega, by show _ < p + _; omega⟩ hused
      rw [memset, hp, if_neg (by simp [hout]), A.obtained_used _ _ _ _ hused]
      exact h.words g b hheld hb i hi'

theorem free (h : Stands sh m s) (hg : sh.Held g) (h0 : g ≠ 0) {b : Block W}
    (A : Allocator W) (tx : Tx) : Stands (sh.after (.free g : Call W))
      (Function.update m g (some b)) { s with region := tmFree A s.region tx (s.pointer g) } := by
  have hstart : s.pointer g - s.region.deltaAlloc = (s.block sh g).1 := by
    rw [Session.block, Session.head, if_neg h0]
  -- no other block in use starts where the freed one does
  have kept : ∀ x, sh.Held x → x ≠ g → ∀ a, Within (s.block sh x) a →
      s.block sh x ∈ (s.region.heap.without (s.pointer g - s.region.deltaAlloc)).blocks := by
    intro x hx hne a ha
    refine List.mem_filter.mpr ⟨h.inUse x hx a ha, ?_⟩
    rw [decide_eq_true_eq, hstart]
    intro he
    refine h.apart x g hx hg hne (s.block sh x).1 ⟨le_rfl, ?_⟩ ⟨he ▸ le_rfl, ?_⟩
    · have := ha.1
      have := ha.2
      omega
    · rw [he]
      show (s.block sh g).1 < (s.block sh g).1 + (s.head g + sh.size g)
      have := h.linked
      rw [Session.head, if_neg h0]
      omega
  refine ⟨h.count, h.started, h.linked, fun x hx => h.behind x (Shape.held_free hx).1,
    fun x hx a ha => ?_, fun x y hx hy => h.apart x y (Shape.held_free hx).1
      (Shape.held_free hy).1, fun x c hx hc i hi => ?_⟩
  · obtain ⟨hheld, hne⟩ := Shape.held_free hx
    exact kept x hheld hne a ha
  · obtain ⟨hheld, hne⟩ := Shape.held_free hx
    rw [Function.update_of_ne hne] at hc
    have hin := h.within hheld hi
    show A.released s.region.heap (s.pointer g - s.region.deltaAlloc) (s.pointer x + i) = c.word i
    rw [A.released_used _ _ _ ⟨_, kept x hheld hne _ hin, hin⟩]
    exact h.words x c hheld hc i hi

/-- The answer of the plain memory is the answer of the reference. -/
theorem call [DecidableEq W] [Zero W] (h : Stands sh m s)
    {isRo : Bool} {c : Call W} (hc : c.Allowed sh isRo) {e : Entry W} {out : List (List W)}
    (hl : Logged sh c e out) (hx : exec m e = some m') (A : Allocator W) (tx : Tx) :
    ∃ t, referenceCall A tx s c = some (out, t) ∧ t.region.lock = s.region.lock ∧
      Stands (sh.after c) m' t := by
  cases hl with
  | @read g k target =>
    obtain ⟨b, y, hb, hr, rfl⟩ := modify_eq_some.mp hx
    have hwords : copyOut b.word k target.length = target := by
      simp only [Block.read, Option.ite_none_right_eq_some] at hr
      exact hr.1.2
    cases read_words b y hr
    rw [← hb, Function.update_eq_self]
    refine ⟨s, ?_, rfl, h⟩
    rw [referenceCall, h.read hc.1 hb hc.2 tx, hwords]
  | @write g k src =>
    obtain ⟨b, y, hb, hw, rfl⟩ := modify_eq_some.mp hx
    obtain ⟨rfl, -⟩ := write_words b y hw
    exact ⟨_, rfl, rfl, h.write hc.2.1 hb hc.2.2 tx⟩
  | @alloc n =>
    obtain ⟨-, rfl⟩ := create_eq_some.mp hx
    exact ⟨_, rfl, rfl, h.alloc A tx n⟩
  | @free g =>
    obtain ⟨b, y, hb, hw, rfl⟩ := modify_eq_some.mp hx
    exact ⟨_, rfl, rfl, h.free hc.2.1 hc.2.2 A tx⟩

theorem start [Zero W] (A : Allocator W) (contents : ℕ → W) (size : ℕ) {align : ℕ}
    (ha : 0 < align) :
    Stands (.start size) (initialMemory size) (referenceStart A contents size align) := by
  have first : ∀ {g}, (Shape.start size).Held g → g = 0 := fun hg => Nat.lt_one_iff.mp hg.1
  refine ⟨rfl, Nat.one_pos, deltaAlloc_pos ha ?_, fun g hg => ?_, fun g hg a _ => ?_,
    fun g x hg hx hne => (hne ((first hg).trans (first hx).symm)).elim, fun g b hg hb i hi => ?_⟩
  · rw [sizeofPointer]
    split_ifs <;> omega
  · rw [first hg]
    exact Nat.zero_le _
  · rw [first hg]
    simp [Session.block, Session.head, Session.pointer, referenceStart, tmStart, tmCreate,
      posixMemalign, Shape.start]
  · cases first hg
    cases hb
    have hin : inRange ((referenceStart A contents size align).pointer 0) size
        ((referenceStart A contents size align).pointer 0 + i) = true := by
      rw [inRange_iff]
      have : i < size := hi
      omega
    exact if_pos hin

end Stands

end ReferenceSimulation
