import TransactionalMemory.AbortAtomicity
import TransactionalMemory.PendingCalls
import TransactionalMemory.StepBudgets

/-! # Calls end within a bounded number of steps

A call of an admitted transaction takes a bounded number of steps of its own, whatever the
others do meanwhile. The rollback of a failed call follows `link->next` through a list that
other transactions extend; its base is last, and everything else is met once. -/
namespace BoundedCalls

open TransitionSystem
open BatcherState
open ControlWord
open RegionState
open LockLevel
open AbortAtomicity (nextLink_cases idxOf_head idxOf_pos_of_ne_head)
open PendingCalls (inCall segmentOf Answers Doing Grows Part part_of_step inCall_micro grows_frame)
open StepBudgets

variable {W : Type*}

/-- Steps of a call none of whose words is refused. -/
def cost : Call W → ℕ
  | .read _ _ n => 2 * n + 6
  | .write _ _ src => 2 * src.length + 5
  | .alloc .. => 2
  | .free _ => 5
  | .finish => 1

/-- A rollback takes one step for each word of a segment and three for the segment. -/
def sweepCost (r : Region W) (g : SegId) : ℕ := (r.seg g).size + 3

def walkCost (r : Region W) (l : List SegId) : ℕ := (l.map (sweepCost r)).sum

/-- The segments that a rollback has done when it comes to `link`. The base is last. -/
def behind (l : List SegId) (link : SegId) : List SegId := l.tail.takeWhile fun g => g ≠ link

/-- What a call may have taken when it has come to a program counter. -/
def spent (c : Call W) (r : Region W) : Pc W → ℕ
  | .markRead _ _ _ i => i + 1
  | .copyRo _ _ _ target => target.length + 1
  | .copyRead _ _ n target => n + target.length + 2
  | .markWrite _ _ _ i => 2 * i + 1
  | .copyWrite _ _ _ i => 2 * i + 2
  | .storeOwner _ => 1
  | .casDirty .. | .readHead _ => cost c - 3
  | .listMove .. => cost c - 2
  | .returning _ => cost c - 1
  | .testOwner _ link _ => cost c - 2 + walkCost r (behind r.dirtySegLinks link)
  | .clearWord _ link _ i =>
    cost c - 1 + walkCost r (behind r.dirtySegLinks link) + min i (r.seg link).size
  | .advanceLink _ link _ =>
    cost c + walkCost r (behind r.dirtySegLinks link) + (r.seg link).size
  | .leaveFailed _ => cost c - 2 + walkCost r r.dirtySegLinks
  | _ => 0

/-- The transaction makes no further call. -/
def OneCall (tx : Tx) (s : State W) : Event W → Prop
  | .call u c => u ≠ tx ∧ Lawful s (.call u c)
  | e => Lawful s e

def advances (tx : Tx) : Event W → Bool
  | .advance u => u == tx
  | _ => false

instance (tx : Tx) (s : State W) : ∀ e : Event W, Decidable (OneCall tx s e)
  | .call _ _ => inferInstanceAs (Decidable (_ ∧ _))
  | .begin u => inferInstanceAs (Decidable (Lawful s (.begin u)))
  | .advance u => inferInstanceAs (Decidable (Lawful s (.advance u)))

theorem OneCall.lawful {tx : Tx} {s : State W} {e : Event W} (h : OneCall tx s e) :
    Lawful s e := by
  cases e with
  | call => exact h.2
  | begin | advance => exact h

@[simp] theorem advances_advance (tx u : Tx) :
    advances tx (.advance u : Event W) = true ↔ u = tx := beq_iff_eq

/-! ### What a rollback has behind it -/

section walk

variable {l m : List SegId} {link base : SegId} {r r' : Region W}

@[simp] theorem walkCost_nil (r : Region W) : walkCost r [] = 0 := rfl

@[simp] theorem walkCost_cons (r : Region W) (g : SegId) (l : List SegId) :
    walkCost r (g :: l) = sweepCost r g + walkCost r l := by
  simp [walkCost]

theorem walkCost_append (r : Region W) (l m : List SegId) :
    walkCost r (l ++ m) = walkCost r l + walkCost r m := by
  simp [walkCost]

theorem behind_subset : behind l link ⊆ l := fun _ hg =>
  List.mem_of_mem_tail (List.takeWhile_subset _ hg)

/-- What others append to the list is not behind the rollback, unless it is at the base. -/
theorem behind_grows (h : l <+: m) : behind l link <+: behind m link := by
  obtain ⟨x, rfl⟩ := h
  cases l with
  | nil => exact List.nil_prefix
  | cons a l =>
    simp only [behind, List.cons_append, List.tail_cons, List.takeWhile_append]
    split_ifs with hall
    · rw [List.IsPrefix.eq_of_length (List.takeWhile_prefix _) hall]
      exact List.prefix_append _ _
    · exact List.prefix_refl _

theorem takeWhile_ne (x y : List SegId) (h : link ∉ x) :
    (x ++ y).takeWhile (fun g => g ≠ link) = x ++ y.takeWhile fun g => g ≠ link :=
  List.takeWhile_append_of_pos fun g hg => by simpa using fun he : g = link => h (he ▸ hg)

theorem behind_base (hn : l.Nodup) (hb : l.head? = some base) : behind l base = l.tail := by
  cases l with
  | nil => rfl
  | cons a l =>
    cases hb
    simpa [behind] using takeWhile_ne l [] (List.nodup_cons.mp hn).1

/-- One turn of the walk of `rollback_transaction`. -/
theorem behind_next (hn : l.Nodup) (hl : link ∈ l) (hb : l.head? = some base)
    (hne : link ≠ base) : behind l (nextLink l link) = behind l link ++ [link] := by
  cases l with
  | nil => cases hl
  | cons a l =>
    cases hb
    obtain ⟨x, y, rfl, hx⟩ := List.eq_append_cons_of_mem (List.mem_of_ne_of_mem hne hl)
    have here : behind (base :: (x ++ link :: y)) link = x := by
      rw [behind, List.tail_cons, takeWhile_ne x _ hx]
      simp
    have next : nextLink (base :: (x ++ link :: y)) link = y.headD base := by
      simp [nextLink, List.idxOf_cons_ne _ (Ne.symm hne), List.idxOf_append_of_notMem hx,
        List.getElem?_append_right, List.head?_eq_getElem?, List.headD_eq_head?_getD]
    have hnot : y.headD base ∉ x ++ [link] := by
      cases y with
      | nil => exact (List.nodup_cons.mp hn).1
      | cons z y =>
        intro hz
        have := (List.nodup_cons.mp hn).2
        rw [← List.singleton_append, ← List.append_assoc] at this
        exact (List.nodup_append.mp this).2.2 z hz z List.mem_cons_self rfl
    rw [next, here, behind, List.tail_cons, ← List.singleton_append, ← List.append_assoc,
      takeWhile_ne _ y hnot]
    cases y <;> simp

theorem walkCost_mono (h : l <+: m) (hs : ∀ g ∈ l, (r'.seg g).size = (r.seg g).size) :
    walkCost r l ≤ walkCost r' m := by
  obtain ⟨x, rfl⟩ := h
  have same : walkCost r' l = walkCost r l := by
    refine congrArg List.sum (List.map_congr_left fun g hg => ?_)
    rw [sweepCost, sweepCost, hs g hg]
  rw [walkCost_append, same]
  exact Nat.le_add_right _ _

theorem walkCost_behind (h : Grows r r') (link : SegId) :
    walkCost r (behind r.dirtySegLinks link) ≤ walkCost r' (behind r'.dirtySegLinks link) :=
  walkCost_mono (behind_grows h.links) fun g hg => h.size g (behind_subset hg)

/-- What is behind a link and the link itself are part of the list. -/
theorem behind_le (hl : link ∈ l) (hn : l.Nodup) (hb : l.head? = some base) :
    walkCost r (behind l link) + sweepCost r link ≤ walkCost r l := by
  cases l with
  | nil => cases hl
  | cons a l =>
    cases hb
    by_cases he : link = base
    · subst he
      rw [behind_base hn rfl, walkCost_cons, List.tail_cons]
      omega
    · obtain ⟨x, y, rfl, hx⟩ := List.eq_append_cons_of_mem (List.mem_of_ne_of_mem he hl)
      rw [behind, List.tail_cons, takeWhile_ne x _ hx]
      simp only [walkCost_cons, walkCost_append, ne_eq, not_true_eq_false, decide_false,
        Bool.false_eq_true, not_false_eq_true, List.takeWhile_cons_of_neg, walkCost_nil]
      omega

end walk

/-! ### Steps of the transaction -/

section own

variable {s t : State W} {tx u : Tx} {c : Call W} {p q : Pc W}

theorem spent_mono (hg : Grows s.region t.region) (ok : PcOk s tx p) :
    spent c s.region p ≤ spent c t.region p := by
  cases p with
  | testOwner d link base =>
    have := walkCost_behind hg link
    simp only [spent]
    omega
  | clearWord d link base i =>
    have := walkCost_behind hg link
    have := hg.size link ok.1
    simp only [spent]
    omega
  | advanceLink d link base =>
    have := walkCost_behind hg link
    have := hg.size link ok.1
    simp only [spent]
    omega
  | leaveFailed d =>
    have := walkCost_mono hg.links hg.size
    simp only [spent]
    omega
  | _ => exact Nat.le_refl _

theorem spent_entry (c : Call W) (r : Region W) : spent c r c.entry = 0 := by
  cases c <;> rfl

theorem cost_of_segment (h : segmentOf c ≠ none) : 5 ≤ cost c := by
  cases c <;> simp [segmentOf, cost] at h ⊢

theorem cost_of_answers {ret : Return W} (h : Answers c ret) : 2 ≤ cost c := by
  cases c with
  | finish => exact h.elim
  | read | write | alloc | free =>
    simp only [cost]
    omega

theorem spent_local (h : Doing c p) (ok : PcOk s tx p) (hn : s.region.dirtySegLinks.Nodup)
    (hl : Local s tx p q) (hq : inCall q = true) : spent c s.region p < spent c s.region q := by
  cases hl with
  | conflictRead | conflictWrite | tooFar | nomem =>
    rw [show c = _ from h]
    simp only [spent, cost]
    omega
  | readOnly | startRead | startWrite => exact Nat.lt_succ_self 0
  | refusedRead | refusedWrite | stored | doneRo | done =>
    obtain ⟨rfl, hle⟩ := h
    simp only [spent, cost]
    omega
  | marked =>
    have := h.2
    simp only [spent, List.length_nil]
    omega
  | fetchRo | fetch =>
    simp only [spent, List.length_append, List.length_singleton]
    omega
  | alreadyDirty =>
    have := cost_of_answers h.2
    simp only [spent]
    omega
  | noDirty | head =>
    have := cost_of_segment h.2
    simp only [spent]
    omega
  | returned => cases hq
  | notOwner | skipWord | cleared =>
    have := cost_of_segment h.2
    simp only [spent]
    omega
  | @walked d base =>
    have hle := behind_le (r := s.region) ok.1 hn ok.2
    have := cost_of_segment h.2
    simp only [spent, sweepCost] at hle ⊢
    omega
  | nextLink hne =>
    have := cost_of_segment h.2
    simp only [spent, behind_next hn ok.1 ok.2 hne, walkCost_append, walkCost_cons, walkCost_nil,
      sweepCost]
    omega

variable [Zero W]

theorem spent_micro (hi : Invariant s) (h : Doing c (s.pc tx)) (hm : Micro s tx t)
    (hq : inCall (t.pc tx) = true) :
    spent c s.region (s.pc tx) < spent c t.region (t.pc tx) := by
  have hg := grows_frame hm.frame hi.lists
  have ok := hi.ok tx
  cases hm with
  | pcOnly hl =>
    simp only [State.goto, Function.update_self] at hq ⊢
    exact spent_local h ok (List.nodup_append.mp hi.lists.nodup).2.1 hl hq
  | passRead hp | passWrite hp | copyWord hp =>
    simp only [hp, State.goto, Function.update_self, spent]
    omega
  | allocate hp | storeFree hp | storeOwner hp =>
    rw [hp] at h
    simp only [hp, State.goto, Function.update_self, spent, show c = _ from h, cost]
    omega
  | winDirty hp | listMove hp =>
    rw [hp] at h
    have := cost_of_segment (h.1.trans_ne (Option.some_ne_none _))
    simp only [hp, State.goto, Function.update_self, spent]
    omega
  | @ownRollback d link base hp =>
    rw [hp] at h ok
    have := cost_of_segment h.2
    have grown := spent_mono (c := c) hg (show PcOk s tx (.clearWord d link base 0) from ok)
    simp only [hp, State.goto, Function.update_self, spent] at grown ⊢
    omega
  | @restoreWord d link base i hp hlt =>
    rw [hp] at h ok
    have := cost_of_segment h.2
    have grown := spent_mono (c := c) hg
      (show PcOk s tx (.clearWord d link base (i + 1)) from ok)
    simp only [hp, State.goto, Function.update_self, spent] at grown ⊢
    omega

/-- Inside a call the next step is always possible. -/
theorem enabled_of_doing (h : Doing c (s.pc tx)) (hin : inCall (s.pc tx) = true) :
    ∃ v, step s (.advance tx) = some v := by
  simp only [step, advance]
  cases hp : s.pc tx with
  | outside | waiting | idle | committed | aborted =>
    rw [hp] at hin
    cases hin
  | copyWrite g k src i =>
    rw [hp] at h
    simp only [List.getElem?_eq_getElem h.2]
    exact ⟨_, rfl⟩
  | _ =>
    simp only
    repeat' split
    all_goals exact ⟨_, rfl⟩

end own

/-! ### Runs in which the transaction makes no other call -/

section runs

variable [Zero W] {s t u : State W} {tx v : Tx} {c : Call W} {e : Event W} {p q : Pc W}

/-- A call of `tx` and what is known of it on the way. -/
structure Pending (c : Call W) (tx : Tx) (s : State W) : Prop where
  invariant : Invariant s
  doing : Doing c (s.pc tx)

/-- What a step is to `tx`: one of its call, one elsewhere, or the call is over. -/
theorem OneCall.part (hi : Invariant s) (hc : OneCall tx s e) (h : step s e = some t) :
    (e = .advance tx ∧ Micro s tx t) ∨
      (advances tx e = false ∧ t.pc tx = s.pc tx ∧ Grows s.region t.region) ∨
      inCall (t.pc tx) = false := by
  cases part_of_step hi h tx with
  | own hm => exact .inl ⟨rfl, hm⟩
  | called => exact (hc.1 rfl).elim
  | ended _ hout => exact .inr (.inr hout)
  | elsewhere _ hne hp hg =>
    refine .inr (.inl ⟨?_, hp, hg⟩)
    cases e with
    | begin | call => rfl
    | advance v => simpa [advances] using hne

theorem budget (size : ℕ) (c : Call W) (tx : Tx) :
    Budget (system W size) (OneCall tx) (advances tx) (Pending c tx)
      (fun s => inCall (s.pc tx) = true) (fun s => spent c s.region (s.pc tx)) where
  keeps := by
    intro s e t hk hc h
    refine ⟨step_preserves hk.invariant hc.lawful h, ?_⟩
    rcases hc.part hk.invariant h with ⟨-, hm⟩ | ⟨-, he, -⟩ | hout
    · exact hk.doing.micro hm
    · rw [he]
      exact hk.doing
    · exact .outside hout
  stays := by
    intro s e t hk hc h hin
    rcases hc.part hk.invariant h with ⟨-, hm⟩ | ⟨-, he, -⟩ | hout
    · exact inCall_micro hm
    · rwa [he] at hin
    · rw [hout] at hin
      cases hin
  spends := by
    intro s e t hk hc h hin hown
    rcases hc.part hk.invariant h with ⟨-, hm⟩ | ⟨he, -, -⟩ | hout
    · exact spent_micro hk.invariant hk.doing hm hin
    · rw [he] at hown
      cases hown
    · rw [hout] at hin
      cases hin
  grows := by
    intro s e t hk hc h hin
    rcases hc.part hk.invariant h with ⟨-, hm⟩ | ⟨-, he, hg⟩ | hout
    · exact (spent_micro hk.invariant hk.doing hm hin).le
    · simp only [he]
      exact spent_mono hg (hk.invariant.ok tx)
    · rw [hout] at hin
      cases hin

omit [Zero W] in
/-- How far a call can have come: its own steps, and a rollback of the whole dirty list. -/
theorem spent_lt (hi : Invariant s) (h : Doing c (s.pc tx)) (hin : inCall (s.pc tx) = true) :
    spent c s.region (s.pc tx) < cost c + walkCost s.region s.region.dirtySegLinks ∧
      ((s.pc tx).failed = false → spent c s.region (s.pc tx) < cost c) := by
  have ok := hi.ok tx
  have hn := (List.nodup_append.mp hi.lists.nodup).2.1
  cases hp : s.pc tx with
  | outside | waiting | idle | committed | aborted =>
    rw [hp] at hin
    cases hin
  | guardRead | guardWrite | allocate | storeFree | storeOwner | ending =>
    rw [hp] at h
    rw [show c = _ from h]
    simp only [spent, cost]
    omega
  | markRead | copyRo | copyRead | markWrite | copyWrite =>
    rw [hp] at h
    obtain ⟨rfl, hle⟩ := h
    simp only [spent, cost]
    omega
  | casDirty | listMove =>
    rw [hp] at h
    have := cost_of_segment (h.1.trans_ne (Option.some_ne_none _))
    simp only [spent]
    omega
  | readHead =>
    rw [hp] at h
    have := cost_of_segment h.2
    simp only [spent]
    omega
  | returning =>
    rw [hp] at h
    have := cost_of_answers h
    simp only [spent]
    omega
  | testOwner d link base | clearWord d link base i | advanceLink d link base =>
    rw [hp] at h ok
    have := cost_of_segment h.2
    have hle := behind_le (r := s.region) ok.1 hn ok.2
    refine ⟨?_, fun hf => by cases hf⟩
    simp only [spent, sweepCost] at hle ⊢
    omega
  | leaveFailed d =>
    rw [hp] at h
    have := cost_of_segment h.2
    refine ⟨?_, fun hf => by cases hf⟩
    simp only [spent]
    omega

/-- While a call lasts its next step is possible. It has taken fewer steps than `cost` if
none of its words was refused; else the rollback adds one sweep of each dirty segment. -/
theorem calls_bounded {size : ℕ} (hs : Reachable (system W size) Lawful s)
    (hc : Lawful s (.call tx c)) (ht : step s (.call tx c) = some t) {es : List (Event W)}
    (hm : Meets (system W size) (OneCall tx) t es) (hr : run (system W size) t es = some u)
    (hin : inCall (u.pc tx) = true) :
    (∃ v, step u (.advance tx) = some v) ∧
      es.countP (advances tx) < cost c + walkCost u.region u.region.dirtySegLinks ∧
      ((u.pc tx).failed = false → es.countP (advances tx) < cost c) := by
  have entered : t = s.goto tx c.entry := by
    rcases step_cases ht with ⟨v, he, -⟩ | ⟨v, d, he, -, rfl⟩ | ⟨v, he, -⟩ <;> cases he
    rfl
  have here : t.pc tx = c.entry := by
    rw [entered]
    exact Function.update_self ..
  have start : Pending c tx t :=
    ⟨step_preserves (reachable_invariant hs) hc ht, by rw [here]; exact Doing.entry c⟩
  have stop := (budget size c tx).known_after start hm hr
  have taken := (budget size c tx).count_le start hm hr hin
  simp only [here, spent_entry, Nat.zero_add] at taken
  obtain ⟨all, unfailed⟩ := spent_lt stop.invariant stop.doing hin
  refine ⟨enabled_of_doing stop.doing hin, taken.trans_lt all, ?_⟩
  intro hf
  exact taken.trans_lt (unfailed hf)

end runs

/-- Transaction 1 has written word 1, and 2 is admitted. -/
def meeting : List (Event ℕ) :=
  [.begin 3, .begin 1, .begin 2, .call 3 .finish, .advance 3, .call 1 (.write 0 1 [7])] ++
    List.replicate 7 (.advance 1)
def met : State ℕ := (run (system ℕ 2) (initial 2) meeting).getD (initial 2)

/-- Transaction 2 is refused at word 1, and 1 allocates a segment while it rolls back. -/
def retreat : List (Event ℕ) :=
  List.replicate 5 (.advance 2) ++ [.call 1 (.alloc 2 true), .advance 1] ++
    List.replicate 3 (.advance 2)
def retreating : State ℕ :=
  (run (system ℕ 2) (met.goto 2 (.guardWrite 0 0 [5, 6])) retreat).getD met

theorem met_reachable : Reachable (system ℕ 2) Lawful met :=
  Reachable.run (.init rfl) meeting (by decide) rfl

theorem calls_bounded_retreating : retreating.region.dirtySegLinks = [0, 1] ∧
    (∃ v, step retreating (.advance 2) = some v) ∧ retreat.countP (advances 2) < 9 + 10 := by
  have hc : Lawful met (.call 2 (.write 0 0 [5, 6])) := by decide
  have hm : Meets (system ℕ 2) (OneCall 2) (met.goto 2 (.guardWrite 0 0 [5, 6])) retreat := by
    decide
  have hr : run (system ℕ 2) (met.goto 2 (.guardWrite 0 0 [5, 6])) retreat = some retreating := rfl
  have h := calls_bounded met_reachable hc rfl hm hr rfl
  exact ⟨rfl, h.1, h.2.1⟩

end BoundedCalls
