import TransactionalMemory.LockLevelOrigins

/-! # The call that a transaction is in

Once the words of a read are copied, the program counter no longer says how many were asked
for. Here every transaction keeps the last call it made; no step reads it. What a call
returns is an answer to it: a read of `n` words returns `n` words of its own segment. -/
namespace PendingCalls

open TransitionSystem
open BatcherState
open ControlWord
open RegionState
open LockLevel

variable {W : Type*}

def inCall : Pc W → Bool
  | .outside | .waiting | .idle | .committed | .aborted => false
  | _ => true

/-- The segment that a call names. -/
def segmentOf : Call W → Option SegId
  | .read g .. | .write g .. | .free g => some g
  | .alloc .. | .finish => none

/-- What a call that does not fail may return. -/
def Answers : Call W → Return W → Prop
  | .read g k n, .read g' k' target => g' = g ∧ k' = k ∧ target.length = n
  | .write .., .wrote | .free _, .freed | .alloc _ true, .allocated _ | .alloc _ false, .nomem =>
    True
  | _, _ => False

/-- The program counter belongs to the call `c`. -/
def Doing (c : Call W) : Pc W → Prop
  | .guardRead g k n => c = .read g k n
  | .markRead g k n i => c = .read g k n ∧ i ≤ n
  | .copyRo g k n target | .copyRead g k n target => c = .read g k n ∧ target.length ≤ n
  | .guardWrite g k src => c = .write g k src
  | .markWrite g k src i => c = .write g k src ∧ i ≤ src.length
  | .copyWrite g k src i => c = .write g k src ∧ i < src.length
  | .allocate size ok => c = .alloc size ok
  | .storeFree g | .storeOwner g => c = .free g
  | .casDirty g ret | .listMove g ret => segmentOf c = some g ∧ Answers c ret
  | .returning ret => Answers c ret
  | .readHead d | .testOwner d .. | .clearWord d .. | .advanceLink d .. | .leaveFailed d =>
    d = c ∧ segmentOf c ≠ none
  | .ending => c = .finish
  | .outside | .waiting | .idle | .committed | .aborted => True

/-- What the steps of others leave of the dirty list to a transaction that walks along it. -/
structure Grows (r r' : Region W) : Prop where
  links : r.dirtySegLinks <+: r'.dirtySegLinks
  size : ∀ g ∈ r.dirtySegLinks, (r'.seg g).size = (r.seg g).size

/-! ### Steps of the transaction -/

section own

variable {s t : LockLevel.State W} {tx u : Tx} {c : Call W} {p q : Pc W}

theorem Doing.entry (c : Call W) : Doing c c.entry := by
  cases c <;> rfl

theorem Doing.outside (h : inCall p = false) : Doing c p := by
  cases p <;> trivial

theorem Doing.local (h : Doing c p) (hl : Local s tx p q) : Doing c q := by
  cases hl with
  | conflictRead | conflictWrite | tooFar =>
    rw [show c = _ from h]
    exact ⟨rfl, by simp [segmentOf]⟩
  | refusedRead | refusedWrite =>
    rw [h.1]
    exact ⟨rfl, by simp [segmentOf]⟩
  | readOnly | startRead | startWrite => exact ⟨h, Nat.zero_le _⟩
  | marked => exact ⟨h.1, Nat.zero_le _⟩
  | fetchRo hlt | fetch hlt =>
    refine ⟨h.1, ?_⟩
    rw [List.length_append, List.length_singleton]
    exact hlt
  | doneRo hge =>
    rw [h.1]
    exact ⟨rfl, rfl, Nat.le_antisymm h.2 hge⟩
  | done hge =>
    rw [h.1]
    exact ⟨rfl, rfl, rfl, Nat.le_antisymm h.2 hge⟩
  | stored =>
    rw [h.1]
    exact ⟨rfl, trivial⟩
  | nomem =>
    rw [show c = _ from h]
    trivial
  | alreadyDirty => exact h.2
  | returned => trivial
  | noDirty | head | notOwner | skipWord | cleared | walked | nextLink => exact h

theorem inCall_local (hl : Local s tx p q) : inCall p = true := by
  cases hl <;> rfl

theorem grows_frame (hf : Frame s t u) (hl : Lists s) : Grows s.region t.region :=
  ⟨hf.dirtySegLinks, fun g hg => (hf.live_seg hl ((hl.live g).mpr (.inr hg))).size⟩

theorem grows_relabel (hr : Relabel s t u p q) : Grows s.region t.region :=
  ⟨by rw [hr.dirtySegLinks], fun g _ => by rw [hr.seg]⟩

variable [Zero W]

theorem Doing.micro (h : Doing c (s.pc tx)) (hm : Micro s tx t) : Doing c (t.pc tx) := by
  cases hm with
  | pcOnly hl => simpa [State.goto] using h.local hl
  | passRead hp hlt | passWrite hp hlt =>
    rw [hp] at h
    simp only [State.goto, Function.update_self]
    exact ⟨h.1, hlt⟩
  | copyWord hp | storeFree hp | winDirty hp | ownRollback hp | restoreWord hp =>
    rw [hp] at h
    simp only [State.goto, Function.update_self]
    exact h
  | allocate hp =>
    rw [hp] at h
    simp only [State.goto, Function.update_self, show c = _ from h]
    trivial
  | storeOwner hp =>
    rw [hp] at h
    simp only [State.goto, Function.update_self, show c = _ from h]
    exact ⟨rfl, trivial⟩
  | listMove hp =>
    rw [hp] at h
    simp only [State.goto, Function.update_self]
    exact h.2

theorem inCall_micro (hm : Micro s tx t) : inCall (s.pc tx) = true := by
  cases hm with
  | pcOnly hl => exact inCall_local hl
  | passRead hp | passWrite hp | copyWord hp | allocate hp | storeFree hp | storeOwner hp
  | winDirty hp | listMove hp | ownRollback hp | restoreWord hp =>
    rw [hp]
    rfl

end own

/-! ### What a transaction has to do with a step -/

inductive Part [Zero W] (s t : LockLevel.State W) (tx : Tx) : Event W → Prop where
  | own : Micro s tx t → Part s t tx (.advance tx)
  | called {c} : t.pc tx = c.entry → Part s t tx (.call tx c)
  | ended {e} : (∀ c, e ≠ .call tx c) → inCall (t.pc tx) = false → Part s t tx e
  | elsewhere {e} : (∀ c, e ≠ .call tx c) → e ≠ .advance tx → t.pc tx = s.pc tx →
      Grows s.region t.region → Part s t tx e

section part

variable [Zero W] {s t : LockLevel.State W} {tx v : Tx} {e : Event W} {p q : Pc W}

/-- A move of `v` to a place outside the calls. -/
theorem Part.relabel (hr : Relabel s t v p q) (hq : inCall q = false)
    (he : ∀ c, e ≠ .call tx c) (hv : v ≠ tx → e ≠ .advance tx) : Part s t tx e := by
  by_cases hx : v = tx
  · apply Part.ended he
    rw [hr.pc, ← hx, Function.update_self]
    exact hq
  · apply Part.elsewhere he (hv hx)
    · rw [hr.pc, Function.update_of_ne (Ne.symm hx)]
    · exact grows_relabel hr

theorem part_of_step (hi : Invariant s) (h : LockLevel.step s e = some t) (tx : Tx) :
    Part s t tx e := by
  rcases step_cases h with ⟨v, rfl, hp, rfl⟩ | ⟨v, c, rfl, hp, rfl⟩ | ⟨v, rfl, h⟩
  · obtain ⟨q, hr, hb⟩ := begin_relabel Lawful hp
    apply Part.relabel hr
    · cases hb <;> rfl
    · simp
    · simp
  · by_cases hv : v = tx
    · subst hv
      exact .called (Function.update_self ..)
    · exact .elsewhere (by simp [hv]) (by simp) (Function.update_of_ne (Ne.symm hv) ..)
        (grows_relabel (call_relabel hp))
  · rcases advance_cases (hi.settled v) h with hm | hleave
    · by_cases hv : v = tx
      · exact hv ▸ .own hm
      · exact .elsewhere (by simp) (by simp [hv]) (hm.frame.elsewhere tx (Ne.symm hv))
          (grows_frame hm.frame hi.lists)
    · obtain ⟨p, rfl, -, -, hq, hclose⟩ := Closing.of_leave hleave
      have hout : inCall p = false := by
        rcases hq with rfl | rfl <;> rfl
      cases hl : lastToLeave s.region.batcher with
      | false => exact .relabel (stay_relabel p hl) hout (by simp) (by simp)
      | true =>
        apply Part.ended (by simp)
        rcases (hclose hl).idle hi tx with h | h
        · rw [h]
          rfl
        · cases hp : (leave s v p).pc tx with
          | outside | waiting | committed | aborted => rfl
          | _ =>
            rw [hp] at h
            cases h

end part

/-! ### Runs -/

structure State (W : Type*) where
  lock : LockLevel.State W
  pending : Tx → Option (Call W)

def initial [Zero W] (size : ℕ) : State W := ⟨LockLevel.initial size, fun _ => none⟩

def State.after (s : State W) (t : LockLevel.State W) : Event W → State W
  | .begin _ | .advance _ => ⟨t, s.pending⟩
  | .call tx c => ⟨t, Function.update s.pending tx (some c)⟩

def step [Zero W] (s : State W) (e : Event W) : Option (State W) :=
  (LockLevel.step s.lock e).map fun t => s.after t e

abbrev system (W : Type*) [Zero W] (size : ℕ) : System (State W) (Event W) :=
  ⟨fun s => s = initial size, step⟩

/-- Who is inside a call is inside the pending one. -/
def During (c : Option (Call W)) (p : Pc W) : Prop :=
  inCall p = true → ∃ d, c = some d ∧ Doing d p

section runs

variable {s : State W} {t : LockLevel.State W} {e : Event W} {tx : Tx} {c : Option (Call W)}

@[simp] theorem after_lock (s : State W) (t : LockLevel.State W) (e : Event W) :
    (s.after t e).lock = t := by
  cases e <;> rfl

theorem after_pending (he : ∀ c, e ≠ .call tx c) : (s.after t e).pending tx = s.pending tx := by
  cases e with
  | begin | advance => rfl
  | call u c =>
    have hu : tx ≠ u := fun h => he c (by rw [h])
    exact Function.update_of_ne hu ..

theorem During.outside {p : Pc W} (h : inCall p = false) : During c p := by
  intro hin
  rw [h] at hin
  cases hin

/-- A return answers the call that its transaction made. -/
theorem During.answers {ret : Return W} (h : During c (.returning ret)) :
    ∃ d, c = some d ∧ Answers d ret := h rfl

variable [Zero W]

theorem During.micro {s t : LockLevel.State W} (hm : Micro s tx t) (h : During c (s.pc tx)) :
    During c (t.pc tx) := by
  intro _
  obtain ⟨d, hd, hdoing⟩ := h (inCall_micro hm)
  exact ⟨d, hd, hdoing.micro hm⟩

/-- Every transaction keeps to its pending call. -/
theorem during_step (hi : Invariant s.lock) (h : ∀ tx, During (s.pending tx) (s.lock.pc tx))
    (ht : LockLevel.step s.lock e = some t) (tx : Tx) :
    During ((s.after t e).pending tx) (t.pc tx) := by
  cases part_of_step hi ht tx with
  | own hm => exact (h tx).micro hm
  | @called c hp =>
    intro _
    refine ⟨c, Function.update_self .., ?_⟩
    rw [hp]
    exact Doing.entry c
  | ended _ hout => exact .outside hout
  | elsewhere hcall _ hp =>
    rw [after_pending hcall, hp]
    exact h tx

variable {P : LockLevel.State W → Event W → Prop} {size : ℕ}

theorem lock_reachable (h : Reachable (system W size) (fun s e => P s.lock e) s) :
    Reachable (LockLevel.system W size) P s.lock := by
  refine h.project (fun s => s.lock) ?_ fun s e t hc ht => ?_
  · rintro s rfl
    rfl
  · obtain ⟨t', ht', rfl⟩ := Option.map_eq_some_iff.mp ht
    exact ⟨e, hc, by rw [after_lock]; exact ht'⟩

theorem reachable_during (lawful : ∀ s e, P s e → Lawful s e)
    (h : Reachable (system W size) (fun s e => P s.lock e) s) (tx : Tx) :
    During (s.pending tx) (s.lock.pc tx) := by
  induction h generalizing tx with
  | init hs =>
    cases hs
    exact .outside rfl
  | @step s e t hr hc ht ih =>
    obtain ⟨t', ht', rfl⟩ := Option.map_eq_some_iff.mp ht
    rw [after_lock]
    exact during_step (reachable_invariant ((lock_reachable hr).mono lawful)) ih ht' tx

end runs

end PendingCalls
