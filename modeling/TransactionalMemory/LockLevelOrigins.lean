import TransactionalMemory.LockLevelInvariant

/-! # Where the segments of an epoch come from

With callers that free only old segments or their own, the owner of a new segment is the
transaction that allocated it, and no step changes a read copy before the epoch closes. -/
namespace LockLevel

open TransitionSystem
open BatcherState
open ControlWord
open RegionState

variable {W : Type*}

/-- What the callers promise. -/
def Disciplined (s : State W) (e : Event W) : Prop :=
  Lawful s e ∧ ReadOnlyReads s e ∧ FreesOwnOrOld s e

instance (s : State W) (e : Event W) : Decidable (Disciplined s e) :=
  inferInstanceAs (Decidable (_ ∧ _ ∧ _))

/-- The segment is older than the epoch, or the transaction allocated it itself. -/
def State.mine (s : State W) (tx : Tx) (g : SegId) : Prop :=
  s.hist.allocBy g = none ∨ s.hist.allocBy g = some tx

structure Origin [Zero W] (s : State W) (g : SegId) : Prop where
  new : (s.region.seg g).newlyAlloc = (s.hist.allocBy g).isSome
  old : s.hist.allocBy g = none → (s.region.seg g).read = s.hist.epochStart g
  zero : (s.hist.allocBy g).isSome → ∀ i, (s.region.seg g).read i = 0
  owner : ∀ u, s.hist.allocBy g = some u → (s.region.seg g).owner = u

/-- A transaction inside `tm_free` keeps to the contract. -/
def Pc.freeing (g : SegId) : Pc W → Prop
  | .storeFree x | .storeOwner x => x = g
  | _ => False

structure Origins [Zero W] (s : State W) : Prop where
  seg : ∀ g ∈ s.region.live, Origin s g
  born : ∀ g u, s.hist.allocBy g = some u → g ∈ s.region.live
  freeing : ∀ tx g, (s.pc tx).freeing g → s.mine tx g

variable {s t : State W} {tx : Tx}

theorem Frame.allocBy_live (hf : Frame s t tx) (hl : Lists s) {g : SegId}
    (hg : g ∈ s.region.live) : t.hist.allocBy g = s.hist.allocBy g :=
  hf.allocBy g (Nat.ne_of_lt (hl.fresh g hg))

theorem Local.not_freeing {p q : Pc W} (h : Local s tx p q) (g : SegId) : ¬ q.freeing g := by
  cases h <;> exact id

variable [Zero W]

theorem Origin.same {g : SegId} (h : Origin s g) (hk : Kept (s.region.seg g) (t.region.seg g))
    (ha : t.hist.allocBy g = s.hist.allocBy g) (he : t.hist.epochStart = s.hist.epochStart)
    (ho : ∀ u, s.hist.allocBy g = some u → (t.region.seg g).owner = u) : Origin t g where
  new := by rw [hk.newlyAlloc, ha]; exact h.new
  old hn := by
    rw [hk.read, he]
    exact h.old (ha ▸ hn)
  zero hs := by
    rw [hk.read]
    exact h.zero (ha ▸ hs)
  owner u hu := ho u (ha ▸ hu)

theorem Origins.micro (hm : Micro s tx t) (hi : Invariant s) (h : Origins s) : Origins t := by
  have hf := hm.frame
  have ok := hi.ok tx
  have new := hi.lists.nextSeg_free
  have noAlloc : s.hist.allocBy s.region.nextSeg = none := by
    cases ha : s.hist.allocBy s.region.nextSeg with
    | none => rfl
    | some u => exact (new (h.born _ u ha)).elim
  have kept : ∀ g ∈ s.region.live,
      (∀ u, s.hist.allocBy g = some u → (t.region.seg g).owner = u) → Origin t g :=
    fun g hg ho => (h.seg g hg).same (hf.live_seg hi.lists hg) (hf.allocBy_live hi.lists hg)
      hf.epochStart ho
  have freeing : (∀ g, (t.pc tx).freeing g → t.mine tx g) →
      ∀ u g, (t.pc u).freeing g → t.mine u g := by
    intro htx u g hu
    by_cases he : u = tx
    · subst u
      exact htx g hu
    · rw [hf.elsewhere u he] at hu
      have hg : g ∈ s.region.live := by
        have oku := hi.ok u
        cases hp : s.pc u <;> rw [hp] at hu oku <;> cases hu <;> exact oku
      rw [State.mine, hf.allocBy_live hi.lists hg]
      exact h.freeing u g hu
  have born : t.hist.allocBy = s.hist.allocBy → ∀ g u, t.hist.allocBy g = some u →
      g ∈ t.region.live := fun he g u hu => hf.live (h.born g u (he ▸ hu))
  cases hm with
  | pcOnly hl =>
    refine ⟨fun g hg => kept g hg (h.seg g hg).owner, born rfl, freeing fun g hg => ?_⟩
    simp only [State.goto, Function.update_self] at hg
    exact (hl.not_freeing g hg).elim
  | listMove hp =>
    refine ⟨fun g hg => kept g hg (h.seg g hg).owner, born rfl, freeing fun g hg => ?_⟩
    simp [State.goto, Pc.freeing] at hg
  | passRead hp | passWrite hp | copyWord hp | winDirty hp | ownRollback hp | restoreWord hp =>
    refine ⟨fun g hg => kept g hg fun u hu => ?_, born rfl, freeing fun g hg => ?_⟩
    · exact (update_proj Segment.owner (by rfl) g).trans ((h.seg g hg).owner u hu)
    · simp [State.goto, Pc.freeing] at hg
  | @storeFree x hp =>
    refine ⟨fun g hg => kept g hg fun u hu => ?_, born rfl, freeing fun g hg => ?_⟩
    · exact (update_proj Segment.owner (by rfl) g).trans ((h.seg g hg).owner u hu)
    · exact h.freeing tx g (by simpa [hp, State.goto, Pc.freeing] using hg)
  | @storeOwner x hp =>
    refine ⟨fun g hg => kept g hg fun u hu => ?_, born rfl, freeing fun g hg => ?_⟩
    · by_cases hx : g = x
      · subst g
        rw [setSeg_at]
        have := h.freeing tx x (by simp [hp, Pc.freeing])
        rw [State.mine, hu] at this
        simpa [eq_comm] using this
      · rw [setSeg_off _ _ _ _ hx]
        exact (h.seg g hg).owner u hu
    · simp [State.goto, Pc.freeing] at hg
  | @allocate size hp =>
    have self : ((s.allocate tx size).goto tx
        (.returning (.allocated s.region.nextSeg))).region.seg s.region.nextSeg =
          allocSegment size tx := Region.setSeg_same _ _ _
    have by_tx : ((s.allocate tx size).goto tx
        (.returning (.allocated s.region.nextSeg))).hist.allocBy s.region.nextSeg = some tx :=
      Function.update_self _ _ _
    refine ⟨fun g hg => ?_, fun g u hu => ?_, freeing fun g hg => ?_⟩
    · by_cases hn : g = s.region.nextSeg
      · subst g
        refine ⟨by rw [self, by_tx]; rfl, fun he => by simp [by_tx] at he, ?_, ?_⟩
        · exact fun _ _ => by rw [self]; rfl
        · intro u hu
          rw [by_tx, Option.some.injEq] at hu
          rw [self, ← hu]
          rfl
      · have hold : g ∈ s.region.live := Finset.mem_of_mem_insert_of_ne hg hn
        refine kept g hold fun u hu => ?_
        rw [show ((s.allocate tx size).goto tx
          (.returning (.allocated s.region.nextSeg))).region.seg g = s.region.seg g from
          Region.setSeg_other _ _ _ hn]
        exact (h.seg g hold).owner u hu
    · by_cases hn : g = s.region.nextSeg
      · subst g
        exact Finset.mem_insert_self _ _
      · rw [hf.allocBy g hn] at hu
        exact hf.live (h.born g u hu)
    · simp [State.goto, Pc.freeing] at hg

theorem Origins.boundary {p q : Pc W} (h : Origins s) (hr : Relabel s t tx p q)
    (hb : Boundary Disciplined s tx p q) : Origins t where
  seg g hg := by
    have := h.seg g (hr.live ▸ hg)
    refine this.same (by rw [hr.seg]; exact Kept.refl _) (by rw [hr.allocBy]) hr.epochStart ?_
    rw [hr.seg]
    exact this.owner
  born g u hu := by
    rw [hr.live]
    exact h.born g u (hr.allocBy ▸ hu)
  freeing u g hu := by
    rw [State.mine, hr.allocBy]
    by_cases hut : u = tx
    · subst u
      have hq : q.freeing g := by simpa [hr.pc] using hu
      cases hb with
      | @call c hc =>
        cases c with
        | free x =>
          cases hq
          exact hc.2.2
        | _ => exact hq.elim
      | _ => exact hq.elim
    · exact h.freeing u g (by simpa [hr.pc, hut] using hu)

theorem Origins.close {p : Pc W} (hc : Closing s tx p) (hi : Invariant s) :
    Origins (leave s tx p) where
  seg g hg := by
    have hq := hc.quiescent hi hg
    refine ⟨?_, ?_, ?_, ?_⟩ <;> rw [hc.hist]
    · exact hq.newlyAlloc
    · intro _
      rw [Ledger.leave_closing hc.last]
      rfl
    · intro hs
      cases hs
    · intro u hu
      cases hu
  born g u hu := by
    rw [hc.hist] at hu
    cases hu
  freeing u g hu := by
    rw [State.mine, hc.hist]
    exact .inl rfl

theorem initial_origins (size : ℕ) : Origins (initial size : State W) :=
  ⟨fun _ _ => ⟨rfl, fun _ => rfl, nofun, nofun⟩, nofun, fun _ _ _ => .inl rfl⟩

/-- The rule for further invariants, with `Origins` known along the run. -/
theorem disciplined_with {size : ℕ} {J : State W → Prop} (start : J (initial size))
    (micro : ∀ s t tx, Invariant s → Origins s → J s → Micro s tx t → J t)
    (boundary : ∀ s t tx p q, Invariant s → J s → Relabel s t tx p q →
      Boundary Disciplined s tx p q → J t)
    (close : ∀ s tx p, Invariant s → J s → Closing s tx p → J (leave s tx p))
    (h : Reachable (system W size) Disciplined s) : J s := by
  refine (reachable_with (J := fun s => Origins s ∧ J s) (fun _ _ hc => hc.1)
    ⟨initial_origins size, start⟩ ?_ ?_ ?_ h).2
  · exact fun s t tx hi hj _ hm => ⟨hj.1.micro hm hi, micro s t tx hi hj.1 hj.2 hm⟩
  · exact fun s t tx p q hi hj hr hb => ⟨hj.1.boundary hr hb, boundary s t tx p q hi hj.2 hr hb⟩
  · exact fun s tx p hi hj hc => ⟨.close hc hi, close s tx p hi hj.2 hc⟩

end LockLevel
