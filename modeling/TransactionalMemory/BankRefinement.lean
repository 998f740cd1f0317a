import TransactionalMemory.BankClosures

/-! # The bank in shared memory

How the segments of the bank lie in plain memory, and that each closure does on the words what
its transaction does on the segments. -/
namespace BankRefinement

open RegionState
open PlainMemory hiding Memory
open CommittedPointers
open BankWorkload hiding deallocate allocate allocNext freeNext transfer step system init
open Closures
open ClosureCode
open BankClosures

/-- The words of a segment, which is not freed. -/
structure Laid (n : ℕ) (s : AccountSegment SegId) (b : Block (Word ℤ)) : Prop where
  size : b.size = AccountSegment.size n
  kept : b.freed = false
  count : b.word 0 = .data s.count
  next : b.word 1 = ofPointer s.next
  parity : b.word 2 = .data s.parity
  accounts : ∀ i < n, b.word (3 + i) = .data (s.accounts i)

/-- The segments of the bank are in memory, and there are other addresses. -/
structure Rep (k : Constants) (a : Memory SegId) (m : PlainMemory.Memory (Word ℤ)) : Prop where
  start : a.start = 0
  laid : ∀ g s, a.seg g = some s → ∃ b, m g = some b ∧ Laid k.nbaccounts s b
  room : ∃ n, ∀ g, n ≤ g → m g = none

variable {k : Constants} {a a' : Memory SegId} {m : PlainMemory.Memory (Word ℤ)} {g : SegId}
variable {s e : AccountSegment SegId} {b : Block (Word ℤ)} {n : ℕ} {v : ℤ}

@[simp] theorem asPointer_ofPointer (p : Option SegId) : asPointer (ofPointer p) = p := by
  cases p <;> rfl

@[simp] theorem asSize_data (n : ℕ) : asSize (.data n) = n := Int.toNat_natCast n

namespace Laid

theorem zeroed (n : ℕ) : Laid n .zeroed (.zero (AccountSegment.size n)) :=
  ⟨rfl, rfl, rfl, rfl, rfl, fun _ _ => rfl⟩

variable (h : Laid n s b)
include h

theorem setCount (c : ℕ) : Laid n { s with count := c }
    { b with word := Function.update b.word 0 (.data c) } where
  size := h.size
  kept := h.kept
  count := by simp
  next := by simpa using h.next
  parity := by simpa using h.parity
  accounts i hi := by simpa using h.accounts i hi

theorem setNext (p : Option SegId) : Laid n { s with next := p }
    { b with word := Function.update b.word 1 (ofPointer p) } where
  size := h.size
  kept := h.kept
  count := by simpa using h.count
  next := by simp
  parity := by simpa using h.parity
  accounts i hi := by simpa [show 3 + i ≠ 1 by omega] using h.accounts i hi

theorem setParity (v : ℤ) : Laid n { s with parity := v }
    { b with word := Function.update b.word 2 (.data v) } where
  size := h.size
  kept := h.kept
  count := by simpa using h.count
  next := by simpa using h.next
  parity := by simp
  accounts i hi := by simpa [show 3 + i ≠ 2 by omega] using h.accounts i hi

theorem setAccount (j : ℕ) (v : ℤ) :
    Laid n { s with accounts := Function.update s.accounts j v }
      { b with word := Function.update b.word (3 + j) (.data v) } where
  size := h.size
  kept := h.kept
  count := by simpa [show 0 ≠ 3 + j by omega] using h.count
  next := by simpa [show 1 ≠ 3 + j by omega] using h.next
  parity := by simpa [show 2 ≠ 3 + j by omega] using h.parity
  accounts i hi := by
    by_cases hj : i = j
    · simp [hj]
    · simpa [hj, show 3 + i ≠ 3 + j by omega] using h.accounts i hi

end Laid

namespace Rep

theorem room_update {m : PlainMemory.Memory (Word ℤ)} (h : ∃ n, ∀ g, n ≤ g → m g = none)
    (g : SegId) (c : Option (Block (Word ℤ))) :
    ∃ n, ∀ x, n ≤ x → Function.update m g c x = none := by
  obtain ⟨n, hn⟩ := h
  refine ⟨max n (g + 1), fun x hx => ?_⟩
  have hg : g + 1 ≤ x := (le_max_right _ _).trans hx
  rw [Function.update_of_ne (Nat.ne_of_gt hg)]
  exact hn x ((le_max_left _ _).trans hx)

variable (h : Rep k a m)
include h

theorem put (he : Laid k.nbaccounts e b) :
    Rep k (a.put g (some e)) (Function.update m g (some b)) where
  start := h.start
  laid x s hs := by
    by_cases hx : x = g
    · subst x
      rw [put_seg_self, Option.some.injEq] at hs
      subst s
      exact ⟨b, Function.update_self _ _ _, he⟩
    · rw [put_seg_of_ne hx] at hs
      rw [Function.update_of_ne hx]
      exact h.laid x s hs
  room := room_update h.room g _

theorem drop : Rep k (a.put g none) (Function.update m g (some b)) where
  start := h.start
  laid x s hs := by
    by_cases hx : x = g
    · subst x
      simp at hs
    · rw [put_seg_of_ne hx] at hs
      rw [Function.update_of_ne hx]
      exact h.laid x s hs
  room := room_update h.room g _

theorem unused (hm : m g = none) : a.seg g = none := by
  cases hs : a.seg g with
  | none => rfl
  | some s =>
    obtain ⟨b, hb, -⟩ := h.laid g s hs
    rw [hm] at hb
    cases hb

theorem fresh : ∃ g, a.seg g = none := by
  obtain ⟨n, hn⟩ := h.room
  exact ⟨n, h.unused (hn n le_rfl)⟩

theorem endEpoch : Rep k a (PlainMemory.endEpoch m) where
  start := h.start
  laid g s hs := by
    obtain ⟨b, hb, hlaid⟩ := h.laid g s hs
    refine ⟨b, ?_, hlaid⟩
    rw [PlainMemory.endEpoch, hb]
    simp [Option.filter, hlaid.kept]
  room := by
    obtain ⟨n, hn⟩ := h.room
    refine ⟨n, fun g hg => ?_⟩
    rw [PlainMemory.endEpoch, hn g hg]
    rfl

end Rep

/-- The rounds of the inner loops begin with a call, or return. -/
theorem proper_longAccounts (g : SegId) (segmentCount i count : ℕ) (sum : ℤ) :
    ((source k).body (.longAccounts g segmentCount i count sum)).Proper := by
  change (longAccountsRound k g segmentCount i count sum).Proper
  rw [longAccountsRound]
  split_ifs <;> trivial

theorem proper_fillAccounts (i : ℕ) : ((source k).body (.fillAccounts i)).Proper := by
  change (fillAccountsRound k i).Proper
  rw [fillAccountsRound]
  split_ifs <;> trivial

/-! ### Reads and writes of fields -/

section Fields

variable {isRo : Bool} {Q : Result → PlainMemory.Memory (Word ℤ) → Prop} {captured : Captured}
variable {code : BankCode} {p : SegId × ℕ}

namespace Rep

variable (h : Rep k a m)
include h

theorem readCount {next : ℕ → BankCode} (hs : a.seg g = some s)
    (hn : Runs (source k) isRo Q captured (next s.count) m) :
    Runs (source k) isRo Q captured (readCount g next) m := by
  obtain ⟨b, hb, hlaid⟩ := h.laid g s hs
  refine Runs.read hb (by rw [hlaid.size, AccountSegment.size]; omega) ?_
  rwa [hlaid.count, asSize_data]

theorem readNext {next : Option SegId → BankCode} (hs : a.seg g = some s)
    (hn : Runs (source k) isRo Q captured (next s.next) m) :
    Runs (source k) isRo Q captured (readNext g next) m := by
  obtain ⟨b, hb, hlaid⟩ := h.laid g s hs
  refine Runs.read hb (by rw [hlaid.size, AccountSegment.size]; omega) ?_
  rwa [hlaid.next, asPointer_ofPointer]

theorem readParity {next : ℤ → BankCode} (hs : a.seg g = some s)
    (hn : Runs (source k) isRo Q captured (next s.parity) m) :
    Runs (source k) isRo Q captured (readParity g next) m := by
  obtain ⟨b, hb, hlaid⟩ := h.laid g s hs
  refine Runs.read hb (by rw [hlaid.size, AccountSegment.size]; omega) ?_
  rwa [hlaid.parity]

theorem readBalance {next : ℤ → BankCode} (hv : readAccount k a p = .ok v)
    (hn : Runs (source k) isRo Q captured (next v) m) :
    Runs (source k) isRo Q captured (readBalance p next) m := by
  simp only [readAccount, bind_eq_ok, read_eq_ok] at hv
  obtain ⟨s, hs, hv⟩ := hv
  split_ifs at hv with hp
  · obtain ⟨b, hb, hlaid⟩ := h.laid p.1 s hs
    refine Runs.read hb (by rw [hlaid.size, AccountSegment.size]; omega) ?_
    rw [pure_eq_ok] at hv
    rwa [hlaid.accounts _ hp, hv]

theorem writeCount {c : ℕ} (hro : isRo = false) (hs : a.seg g = some s)
    (hn : ∀ m', Rep k (a.put g (some { s with count := c })) m' →
      Runs (source k) isRo Q captured code m') :
    Runs (source k) isRo Q captured (writeCount g c code) m := by
  obtain ⟨b, hb, hlaid⟩ := h.laid g s hs
  refine Runs.write hro hb (by rw [hlaid.size, AccountSegment.size]; omega) ?_
  exact hn _ (h.put (hlaid.setCount c))

theorem writeNext {q : Option SegId} (hro : isRo = false) (hs : a.seg g = some s)
    (hn : ∀ m', Rep k (a.put g (some { s with next := q })) m' →
      Runs (source k) isRo Q captured code m') :
    Runs (source k) isRo Q captured (writeNext g q code) m := by
  obtain ⟨b, hb, hlaid⟩ := h.laid g s hs
  refine Runs.write hro hb (by rw [hlaid.size, AccountSegment.size]; omega) ?_
  exact hn _ (h.put (hlaid.setNext q))

theorem writeParity (hro : isRo = false) (hs : a.seg g = some s)
    (hn : ∀ m', Rep k (a.put g (some { s with parity := v })) m' →
      Runs (source k) isRo Q captured code m') :
    Runs (source k) isRo Q captured (writeParity g v code) m := by
  obtain ⟨b, hb, hlaid⟩ := h.laid g s hs
  refine Runs.write hro hb (by rw [hlaid.size, AccountSegment.size]; omega) ?_
  exact hn _ (h.put (hlaid.setParity v))

theorem writeBalance (hro : isRo = false) (hw : writeAccount k a p v = .ok a')
    (hn : ∀ m', Rep k a' m' → Runs (source k) isRo Q captured code m') :
    Runs (source k) isRo Q captured (writeBalance p v code) m := by
  rw [writeAccount] at hw
  split_ifs at hw with hp
  · rw [write_eq_ok] at hw
    obtain ⟨s, hs, rfl⟩ := hw
    obtain ⟨b, hb, hlaid⟩ := h.laid p.1 s hs
    refine Runs.write hro hb (by rw [hlaid.size, AccountSegment.size]; omega) ?_
    exact hn _ (h.put (hlaid.setAccount p.2 v))

/-! ### The transaction `alloc_tx` -/

theorem freeNext (hf : BankWorkload.freeNext k a g = .ok a')
    (hn : ∀ m', Rep k a' m' → Runs (source k) false Q captured code m') :
    Runs (source k) false Q captured (BankClosures.freeNext k g code) m := by
  simp only [BankWorkload.freeNext, bind_eq_ok, read_eq_ok] at hf
  obtain ⟨s, hs, hf⟩ := hf
  cases hnext : s.next with
  | none => simp [hnext] at hf
  | some target =>
    simp only [hnext, bind_eq_ok, read_eq_ok, write_eq_ok] at hf
    obtain ⟨d, hd, e, he, rfl⟩ := hf
    obtain ⟨b, hb, -⟩ := h.laid target d hd
    have hfree : Runs (source k) false Q captured (freeAfter g code) m := by
      refine h.readNext hs ?_
      rw [hnext]
      exact Runs.free rfl hb (h.drop.writeNext rfl he hn)
    rw [BankClosures.freeNext]
    split_ifs
    · refine h.readNext hs ?_
      rw [hnext]
      exact hfree
    · exact hfree

theorem allocNext (hs : a.seg g = some s) (hnext : s.next = none) {next : SegId → BankCode}
    (hn : ∀ fresh m', a.seg fresh = none →
      Rep k ((a.put fresh (some .zeroed)).put g (some { s with next := some fresh })) m' →
      Runs (source k) false Q captured (next fresh) m') (hnomem : Q .nomem m) :
    Runs (source k) false Q captured (BankClosures.allocNext k g next) m := by
  have halloc : Runs (source k) false Q captured (allocAfter k g next) m := by
    refine Runs.alloc rfl (fun fresh hm => ?_) (Runs.ret hnomem)
    have hfresh := h.unused hm
    have hne : g ≠ fresh := by
      rintro rfl
      rw [hs] at hfresh
      cases hfresh
    refine (h.put (Laid.zeroed k.nbaccounts)).writeNext rfl ?_ fun m' => hn fresh m' hfresh
    rw [put_seg_of_ne hne, hs]
  rw [BankClosures.allocNext]
  split_ifs
  · refine h.readNext hs ?_
    rw [hnext]
    exact halloc
  · exact halloc

theorem deallocate {prev : Option SegId} {count : ℕ} (hs : a.seg g = some s)
    (hc : s.count = count + 1) (hd : BankWorkload.deallocate k a prev g = .ok a')
    (hQ : ∀ m', Rep k a' m' → Q .void m') :
    Runs (source k) false Q captured (BankClosures.deallocate k prev g count) m := by
  simp only [BankWorkload.deallocate, bind_eq_ok, read_eq_ok] at hd
  obtain ⟨d, hd', hd⟩ := hd
  rw [hs, Option.some.injEq] at hd'
  subst d
  simp only [hc, bind_eq_ok] at hd
  obtain ⟨balance, hbalance, hd⟩ := hd
  refine h.readParity hs (h.readBalance hbalance ?_)
  by_cases hpos : 0 < count
  · rw [if_pos hpos] at hd ⊢
    simp only [bind_eq_ok, write_eq_ok] at hd
    obtain ⟨t, ⟨d, hd', rfl⟩, e, he, rfl⟩ := hd
    rw [hs, Option.some.injEq] at hd'
    subst d
    exact h.writeCount rfl hs fun m₁ h₁ => h₁.writeParity rfl he fun m₂ h₂ => Runs.ret (hQ m₂ h₂)
  · rw [if_neg hpos] at hd ⊢
    cases prev with
    | none => simp at hd
    | some prev =>
      simp only [bind_eq_ok, write_eq_ok] at hd
      obtain ⟨t, hfree, e, he, rfl⟩ := hd
      refine h.freeNext hfree fun m₁ h₁ => h₁.readParity he ?_
      exact h₁.writeParity rfl he fun m₂ h₂ => Runs.ret (hQ m₂ h₂)

theorem allocate (hk : 0 < k.nbaccounts) (hs : a.seg g = some s) (hnext : s.next = none)
    (hQ : ∀ fresh a' m', a.seg fresh = none → BankWorkload.allocate k a g fresh = .ok a' →
      Rep k a' m' → Q .void m') (hnomem : Q .nomem m) :
    Runs (source k) false Q captured (BankClosures.allocate k g s.count) m := by
  rw [BankClosures.allocate]
  split_ifs with hc
  · obtain ⟨fresh, hfresh⟩ := h.fresh
    have hwrite := writeAccount_eq (k := k) (p := (g, s.count)) (v := k.initBalance) hs hc
    refine h.writeBalance rfl hwrite fun m₁ h₁ => ?_
    refine h₁.writeCount rfl put_seg_self fun m₂ h₂ => Runs.ret ?_
    refine hQ fresh _ m₂ hfresh (allocate_account hs hc) ?_
    simpa [enlarged] using h₂
  · refine h.allocNext hs hnext (fun fresh m₁ hfresh h₁ => ?_) hnomem
    have hne : g ≠ fresh := by
      rintro rfl
      rw [hs] at hfresh
      cases hfresh
    have hzero : ((a.put fresh (some .zeroed)).put g
        (some { s with next := some fresh })).seg fresh = some .zeroed := by
      rw [put_seg_of_ne hne.symm, put_seg_self]
    refine h₁.writeCount rfl hzero fun m₂ h₂ => ?_
    refine h₂.writeBalance rfl (writeAccount_eq put_seg_self hk) fun m₃ h₃ => Runs.ret ?_
    refine hQ fresh _ m₃ hfresh (allocate_segment hs hc hk hnext hne) ?_
    have heq : (((a.put fresh (some .zeroed)).put g (some { s with next := some fresh })).put fresh
        (some { AccountSegment.zeroed with count := 1 })).put fresh
          (some (enlarged k .zeroed)) = (a.put g (some { s with next := some fresh })).put fresh
            (some (enlarged k .zeroed)) := by
      rw [put_put, put_comm hne.symm, put_put]
    rw [← heq]
    exact h₃

/-- The address of the new segment is not chosen before the loop gets to the end. -/
theorem allocLoop {trigger fuel count : ℕ} {prev : Option SegId} (hk : 0 < k.nbaccounts)
    (hset : ∀ fresh, a.seg fresh = none →
      ∃ a', BankWorkload.allocLoop k trigger fresh a fuel count prev g = .ok a')
    (hQ : ∀ fresh a' m', a.seg fresh = none →
      BankWorkload.allocLoop k trigger fresh a fuel count prev g = .ok a' → Rep k a' m' →
      Q .void m') (hnomem : Q .nomem m) :
    Runs (source k) false Q captured (allocRound k trigger count prev g) m := by
  obtain ⟨fresh, hfresh⟩ := h.fresh
  induction fuel generalizing count prev g with
  | zero =>
    obtain ⟨a', ha'⟩ := hset fresh hfresh
    simp [BankWorkload.allocLoop] at ha'
  | succ fuel ih =>
    simp only [BankWorkload.allocLoop, bind_eq_ok, read_eq_ok] at hset hQ
    obtain ⟨a', s, hs, ha'⟩ := hset fresh hfresh
    refine h.readCount hs (h.readNext hs ?_)
    cases hnext : s.next with
    | some next =>
      refine Runs.goto trivial (ih (fun fresh hf => ?_) fun fresh a' m' hf ha' => ?_)
      · obtain ⟨a', t, ht, ha'⟩ := hset fresh hf
        rw [hs, Option.some.injEq] at ht
        subst t
        exact ⟨a', by simpa [hnext] using ha'⟩
      · exact hQ fresh a' m' hf ⟨s, hs, by simpa [hnext] using ha'⟩
    | none =>
      simp only [hnext] at ha'
      by_cases hc : trigger < count + s.count ∧ 2 < count + s.count
      · rw [if_pos hc] at ha'
        simp only [if_pos hc]
        cases hcount : s.count with
        | zero => simp [BankWorkload.deallocate, Memory.read, hs, hcount] at ha'
        | succ n =>
          refine h.deallocate hs hcount ha' fun m' h' => hQ fresh a' m' hfresh ⟨s, hs, ?_⟩ h'
          simpa [hnext, if_pos hc] using ha'
      · simp only [if_neg hc]
        refine h.allocate hk hs hnext (fun fresh a' m' hf ha' => ?_) hnomem
        exact hQ fresh a' m' hf ⟨s, hs, by simpa [hnext, if_neg hc] using ha'⟩

theorem allocTx {trigger fuel : ℕ} (hk : 0 < k.nbaccounts)
    (hset : ∀ fresh, a.seg fresh = none → ∃ a', BankWorkload.allocTx k trigger fresh fuel a = .ok a')
    (hQ : ∀ fresh a' m', a.seg fresh = none → BankWorkload.allocTx k trigger fresh fuel a = .ok a' →
      Rep k a' m' → Q .void m') (hnomem : Q .nomem m) :
    Runs (source k) false Q captured (allocRound k trigger 0 none a.start) m :=
  h.allocLoop hk hset hQ hnomem

/-! ### The transactions `short_tx` and `long_tx` -/

theorem transfer {sender recver : SegId × ℕ}
    (ht : BankWorkload.transfer k a sender recver = .ok a')
    (hQ : ∀ m', Rep k a' m' → Q (.bool true) m') :
    Runs (source k) false Q captured (BankClosures.transfer sender recver) m := by
  simp only [BankWorkload.transfer, bind_eq_ok] at ht
  obtain ⟨v, hv, ht⟩ := ht
  refine h.readBalance hv ?_
  by_cases hpos : 0 < v
  · rw [if_pos hpos] at ht ⊢
    simp only [bind_eq_ok] at ht
    obtain ⟨t, hw, w, hr, ht⟩ := ht
    refine h.writeBalance rfl hw fun m₁ h₁ => h₁.readBalance hr ?_
    exact h₁.writeBalance rfl ht fun m₂ h₂ => Runs.ret (hQ m₂ h₂)
  · rw [if_neg hpos, pure_eq_ok] at ht
    rw [if_neg hpos]
    exact Runs.ret (hQ m (ht ▸ h))

theorem shortLoop {fuel : ℕ} {send recv : Search SegId}
    {r : Option ((SegId × ℕ) × (SegId × ℕ))}
    (hr : BankWorkload.shortLoop a fuel send recv g = .ok r)
    (hnone : r = none → Q (.bool false) m)
    (hsome : ∀ p q captured, r = some (p, q) →
      Runs (source k) false Q captured (BankClosures.transfer p q) m) :
    Runs (source k) false Q captured (shortRound send recv g) m := by
  induction fuel generalizing captured send recv g with
  | zero => simp [BankWorkload.shortLoop] at hr
  | succ fuel ih =>
    simp only [BankWorkload.shortLoop, bind_eq_ok, read_eq_ok] at hr
    obtain ⟨s, hs, hr⟩ := hr
    refine h.readCount hs (Runs.capture ?_)
    cases hfound : found (send.visit g s.count) (recv.visit g s.count) with
    | some pq =>
      simp only [hfound, pure_eq_ok] at hr
      exact hsome pq.1 pq.2 _ hr.symm
    | none =>
      simp only [hfound] at hr
      refine h.readNext hs ?_
      cases hnext : s.next with
      | none =>
        simp only [hnext, pure_eq_ok] at hr
        exact Runs.ret (hnone hr.symm)
      | some next =>
        simp only [hnext] at hr
        exact Runs.goto trivial (ih hr)

theorem shortTx {sendId recvId fuel : ℕ} {found : Bool}
    (hs : BankWorkload.shortTx k sendId recvId fuel a = .ok (found, a'))
    (hQ : ∀ m', Rep k a' m' → Q (.bool found) m') :
    Runs (source k) false Q captured (shortRound ⟨none, sendId⟩ ⟨none, recvId⟩ a.start) m := by
  simp only [BankWorkload.shortTx, bind_eq_ok] at hs
  obtain ⟨r, hr, hs⟩ := hs
  refine h.shortLoop hr ?_ ?_
  · rintro rfl
    simp only [pure_eq_ok, Prod.mk.injEq] at hs
    obtain ⟨rfl, rfl⟩ := hs
    exact hQ m h
  · rintro p q captured rfl
    simp only [bind_eq_ok, pure_eq_ok, Prod.mk.injEq] at hs
    obtain ⟨t, ht, rfl, rfl⟩ := hs
    exact h.transfer ht hQ

theorem sumAccounts {n i count : ℕ} {sum : ℤ} {r : Option ℤ}
    (hr : BankWorkload.sumAccounts k a g n i sum = .ok r)
    (hnone : r = none → Q (.long false none) m)
    (hsome : ∀ sum, r = some sum →
      Runs (source k) isRo Q captured (longAccountsRound k g (i + n) (i + n) count sum) m) :
    Runs (source k) isRo Q captured (longAccountsRound k g (i + n) i count sum) m := by
  induction n generalizing i sum with
  | zero =>
    rw [BankWorkload.sumAccounts, pure_eq_ok] at hr
    exact hsome sum hr.symm
  | succ n ih =>
    simp only [BankWorkload.sumAccounts, bind_eq_ok] at hr
    obtain ⟨balance, hbalance, hr⟩ := hr
    rw [longAccountsRound, if_pos (by omega)]
    refine h.readBalance hbalance ?_
    by_cases hneg : balance < 0
    · rw [if_pos hneg, pure_eq_ok] at hr
      rw [if_pos hneg]
      exact Runs.ret (hnone hr.symm)
    · rw [if_neg hneg] at hr ⊢
      rw [show i + (n + 1) = i + 1 + n by omega] at hsome ⊢
      exact Runs.goto (proper_longAccounts ..) (ih hr hsome)

theorem longLoop {fuel count : ℕ} {sum : ℤ} {r : Option (ℕ × ℤ)}
    (hr : BankWorkload.longLoop k a fuel count sum (some g) = .ok r)
    (hnone : r = none → Q (.long false none) m)
    (hsome : ∀ n v, r = some (n, v) →
      Q (.long (decide (v = k.initBalance * n)) (some n)) m) :
    Runs (source k) isRo Q captured (longRound g count sum) m := by
  induction fuel generalizing g count sum with
  | zero => simp [BankWorkload.longLoop] at hr
  | succ fuel ih =>
    simp only [BankWorkload.longLoop, bind_eq_ok, read_eq_ok] at hr
    obtain ⟨s, hs, t, ht, hr⟩ := hr
    refine h.readCount hs (h.readParity hs (Runs.goto (proper_longAccounts ..) ?_))
    have hsum : Runs (source k) isRo Q captured
        (longAccountsRound k g (0 + s.count) 0 (count + s.count) (sum + s.parity)) m := by
      refine h.sumAccounts ht ?_ ?_
      · rintro rfl
        exact hnone (pure_eq_ok.mp hr).symm
      · rintro sum rfl
        rw [longAccountsRound, if_neg (lt_irrefl _)]
        refine h.readNext hs ?_
        cases hnext : s.next with
        | none =>
          simp only [hnext] at hr
          cases fuel <;>
            exact Runs.ret (hsome _ _ (pure_eq_ok.mp hr).symm)
        | some next =>
          simp only [hnext] at hr
          exact Runs.goto trivial (ih hr)
    rwa [Nat.zero_add] at hsum

theorem longTx {fuel : ℕ} {correct : Bool} {nbaccounts : Option ℕ}
    (hl : BankWorkload.longTx k fuel a = .ok (correct, nbaccounts))
    (hQ : Q (.long correct nbaccounts) m) :
    Runs (source k) isRo Q captured (longRound a.start 0 0) m := by
  simp only [BankWorkload.longTx, bind_eq_ok] at hl
  obtain ⟨r, hr, hl⟩ := hl
  refine h.longLoop hr ?_ ?_
  · rintro rfl
    cases pure_eq_ok.mp hl
    exact hQ
  · rintro n v rfl
    cases pure_eq_ok.mp hl
    exact hQ

/-! ### The transactions of `init` -/

theorem fillAccounts {a₀ : Memory SegId} {i : ℕ} (hs : a₀.seg a₀.start = some s)
    (hi : i ≤ k.nbaccounts) (hf : BankWorkload.fillAccounts k a₀ i = .ok a)
    (hQ : ∀ a' m', BankWorkload.fillAccounts k a₀ k.nbaccounts = .ok a' → Rep k a' m' →
      Q .void m') :
    Runs (source k) false Q captured (fillAccountsRound k i) m := by
  obtain ⟨n, hn⟩ := Nat.exists_eq_add_of_le hi
  induction n generalizing i a m with
  | zero =>
    obtain rfl : i = k.nbaccounts := hn.symm
    rw [fillAccountsRound, if_neg (lt_irrefl _)]
    exact Runs.ret (hQ a m hf h)
  | succ n ih =>
    have hlt : i < k.nbaccounts := by omega
    have hnext := fillAccounts_eq hs (Nat.succ_le_of_lt hlt)
    have hw := hnext
    simp only [BankWorkload.fillAccounts, bind_eq_ok] at hw
    obtain ⟨b, hb, hw⟩ := hw
    rw [hf] at hb
    cases hb
    rw [fillAccountsRound, if_pos hlt]
    rw [h.start] at hw
    refine h.writeBalance rfl hw fun m' h' => ?_
    exact Runs.goto (proper_fillAccounts _) (ih h' hlt hnext (by omega))

end Rep

end Fields

end BankRefinement
