import TransactionalMemory.BankWorkload

/-! # Retried transfers

The closure of `short_tx` captures its two indices by reference and subtracts from them what it
has passed. An attempt that aborts gives back the shared memory, but not the indices. -/
namespace RetriedTransfers

open ForwardLists
open BankWorkload hiding shortTx step system

/-- What an attempt may change. `left` are the shared reads and writes that still succeed in it,
or `none` if all do. -/
structure State (A : Type) where
  sendId : ℕ
  recvId : ℕ
  memory : Memory A
  left : Option ℕ

inductive Thrown where
  | transactionRetry
  | fault (f : Fault)
  deriving DecidableEq, Repr

abbrev Closure (A α : Type) := EStateM Thrown (State A) α

variable {A α β : Type} [DecidableEq A] (k : Constants)

/-- A shared read or write. -/
def shared (f : Memory A → Except Fault (α × Memory A)) : Closure A α := fun s =>
  if s.left = some 0 then .error .transactionRetry s
  else match f s.memory with
    | .ok (a, m) => .ok a { s with memory := m, left := s.left.map Nat.pred }
    | .error e => .error (.fault e) s

def readCount (start : A) : Closure A ℕ := shared fun m => do return ((← m.read start).count, m)
def readNext (start : A) : Closure A (Option A) :=
  shared fun m => do return ((← m.read start).next, m)
def readBalance (p : A × ℕ) : Closure A ℤ := shared fun m => do return (← readAccount k m p, m)
def writeBalance (p : A × ℕ) (v : ℤ) : Closure A Unit :=
  shared fun m => do return ((), ← writeAccount k m p v)

/-- The two tests of a round, on the captured indices. -/
def visit (start : A) (count : ℕ) (send recv : Option (A × ℕ)) : Closure A (Search A × Search A) :=
  fun s =>
    let send := Search.visit ⟨send, s.sendId⟩ start count
    let recv := Search.visit ⟨recv, s.recvId⟩ start count
    .ok (send, recv) { s with sendId := send.id, recvId := recv.id }

def searchLoop : ℕ → Option (A × ℕ) → Option (A × ℕ) → A →
    Closure A (Option ((A × ℕ) × (A × ℕ)))
  | 0, _, _, _ => throw (.fault .outOfFuel)
  | fuel + 1, sendPtr, recvPtr, start => do
    let segmentCount ← readCount start
    let (send, recv) ← visit start segmentCount sendPtr recvPtr
    match found send recv with
    | some accounts => return some accounts
    | none =>
      match ← readNext start with
      | none => return none
      | some next => searchLoop fuel send.ptr recv.ptr next

def transfer (sender recver : A × ℕ) : Closure A Unit := do
  let sendVal ← readBalance k sender
  if 0 < sendVal then do
    writeBalance k sender (sendVal - 1)
    let recvVal ← readBalance k recver
    writeBalance k recver (recvVal + 1)

/-- The closure of `short_tx`. -/
def shortTx (fuel : ℕ) : Closure A Bool := do
  match ← searchLoop fuel none none (← get).memory.start with
  | none => return false
  | some (sender, recver) => do
    transfer k sender recver
    return true

/-- One attempt, which commits if nothing in it fails, and otherwise aborts behind its first
`left` shared reads and writes, or when it ends. The indices are those that it leaves behind. -/
def attempt (func : Closure A α) (left : Option ℕ) (sendId recvId : ℕ) (m : Memory A) :
    Except Fault (Option (α × Memory A) × ℕ × ℕ) :=
  match func ⟨sendId, recvId, m, left⟩ with
  | .ok a s => .ok (if left.isNone then some (a, s.memory) else none, s.sendId, s.recvId)
  | .error .transactionRetry s => .ok (none, s.sendId, s.recvId)
  | .error (.fault e) _ => .error e

/-- The attempts of `transactional`, until one of them commits. -/
def transactional (func : Closure A α) :
    List (Option ℕ) → ℕ → ℕ → Memory A → Except Fault (Option (α × Memory A))
  | [], _, _, _ => return none
  | left :: attempts, sendId, recvId, m => do
    match ← attempt func left sendId recvId m with
    | (some result, _) => return some result
    | (none, sendId, recvId) => transactional func attempts sendId recvId m

variable {k} {m t : Memory A} {l : List (A × AccountSegment A)} {a start : A} {p q : A × ℕ}
variable {sendId recvId fuel : ℕ} {sendPtr recvPtr : Option (A × ℕ)}

/-! ### One operation after the other -/

section Operations

omit [DecidableEq A]

variable {s s' : State A} {x : Closure A α} {g : α → Closure A β} {v : α} {e : Thrown} {n : ℕ}
variable {f : Memory A → Except Fault (α × Memory A)}

theorem bind_ok (h : x s = .ok v s') : (x >>= g) s = g v s' := by
  simp [bind, EStateM.bind, h]

theorem bind_error (h : x s = .error e s') : (x >>= g) s = .error e s' := by
  simp [bind, EStateM.bind, h]

theorem shared_none (h : f m = .ok (v, t)) :
    shared f ⟨sendId, recvId, m, none⟩ = .ok v ⟨sendId, recvId, t, none⟩ := by
  simp [shared, h]

theorem shared_zero :
    shared f ⟨sendId, recvId, m, some 0⟩ =
      .error .transactionRetry ⟨sendId, recvId, m, some 0⟩ := by
  simp [shared]

theorem shared_succ (h : f m = .ok (v, t)) :
    shared f ⟨sendId, recvId, m, some (n + 1)⟩ = .ok v ⟨sendId, recvId, t, some n⟩ := by
  simp [shared, h]

theorem visit_ok {left : Option ℕ} : visit start n sendPtr recvPtr ⟨sendId, recvId, m, left⟩ =
    .ok (Search.visit ⟨sendPtr, sendId⟩ start n, Search.visit ⟨recvPtr, recvId⟩ start n)
      ⟨(Search.visit ⟨sendPtr, sendId⟩ start n).id, (Search.visit ⟨recvPtr, recvId⟩ start n).id,
        m, left⟩ := rfl

theorem attempt_ok {left : Option ℕ} (h : x ⟨sendId, recvId, m, left⟩ = .ok v s) :
    attempt x left sendId recvId m =
      .ok (if left.isNone then some (v, s.memory) else none, s.sendId, s.recvId) := by
  simp [attempt, h]

theorem attempt_retry {left : Option ℕ}
    (h : x ⟨sendId, recvId, m, left⟩ = .error .transactionRetry s) :
    attempt x left sendId recvId m = .ok (none, s.sendId, s.recvId) := by
  simp [attempt, h]

end Operations

/-- The closure searches from the first segment on. -/
theorem shortTx_eq {left : Option ℕ} : shortTx k fuel ⟨sendId, recvId, m, left⟩ =
    (searchLoop fuel none none m.start >>= fun r => match r with
      | none => return false
      | some (sender, recver) => do
        transfer k sender recver
        return true) ⟨sendId, recvId, m, left⟩ := rfl

/-! ### The attempt that commits -/

omit [DecidableEq A] in
theorem searchLoop_commits {r : Option ((A × ℕ) × (A × ℕ))}
    (h : shortLoop m fuel ⟨sendPtr, sendId⟩ ⟨recvPtr, recvId⟩ start = .ok r) :
    ∃ s' r', searchLoop fuel sendPtr recvPtr start ⟨sendId, recvId, m, none⟩ =
      .ok r ⟨s', r', m, none⟩ := by
  induction fuel generalizing sendPtr recvPtr sendId recvId start with
  | zero => simp [shortLoop] at h
  | succ fuel ih =>
    simp only [shortLoop, bind_eq_ok, read_eq_ok] at h
    obtain ⟨seg, hseg, h⟩ := h
    have hcount : readCount start ⟨sendId, recvId, m, none⟩ =
        .ok seg.count ⟨sendId, recvId, m, none⟩ := shared_none (by simp [hseg])
    rw [searchLoop, bind_ok hcount, bind_ok visit_ok]
    cases hfound : found (Search.visit ⟨sendPtr, sendId⟩ start seg.count)
        (Search.visit ⟨recvPtr, recvId⟩ start seg.count) with
    | some accounts =>
      simp only [hfound, pure_eq_ok] at h
      subst h
      exact ⟨_, _, by simp only [hfound]; rfl⟩
    | none =>
      simp only [hfound] at h ⊢
      have hnext : readNext start ⟨(Search.visit ⟨sendPtr, sendId⟩ start seg.count).id,
          (Search.visit ⟨recvPtr, recvId⟩ start seg.count).id, m, none⟩ =
          .ok seg.next ⟨_, _, m, none⟩ := shared_none (by simp [hseg])
      rw [bind_ok hnext]
      cases hn : seg.next with
      | none =>
        simp only [hn, pure_eq_ok] at h
        subst h
        exact ⟨_, _, rfl⟩
      | some next =>
        simp only [hn] at h
        exact ih h

theorem transfer_commits (h : BankWorkload.transfer k m p q = .ok t) :
    transfer k p q ⟨sendId, recvId, m, none⟩ = .ok () ⟨sendId, recvId, t, none⟩ := by
  simp only [BankWorkload.transfer, bind_eq_ok] at h
  obtain ⟨v, hv, h⟩ := h
  have hread : readBalance k p ⟨sendId, recvId, m, none⟩ = .ok v ⟨sendId, recvId, m, none⟩ :=
    shared_none (by simp [hv])
  rw [transfer, bind_ok hread]
  split_ifs at h ⊢ with hpos
  · simp only [bind_eq_ok] at h
    obtain ⟨t₁, ht₁, w, hw, ht⟩ := h
    have hwrite : writeBalance k p (v - 1) ⟨sendId, recvId, m, none⟩ =
        .ok () ⟨sendId, recvId, t₁, none⟩ := shared_none (by simp [ht₁])
    have hread' : readBalance k q ⟨sendId, recvId, t₁, none⟩ =
        .ok w ⟨sendId, recvId, t₁, none⟩ := shared_none (by simp [hw])
    rw [bind_ok hwrite, bind_ok hread']
    exact shared_none (by simp [ht])
  · rw [pure_eq_ok] at h
    subst h
    rfl

/-- The last attempt is the transaction of the workload, with the indices that it finds. -/
theorem attempt_commits {x : Bool × Memory A}
    (h : BankWorkload.shortTx k sendId recvId fuel m = .ok x) :
    ∃ s' r', attempt (shortTx k fuel) none sendId recvId m = .ok (some x, s', r') := by
  simp only [BankWorkload.shortTx, bind_eq_ok] at h
  obtain ⟨r, hr, h⟩ := h
  obtain ⟨s', r', hloop⟩ := searchLoop_commits hr
  cases r with
  | none =>
    simp only [pure_eq_ok] at h
    subst h
    exact ⟨s', r', attempt_ok (shortTx_eq.trans (bind_ok hloop))⟩
  | some pq =>
    obtain ⟨p, q⟩ := pq
    simp only [bind_eq_ok, pure_eq_ok] at h
    obtain ⟨t, ht, rfl⟩ := h
    refine ⟨s', r', attempt_ok (s := ⟨s', r', t, none⟩) (shortTx_eq.trans ?_)⟩
    rw [bind_ok hloop]
    exact bind_ok (transfer_commits ht)

/-! ### The attempts that abort -/

/-- An account index behind the segments of these sizes that end before the account. -/
def skip : List ℕ → ℕ → ℕ
  | [], id => id
  | c :: counts, id => if id < c then id else skip counts (id - c)

def counts (l : List (A × AccountSegment A)) : List ℕ := l.map fun x => x.2.count

/-- An index after attempts that aborted behind these numbers of shared reads and writes, every
second of which is the read of a size. -/
def leftover (counts aborted : List ℕ) (id : ℕ) : ℕ :=
  aborted.foldl (fun id n => skip (counts.take ((n + 1) / 2)) id) id

/-- An account that was found is not searched for any more. -/
def skipFrom (ptr : Option (A × ℕ)) (counts : List ℕ) (id : ℕ) : ℕ :=
  if ptr.isSome then id else skip counts id

section Aborts

omit [DecidableEq A]

variable {c n id : ℕ} {cs : List ℕ} {ptr : Option (A × ℕ)}

theorem skipFrom_nil : skipFrom ptr [] id = id := by
  cases ptr <;> rfl

theorem skipFrom_some (h : ptr.isSome) : skipFrom ptr cs id = id := if_pos h

theorem skipFrom_cons : skipFrom ptr (c :: cs) id =
    skipFrom (Search.visit ⟨ptr, id⟩ a c).ptr cs (Search.visit ⟨ptr, id⟩ a c).id := by
  cases ptr with
  | some p => rfl
  | none =>
    by_cases hid : id < c
    · simp [skipFrom, Search.visit, skip, hid]
    · simp [skipFrom, Search.visit, skip, hid]

/-- Of `n + 1` reads the first is that of the first size, and every second one that of another. -/
theorem take_reads : (c :: cs).take ((n + 1 + 1) / 2) = c :: cs.take (n / 2) := by
  rw [Nat.add_assoc, Nat.add_div_right n (by decide)]
  rfl

/-- Where the indices are when an attempt aborts behind `n` shared reads and writes. -/
def behind (l : List (A × AccountSegment A)) (n : ℕ) (sendPtr recvPtr : Option (A × ℕ))
    (s : State A) : State A :=
  { s with
    sendId := skipFrom sendPtr ((counts l).take ((n + 1) / 2)) s.sendId
    recvId := skipFrom recvPtr ((counts l).take ((n + 1) / 2)) s.recvId }

theorem behind_zero {s : State A} : behind l 0 sendPtr recvPtr s = s := by
  simp [behind, skipFrom_nil]

/-- The first read of a round is that of the size of the first segment. -/
theorem behind_cons {x : A × AccountSegment A} {left : Option ℕ} :
    behind (x :: l) (n + 1) sendPtr recvPtr ⟨sendId, recvId, m, left⟩ =
      ⟨skipFrom (Search.visit ⟨sendPtr, sendId⟩ x.1 x.2.count).ptr ((counts l).take (n / 2))
          (Search.visit ⟨sendPtr, sendId⟩ x.1 x.2.count).id,
        skipFrom (Search.visit ⟨recvPtr, recvId⟩ x.1 x.2.count).ptr ((counts l).take (n / 2))
          (Search.visit ⟨recvPtr, recvId⟩ x.1 x.2.count).id, m, left⟩ := by
  have htake : (counts (x :: l)).take ((n + 1 + 1) / 2) =
      x.2.count :: (counts l).take (n / 2) := take_reads
  simp only [behind, htake, skipFrom_cons (a := x.1)]

/-- The loop of an attempt that aborts, in it or later. -/
theorem searchLoop_aborts (h : Path AccountSegment.next m.seg (some start) l none)
    (hf : l.length ≤ fuel) (sendPtr recvPtr : Option (A × ℕ)) (sendId recvId n : ℕ) : ∃ n',
      searchLoop fuel sendPtr recvPtr start ⟨sendId, recvId, m, some n⟩ =
        .error .transactionRetry (behind l n sendPtr recvPtr ⟨sendId, recvId, m, some n'⟩) ∨
      ∃ r, shortLoop m fuel ⟨sendPtr, sendId⟩ ⟨recvPtr, recvId⟩ start = .ok r ∧
        searchLoop fuel sendPtr recvPtr start ⟨sendId, recvId, m, some n⟩ =
          .ok r (behind l n sendPtr recvPtr ⟨sendId, recvId, m, some n'⟩) := by
  induction l generalizing fuel start sendPtr recvPtr sendId recvId n with
  | nil => cases h
  | cons x l ih =>
    obtain ⟨hstart, hx, hrest⟩ := h
    cases hstart
    obtain ⟨fuel, rfl⟩ := Nat.exists_eq_add_of_le' (Nat.lt_of_lt_of_le (Nat.succ_pos _) hf)
    cases n with
    | zero =>
      have hstop : readCount x.1 ⟨sendId, recvId, m, some 0⟩ =
          .error .transactionRetry ⟨sendId, recvId, m, some 0⟩ := shared_zero
      exact ⟨0, .inl (by rw [searchLoop, bind_error hstop, behind_zero])⟩
    | succ n =>
      have hcount : readCount x.1 ⟨sendId, recvId, m, some (n + 1)⟩ =
          .ok x.2.count ⟨sendId, recvId, m, some n⟩ := shared_succ (by simp [hx])
      rw [searchLoop, bind_ok hcount, bind_ok visit_ok]
      cases hfound : found (Search.visit ⟨sendPtr, sendId⟩ x.1 x.2.count)
          (Search.visit ⟨recvPtr, recvId⟩ x.1 x.2.count) with
      | some accounts =>
        obtain ⟨hs, hr⟩ := found_eq hfound
        refine ⟨n, .inr ⟨some accounts, ?_, ?_⟩⟩
        · simp [shortLoop, hx, hfound]
        · rw [behind_cons, skipFrom_some (by simp [hs]), skipFrom_some (by simp [hr])]
          simp only [hfound]
          rfl
      | none =>
        cases n with
        | zero =>
          have hstop : ∀ s r : ℕ, readNext x.1 ⟨s, r, m, some 0⟩ =
              .error .transactionRetry ⟨s, r, m, some 0⟩ := fun _ _ => shared_zero
          refine ⟨0, .inl ?_⟩
          simp only [hfound]
          rw [bind_error (hstop ..), behind_cons, Nat.zero_div, List.take_zero, skipFrom_nil,
            skipFrom_nil]
        | succ n =>
          have hnext : ∀ s r : ℕ, readNext x.1 ⟨s, r, m, some (n + 1)⟩ =
              .ok x.2.next ⟨s, r, m, some n⟩ := fun _ _ => shared_succ (by simp [hx])
          simp only [hfound, behind_cons]
          rw [bind_ok (hnext ..)]
          cases hn : x.2.next with
          | none =>
            rw [hn] at hrest
            cases l with
            | nil =>
              refine ⟨n, .inr ⟨none, ?_, ?_⟩⟩
              · simp [shortLoop, hx, hfound, hn]
              · simp only [counts, List.map_nil, List.take_nil, skipFrom_nil]
                rfl
            | cons y l => cases hrest.1
          | some b =>
            rw [hn] at hrest
            obtain ⟨n', hloop⟩ := ih hrest (Nat.le_of_succ_le_succ hf) _ _ _ _ n
            refine ⟨n', hloop.imp id ?_⟩
            rintro ⟨r, hr, hloop⟩
            refine ⟨r, ?_, hloop⟩
            simpa [shortLoop, hx, hfound, hn] using hr

/-- The attempt has aborted, or goes on with the result `v`; either way the indices are the same. -/
def Stays (sendId recvId : ℕ) (v : α) (t : Memory A) (x : EStateM.Result Thrown (State A) α) : Prop :=
  (∃ m' n', x = .error .transactionRetry ⟨sendId, recvId, m', some n'⟩) ∨
    ∃ n', x = .ok v ⟨sendId, recvId, t, some n'⟩

theorem Stays.shared {f : Memory A → Except Fault (α × Memory A)} {v : α} (h : f m = .ok (v, t))
    (n : ℕ) : Stays sendId recvId v t (shared f ⟨sendId, recvId, m, some n⟩) := by
  cases n with
  | zero => exact .inl ⟨m, 0, shared_zero⟩
  | succ n => exact .inr ⟨n, shared_succ h⟩

theorem Stays.bind {x : Closure A α} {g : α → Closure A β} {s : State A} {v : α} {w : β}
    {u : Memory A} (h : Stays sendId recvId v t (x s))
    (hg : ∀ n, Stays sendId recvId w u (g v ⟨sendId, recvId, t, some n⟩)) :
    Stays sendId recvId w u ((x >>= g) s) := by
  rcases h with ⟨m', n', hx⟩ | ⟨n', hx⟩
  · exact .inl ⟨m', n', bind_error hx⟩
  · rw [bind_ok hx]
    exact hg n'

end Aborts

/-- The transfer leaves the indices alone, wherever it aborts. -/
theorem transfer_aborts (h : BankWorkload.transfer k m p q = .ok t) (n : ℕ) :
    Stays sendId recvId () t (transfer k p q ⟨sendId, recvId, m, some n⟩) := by
  simp only [BankWorkload.transfer, bind_eq_ok] at h
  obtain ⟨v, hv, h⟩ := h
  refine Stays.bind (v := v) (t := m) (.shared (by simp [hv]) n) fun n₁ => ?_
  split_ifs at h ⊢ with hpos
  · simp only [bind_eq_ok] at h
    obtain ⟨t₁, ht₁, w, hw, ht⟩ := h
    refine Stays.bind (v := ()) (t := t₁) (.shared (by simp [ht₁]) n₁) fun n₂ => ?_
    refine Stays.bind (v := w) (t := t₁) (.shared (by simp [hw]) n₂) fun n₃ => ?_
    exact .shared (by simp [ht]) n₃
  · rw [pure_eq_ok] at h
    subst h
    exact .inr ⟨n₁, rfl⟩

omit [DecidableEq A] in
theorem Stays.attempt {func : Closure A α} {v : α} {s' r' n : ℕ}
    (h : Stays s' r' v t (func ⟨sendId, recvId, m, some n⟩)) :
    attempt func (some n) sendId recvId m = .ok (none, s', r') := by
  rcases h with ⟨m', n', h⟩ | ⟨n', h⟩
  · exact attempt_retry h
  · exact attempt_ok h

/-- An attempt that aborts changes the indices, and nothing else. -/
theorem attempt_aborts (h : Path AccountSegment.next m.seg (some m.start) l none)
    (hf : l.length ≤ fuel) {x : Bool × Memory A}
    (hx : BankWorkload.shortTx k sendId recvId fuel m = .ok x) (n : ℕ) :
    attempt (shortTx k fuel) (some n) sendId recvId m =
      .ok (none, skip ((counts l).take ((n + 1) / 2)) sendId,
        skip ((counts l).take ((n + 1) / 2)) recvId) := by
  apply Stays.attempt (v := x.1) (t := x.2)
  rw [shortTx_eq]
  obtain ⟨n', hloop | ⟨r, hr, hloop⟩⟩ := searchLoop_aborts h hf none none sendId recvId n
  · exact .inl ⟨m, n', bind_error hloop⟩
  · rw [bind_ok hloop]
    simp only [BankWorkload.shortTx, hr, bind_eq_ok, Except.ok.injEq, exists_eq_left'] at hx
    cases r with
    | none =>
      cases hx
      exact .inr ⟨n', rfl⟩
    | some pq =>
      obtain ⟨p, q⟩ := pq
      simp only [bind_eq_ok, pure_eq_ok] at hx
      obtain ⟨t, ht, rfl⟩ := hx
      exact Stays.bind (v := ()) (t := t) (transfer_aborts ht n') fun n => .inr ⟨n, rfl⟩

/-- The whole of `transactional`: the transaction of the workload, with what is left of the
indices. -/
theorem transactional_aborted (h : Path AccountSegment.next m.seg (some m.start) l none)
    (hf : l.length ≤ fuel)
    (hok : ∀ sendId recvId, ∃ x, BankWorkload.shortTx k sendId recvId fuel m = .ok x)
    (aborted : List ℕ) (sendId recvId : ℕ) :
    transactional (shortTx k fuel) (aborted.map some ++ [none]) sendId recvId m =
      (BankWorkload.shortTx k (leftover (counts l) aborted sendId)
        (leftover (counts l) aborted recvId) fuel m).map some := by
  induction aborted generalizing sendId recvId with
  | nil =>
    obtain ⟨x, hx⟩ := hok sendId recvId
    obtain ⟨s', r', hlast⟩ := attempt_commits hx
    simp only [List.map_nil, List.nil_append, transactional, hlast, leftover, List.foldl_nil, hx]
    rfl
  | cons n aborted ih =>
    obtain ⟨x, hx⟩ := hok sendId recvId
    simp only [List.map_cons, List.cons_append, transactional, attempt_aborts h hf hx n]
    exact ih _ _

/-! ### Accounts by their indices -/

def locate : List (A × AccountSegment A) → ℕ → Option (A × ℕ)
  | [], _ => none
  | x :: l, id => if id < x.2.count then some (x.1, id) else locate l (id - x.2.count)

def balance : List (A × AccountSegment A) → ℕ → ℤ
  | [], _ => 0
  | x :: l, id => if id < x.2.count then x.2.accounts id else balance l (id - x.2.count)

/-- What the loop finds, from what the two searches come to. -/
def both (send recv : Option (A × ℕ)) : Option ((A × ℕ) × (A × ℕ)) :=
  send.bind fun sender => recv.map fun recver => (sender, recver)

section Accounts

variable {i j : ℕ} {n : ℕ} {v : ℤ}

omit [DecidableEq A]

theorem found_eq_both (send recv : Search A) : found send recv = both send.ptr recv.ptr := by
  unfold found both
  cases send.ptr <;> cases recv.ptr <;> rfl

theorem locate_lt : (locate l i).isSome ↔ i < totalCount l := by
  induction l generalizing i with
  | nil => simp [locate, totalCount]
  | cons x l ih =>
    have htotal : totalCount (x :: l) = x.2.count + totalCount l := by simp [totalCount]
    by_cases hi : i < x.2.count
    · simp only [locate, hi, if_true, Option.isSome_some, true_iff]
      omega
    · simp only [locate, hi, if_false, ih]
      omega

theorem locate_mem (h : locate l i = some p) : ∃ x ∈ l, p.1 = x.1 ∧ p.2 < x.2.count ∧
    x.2.accounts p.2 = balance l i := by
  induction l generalizing i with
  | nil => cases h
  | cons x l ih =>
    by_cases hi : i < x.2.count
    · simp only [locate, hi, if_true, Option.some.injEq] at h
      subst h
      exact ⟨x, List.mem_cons_self .., rfl, hi, by simp [balance, hi]⟩
    · simp only [locate, hi, if_false] at h
      obtain ⟨y, hy, hp, hlt, hb⟩ := ih h
      exact ⟨y, List.mem_cons_of_mem _ hy, hp, hlt, by simp [balance, hi, hb]⟩

/-- Two indices of one account are the same. -/
theorem locate_inj (hnd : (l.map Prod.fst).Nodup) (hi : locate l i = some p)
    (hj : locate l j = some p) : i = j := by
  induction l generalizing i j with
  | nil => cases hi
  | cons x l ih =>
    rw [List.map_cons, List.nodup_cons] at hnd
    have later : ∀ d, locate l d = some p → p.1 ≠ x.1 := by
      intro d hd he
      obtain ⟨y, hy, hp, -⟩ := locate_mem hd
      exact hnd.1 (List.mem_map.mpr ⟨y, hy, hp.symm.trans he⟩)
    by_cases hic : i < x.2.count <;> by_cases hjc : j < x.2.count <;>
      simp only [locate, hic, hjc, if_true, if_false, Option.some.injEq] at hi hj
    · exact congrArg Prod.snd (hi.trans hj.symm)
    · exact (later _ hj (hi ▸ rfl)).elim
    · exact (later _ hi (hj ▸ rfl)).elim
    · have := ih hnd.2 hi hj
      omega

/-- The search of an account goes on in the rest of the list. -/
theorem visit_locate {c : Search A} {x : A × AccountSegment A} :
    (c.visit x.1 x.2.count).ptr.or (locate l (c.visit x.1 x.2.count).id) =
      c.ptr.or (locate (x :: l) c.id) := by
  cases hc : c.ptr with
  | some p => simp [Search.visit, hc]
  | none =>
    by_cases hid : c.id < x.2.count
    · simp [Search.visit, hc, hid, locate]
    · simp [Search.visit, hc, hid, locate]

theorem shortLoop_locates (h : Path AccountSegment.next m.seg (some start) l none)
    (hf : l.length ≤ fuel) (send recv : Search A) :
    shortLoop m fuel send recv start =
      .ok (both (send.ptr.or (locate l send.id)) (recv.ptr.or (locate l recv.id))) := by
  induction l generalizing fuel start send recv with
  | nil => cases h
  | cons x l ih =>
    obtain ⟨hstart, hx, hrest⟩ := h
    cases hstart
    obtain ⟨fuel, rfl⟩ := Nat.exists_eq_add_of_le' (Nat.lt_of_lt_of_le (Nat.succ_pos _) hf)
    rw [← visit_locate, ← visit_locate]
    cases hfound : found (send.visit x.1 x.2.count) (recv.visit x.1 x.2.count) with
    | some accounts =>
      obtain ⟨hs, hr⟩ := found_eq hfound
      simp [shortLoop, hx, hfound, hs, hr, both]
    | none =>
      cases hn : x.2.next with
      | none =>
        rw [hn] at hrest
        cases l with
        | nil =>
          rw [found_eq_both] at hfound
          simp [shortLoop, hx, found_eq_both, hfound, hn, locate]
        | cons y l => cases hrest.1
      | some b =>
        rw [hn] at hrest
        simp [shortLoop, hx, hfound, hn, ih hrest (Nat.le_of_succ_le_succ hf)]

end Accounts

/-! ### Balances -/

section Balances

variable {i s r : ℕ} {v w : ℤ} {x : A × ℕ}

theorem readAccount_write (h : writeAccount k m p v = .ok t) :
    readAccount k t q = if q = p then .ok v else readAccount k m q := by
  unfold writeAccount at h
  split_ifs at h with hp
  obtain ⟨s, hs, rfl⟩ := write_eq_ok.mp h
  by_cases h1 : q.1 = p.1
  · by_cases h2 : q.2 = p.2
    · have hq : q = p := Prod.ext h1 h2
      simp [readAccount, Memory.read, hq, hp]
    · have hq : q ≠ p := fun he => h2 (he ▸ rfl)
      simp [readAccount, Memory.read, h1, hs, hq, h2]
  · have hq : q ≠ p := fun he => h1 (he ▸ rfl)
    simp [readAccount, Memory.read, put_seg_of_ne h1, hq]

/-- What can be read can be written. -/
theorem writeAccount_ok (h : readAccount k m p = .ok w) (v : ℤ) :
    ∃ t, writeAccount k m p v = .ok t := by
  simp only [readAccount, bind_eq_ok, read_eq_ok] at h
  obtain ⟨s, hs, h⟩ := h
  split_ifs at h with hp
  exact ⟨_, writeAccount_eq hs hp⟩

theorem transfer_balances (hp : readAccount k m p = .ok v) (hq : readAccount k m q = .ok w) :
    ∃ t, BankWorkload.transfer k m p q = .ok t ∧ ∀ x, readAccount k t x =
      if 0 < v then
        if x = q then .ok ((if q = p then v - 1 else w) + 1)
        else if x = p then .ok (v - 1) else readAccount k m x
      else readAccount k m x := by
  by_cases hpos : 0 < v
  · obtain ⟨t₁, ht₁⟩ := writeAccount_ok hp (v - 1)
    have hread : readAccount k t₁ q = .ok (if q = p then v - 1 else w) := by
      rw [readAccount_write ht₁, hq]
      split_ifs <;> rfl
    obtain ⟨t, ht⟩ := writeAccount_ok hread ((if q = p then v - 1 else w) + 1)
    refine ⟨t, by simp [BankWorkload.transfer, hp, hpos, ht₁, hread, ht], fun x => ?_⟩
    rw [if_pos hpos, readAccount_write ht, readAccount_write ht₁]
  · exact ⟨m, by simp [BankWorkload.transfer, hp, hpos], fun x => by rw [if_neg hpos]⟩

omit [DecidableEq A] in
theorem readAccount_locate {b : Option A} (h : Path AccountSegment.next m.seg b l none)
    (hc : ∀ y ∈ l, y.2.count ≤ k.nbaccounts) (hi : locate l i = some p) :
    readAccount k m p = .ok (balance l i) := by
  obtain ⟨y, hy, hp, hlt, hb⟩ := locate_mem hi
  have hseg : m.seg p.1 = some y.2 := hp ▸ h.cell hy
  rw [readAccount_eq hseg (lt_of_lt_of_le hlt (hc y hy)), hb]

/-- The account `i` after a transfer from the account `s` to the account `r`. -/
def outcome (l : List (A × AccountSegment A)) (s r i : ℕ) : ℤ :=
  if s < totalCount l ∧ r < totalCount l ∧ 0 < balance l s then
    balance l i + (if i = r then 1 else 0) - (if i = s then 1 else 0)
  else balance l i

/-- What `short_tx` returns, and what it leaves of the accounts. -/
theorem shortTx_outcome (h : Chain AccountSegment.next m.seg (some m.start) l)
    (hc : ∀ y ∈ l, y.2.count ≤ k.nbaccounts) (s r : ℕ) : ∃ t,
      (∀ fuel, l.length ≤ fuel → BankWorkload.shortTx k s r fuel m =
        .ok (decide (s < totalCount l ∧ r < totalCount l), t)) ∧
      ∀ i x, locate l i = some x → readAccount k t x = .ok (outcome l s r i) := by
  have hloop : ∀ fuel, l.length ≤ fuel → shortLoop m fuel ⟨none, s⟩ ⟨none, r⟩ m.start =
      .ok (both (locate l s) (locate l r)) := fun fuel hf => by
    simpa using shortLoop_locates h.path hf ⟨none, s⟩ ⟨none, r⟩
  have inside : ∀ i, i < totalCount l → ∃ p, locate l i = some p := fun i hi =>
    Option.isSome_iff_exists.mp (locate_lt.mpr hi)
  by_cases hin : s < totalCount l ∧ r < totalCount l
  · obtain ⟨p, hp⟩ := inside s hin.1
    obtain ⟨q, hq⟩ := inside r hin.2
    obtain ⟨t, ht, hread⟩ := transfer_balances (readAccount_locate h.path hc hp)
      (readAccount_locate h.path hc hq)
    refine ⟨t, fun fuel hf => ?_, fun i x hx => ?_⟩
    · simp [BankWorkload.shortTx, hloop fuel hf, both, hp, hq, ht, hin]
    · have hxq : x = q ↔ i = r := ⟨fun he => locate_inj h.nodup hx (he ▸ hq),
        fun he => Option.some.inj (hx.symm.trans (he ▸ hq))⟩
      have hxp : x = p ↔ i = s := ⟨fun he => locate_inj h.nodup hx (he ▸ hp),
        fun he => Option.some.inj (hx.symm.trans (he ▸ hp))⟩
      have hqp : q = p ↔ r = s := ⟨fun he => locate_inj h.nodup hq (he ▸ hp),
        fun he => Option.some.inj (hq.symm.trans (he ▸ hp))⟩
      rw [hread, readAccount_locate h.path hc hx]
      simp only [outcome, hin.1, hin.2, true_and, hxq, hxp, hqp]
      split_ifs <;> simp_all
  · refine ⟨m, fun fuel hf => ?_, fun i x hx => ?_⟩
    · have hnone : both (locate l s) (locate l r) = none := by
        cases hp : locate l s with
        | none => rfl
        | some p =>
          cases hq : locate l r with
          | none => rfl
          | some q => exact (hin ⟨locate_lt.mp (by simp [hp]), locate_lt.mp (by simp [hq])⟩).elim
      simp [BankWorkload.shortTx, hloop fuel hf, hnone, hin]
    · have hout : ¬ (s < totalCount l ∧ r < totalCount l ∧ 0 < balance l s) := fun hall =>
        hin ⟨hall.1, hall.2.1⟩
      rw [readAccount_locate h.path hc hx, outcome, if_neg hout]

end Balances

/-! ### Two runs of one transfer -/

/-- Both answers are the same, and every account of the bank has the same balance. -/
structure Same (k : Constants) (l : List (A × AccountSegment A)) (x y : Bool × Memory A) : Prop where
  answer : x.1 = y.1
  balances : ∀ i p, locate l i = some p → readAccount k x.2 p = readAccount k y.2 p

/-- A transfer that moves nothing: to the same account, or from one without funds. -/
def Idle (l : List (A × AccountSegment A)) (s r : ℕ) : Prop := s = r ∨ balance l s ≤ 0

/-- The aborted attempts leave the indices as they were, or leave one that is of no account, or
no money moves before and after. -/
def Harmless (l : List (A × AccountSegment A)) (aborted : List ℕ) (sendId recvId : ℕ) : Prop :=
  let s := leftover (counts l) aborted sendId
  let r := leftover (counts l) aborted recvId
  (s = sendId ∧ r = recvId) ∨ (totalCount l ≤ s ∨ totalCount l ≤ r) ∨
    (sendId < totalCount l ∧ recvId < totalCount l ∧ Idle l sendId recvId ∧ Idle l s r)

section TwoRuns

omit [DecidableEq A]

variable {s r s' r' i : ℕ} {cs aborted : List ℕ} {c id : ℕ}

theorem leftover_cons {n : ℕ} : leftover cs (n :: aborted) id =
    leftover cs aborted (skip (cs.take ((n + 1) / 2)) id) := rfl

theorem skip_le : skip cs id ≤ id := by
  induction cs generalizing id with
  | nil => exact le_rfl
  | cons c cs ih =>
    rw [skip]
    split_ifs
    · exact le_rfl
    · exact ih.trans (Nat.sub_le ..)

theorem leftover_le : leftover cs aborted id ≤ id := by
  induction aborted generalizing id with
  | nil => exact le_rfl
  | cons n aborted ih =>
    rw [leftover_cons]
    exact ih.trans skip_le

theorem outcome_idle (h : Idle l s r) : outcome l s r i = balance l i := by
  rcases h with rfl | h
  · unfold outcome
    split_ifs <;> omega
  · exact if_neg fun hall => by omega

theorem outcome_sender (hs : s < totalCount l) (hr : r < totalCount l) (h : ¬ Idle l s r) :
    outcome l s r s = balance l s - 1 := by
  rw [Idle, not_or, not_le] at h
  rw [outcome, if_pos ⟨hs, hr, h.2⟩, if_neg h.1, if_pos rfl]
  omega

theorem outcome_recver (hs : s < totalCount l) (hr : r < totalCount l) (h : ¬ Idle l s r) :
    outcome l s r r = balance l r + 1 := by
  rw [Idle, not_or, not_le] at h
  rw [outcome, if_pos ⟨hs, hr, h.2⟩, if_pos rfl, if_neg (Ne.symm h.1)]
  omega

/-- A transfer takes from its sender only. -/
theorem outcome_lt (h : outcome l s r i < balance l i) : i = s := by
  by_contra hne
  unfold outcome at h
  split_ifs at h <;> omega

/-- A transfer gives to its recver only. -/
theorem lt_outcome (h : balance l i < outcome l s r i) : i = r := by
  by_contra hne
  unfold outcome at h
  split_ifs at h <;> omega

/-- Two transfers have the same effect when they are the same, or do nothing. -/
theorem outcomes_agree (hs : s' ≤ s) (hr : r' ≤ r) :
    (decide (s' < totalCount l ∧ r' < totalCount l) = decide (s < totalCount l ∧ r < totalCount l) ∧
      ∀ i < totalCount l, outcome l s' r' i = outcome l s r i) ↔
    (s' = s ∧ r' = r) ∨ (totalCount l ≤ s' ∨ totalCount l ≤ r') ∨
      (s < totalCount l ∧ r < totalCount l ∧ Idle l s r ∧ Idle l s' r') := by
  rw [decide_eq_decide]
  constructor
  · rintro ⟨hanswer, hall⟩
    by_cases hin' : s' < totalCount l ∧ r' < totalCount l
    · obtain ⟨hsn, hrn⟩ := hanswer.mp hin'
      by_cases hidle : Idle l s r
      · refine .inr (.inr ⟨hsn, hrn, hidle, ?_⟩)
        by_contra hmove
        have htake := hall s' hin'.1
        rw [outcome_sender hin'.1 hin'.2 hmove, outcome_idle hidle] at htake
        omega
      · have htake := hall s hsn
        have hgive := hall r hrn
        rw [outcome_sender hsn hrn hidle] at htake
        rw [outcome_recver hsn hrn hidle] at hgive
        have hs' : s = s' := outcome_lt (r := r') (by rw [htake]; omega)
        have hr' : r = r' := lt_outcome (s := s') (by rw [hgive]; omega)
        exact .inl ⟨hs'.symm, hr'.symm⟩
    · rw [not_and_or, not_lt, not_lt] at hin'
      exact .inr (.inl hin')
  · rintro (⟨rfl, rfl⟩ | hout | ⟨hsn, hrn, hidle, hidle'⟩)
    · exact ⟨Iff.rfl, fun _ _ => rfl⟩
    · refine ⟨by omega, fun i _ => ?_⟩
      rw [outcome, outcome, if_neg (by omega), if_neg (by omega)]
    · exact ⟨by omega, fun i _ => (outcome_idle hidle').trans (outcome_idle hidle).symm⟩

end TwoRuns

theorem settles_unique {run : ℕ → Except Fault α} {x y : α} (hx : Settles run x)
    (hy : Settles run y) : x = y := by
  obtain ⟨i, hi⟩ := hx
  obtain ⟨j, hj⟩ := hy
  have hmax := hi (max i j) (le_max_left i j)
  rw [hj (max i j) (le_max_right i j)] at hmax
  exact (Except.ok.inj hmax).symm

/-- What `short_tx` comes to behind any aborted attempts. -/
theorem transactional_settles (h : Chain AccountSegment.next m.seg (some m.start) l)
    (hc : ∀ y ∈ l, y.2.count ≤ k.nbaccounts) (aborted : List ℕ) (sendId recvId : ℕ) : ∃ x,
      Settles (fun fuel => transactional (shortTx k fuel) (aborted.map some ++ [none]) sendId
        recvId m) (some x) ∧
      x.1 = decide (leftover (counts l) aborted sendId < totalCount l ∧
        leftover (counts l) aborted recvId < totalCount l) ∧
      ∀ i p, locate l i = some p → readAccount k x.2 p =
        .ok (outcome l (leftover (counts l) aborted sendId) (leftover (counts l) aborted recvId) i) := by
  obtain ⟨t, ht, hread⟩ := shortTx_outcome h hc (leftover (counts l) aborted sendId)
    (leftover (counts l) aborted recvId)
  refine ⟨(_, t), ⟨l.length, fun fuel hf => ?_⟩, rfl, hread⟩
  have hok : ∀ s r, ∃ x, BankWorkload.shortTx k s r fuel m = .ok x := fun s r => by
    obtain ⟨u, hu, -⟩ := shortTx_outcome h hc s r
    exact ⟨_, hu fuel hf⟩
  simp only [transactional_aborted h.path hf hok, ht fuel hf]
  rfl

omit [DecidableEq A] in
theorem same_iff {x y : Bool × Memory A} {s r s' r' : ℕ}
    (hx : x.1 = decide (s' < totalCount l ∧ r' < totalCount l))
    (hy : y.1 = decide (s < totalCount l ∧ r < totalCount l))
    (hxb : ∀ i p, locate l i = some p → readAccount k x.2 p = .ok (outcome l s' r' i))
    (hyb : ∀ i p, locate l i = some p → readAccount k y.2 p = .ok (outcome l s r i)) :
    Same k l x y ↔ decide (s' < totalCount l ∧ r' < totalCount l) =
        decide (s < totalCount l ∧ r < totalCount l) ∧
      ∀ i < totalCount l, outcome l s' r' i = outcome l s r i := by
  constructor
  · rintro ⟨hanswer, hbal⟩
    refine ⟨by rw [← hx, ← hy, hanswer], fun i hi => ?_⟩
    obtain ⟨p, hp⟩ := Option.isSome_iff_exists.mp (locate_lt.mpr hi)
    have hsame := hbal i p hp
    rw [hxb i p hp, hyb i p hp, Except.ok.injEq] at hsame
    exact hsame
  · rintro ⟨hanswer, hbal⟩
    refine ⟨by rw [hx, hy, hanswer], fun i p hp => ?_⟩
    rw [hxb i p hp, hyb i p hp, hbal i (locate_lt.mp (by simp [hp]))]

/-- A retried transfer is the transfer that was asked for exactly when the aborted attempts did
no harm to its indices. -/
theorem retried_transfer_same (h : Chain AccountSegment.next m.seg (some m.start) l)
    (hc : ∀ y ∈ l, y.2.count ≤ k.nbaccounts) (aborted : List ℕ) (sendId recvId : ℕ) :
    (∃ x y,
      Settles (fun fuel => transactional (shortTx k fuel) (aborted.map some ++ [none]) sendId
        recvId m) (some x) ∧
      Settles (fun fuel => transactional (shortTx k fuel) [none] sendId recvId m) (some y) ∧
      Same k l x y) ↔ Harmless l aborted sendId recvId := by
  obtain ⟨x, hx, hxa, hxb⟩ := transactional_settles h hc aborted sendId recvId
  obtain ⟨y, hy, hya, hyb⟩ := transactional_settles h hc [] sendId recvId
  have hsame : Same k l x y ↔ Harmless l aborted sendId recvId :=
    (same_iff hxa hya hxb hyb).trans (outcomes_agree leftover_le leftover_le)
  rw [← hsame]
  constructor
  · rintro ⟨x', y', hx', hy', hxy⟩
    obtain rfl : x = x' := Option.some.inj (settles_unique hx hx')
    obtain rfl : y = y' := Option.some.inj (settles_unique hy hy')
    exact hxy
  · intro hxy
    exact ⟨x, y, hx, hy, hxy⟩

/-! ### A bank of two segments -/

def bank : List (ℕ × AccountSegment ℕ) :=
  [(0, ⟨2, some 1, 0, fun _ => 5⟩), (1, ⟨2, none, 0, fun _ => 5⟩)]

def bankMemory : Memory ℕ :=
  ⟨0, fun a => if a = 0 then some ⟨2, some 1, 0, fun _ => 5⟩
    else if a = 1 then some ⟨2, none, 0, fun _ => 5⟩ else none⟩

def bankConstants : Constants := ⟨2, 5, false⟩

theorem bank_chain : Chain AccountSegment.next bankMemory.seg (some bankMemory.start) bank :=
  ⟨⟨rfl, rfl, rfl, rfl, rfl⟩, by decide⟩

theorem bank_counts : ∀ y ∈ bank, y.2.count ≤ bankConstants.nbaccounts := by
  intro y hy
  simp only [bank, List.mem_cons, List.not_mem_nil, or_false] at hy
  rcases hy with rfl | rfl <;> exact le_rfl

/-- Accounts of the first segment are found again. -/
theorem retried_transfer_same_first : ∃ x y,
    Settles (fun fuel => transactional (shortTx bankConstants fuel) ([3, 0].map some ++ [none]) 0 1
      bankMemory) (some x) ∧
    Settles (fun fuel => transactional (shortTx bankConstants fuel) [none] 0 1 bankMemory)
      (some y) ∧ Same bankConstants bank x y :=
  (retried_transfer_same bank_chain bank_counts [3, 0] 0 1).mpr (.inl (by decide))

/-- An attempt that fails at its second read turns the transfer from 2 to 3 into one from 0 to 1. -/
theorem retried_transfer_moved : ¬ ∃ x y,
    Settles (fun fuel => transactional (shortTx bankConstants fuel) ([1].map some ++ [none]) 2 3
      bankMemory) (some x) ∧
    Settles (fun fuel => transactional (shortTx bankConstants fuel) [none] 2 3 bankMemory)
      (some y) ∧ Same bankConstants bank x y := by
  rintro ⟨x, y, hx, hy, hxy⟩
  obtain ⟨x', hx', -, hxb⟩ := transactional_settles bank_chain bank_counts [1] 2 3
  obtain ⟨y', hy', -, hyb⟩ := transactional_settles bank_chain bank_counts [] 2 3
  obtain rfl : x = x' := Option.some.inj (settles_unique hx hx')
  obtain rfl : y = y' := Option.some.inj (settles_unique hy hy')
  have hzero := hxy.balances 0 (0, 0) rfl
  rw [hxb 0 (0, 0) rfl, hyb 0 (0, 0) rfl] at hzero
  exact absurd hzero (by decide)

/-! ### When the indices stay -/

/-- An index stays exactly when its account is in the first segment, or no attempt gets past its
first read. -/
theorem leftover_eq_self {c id : ℕ} {cs aborted : List ℕ} (hc : 0 < c) :
    leftover (c :: cs) aborted id = id ↔ id < c ∨ ∀ n ∈ aborted, n = 0 := by
  induction aborted with
  | nil => simp [leftover]
  | cons n aborted ih =>
    rw [leftover_cons]
    cases n with
    | zero => simpa [skip] using ih
    | succ n =>
      rw [take_reads, skip]
      split_ifs with hid
      · simp [ih, hid]
      · have hle : leftover (c :: cs) aborted (skip (cs.take (n / 2)) (id - c)) ≤ id - c :=
          leftover_le.trans skip_le
        simp only [hid, List.mem_cons, forall_eq_or_imp, Nat.succ_ne_zero, false_and, or_false,
          iff_false]
        omega

end RetriedTransfers
