import TransactionalMemory.ControlWord

/-! # The transaction wrapper

The class `Transaction` and the loop `transactional`, over functions `tm_*` that may answer
anything. Those of the template leave the batcher in a `tm_read` or a `tm_write` that fails,
and in `tm_end`; they never answer `abort` to an allocation or `false` to a deallocation. -/
namespace TransactionWrapper

open ControlWord

abbrev Addr := ℕ

def invalidTx : Tx := BitVec.allOnes 64

inductive Alloc where
  | success (target : Addr)
  | abort
  | nomem

/-- `own` are the exceptions of the closures. -/
inductive Exception (E : Type) where
  | transactionBegin
  | transactionRetry
  | transactionReadOnly
  | transactionAlloc
  | own (e : E)

/-- The calls, with whether they succeed, and the passages through the batcher. -/
inductive Event where
  | tmBegin (tx : Tx) (isRo : Bool)
  | enterBatcher (tx : Tx)
  | tmRead (tx : Tx) (source : Addr) (size : ℕ) (ok : Bool)
  | tmWrite (tx : Tx) (target : Addr) (size : ℕ) (ok : Bool)
  | tmAlloc (tx : Tx) (size : ℕ) (ok : Bool)
  | tmFree (tx : Tx) (target : Addr)
  | tmEnd (tx : Tx)
  | leaveBatcher (tx : Tx)
  deriving DecidableEq, Repr

def Event.tx : Event → Tx
  | .tmBegin tx _ | .enterBatcher tx | .tmRead tx .. | .tmWrite tx .. | .tmAlloc tx ..
  | .tmFree tx _ | .tmEnd tx | .leaveBatcher tx => tx

/-- What is answered to the calls, from a state that anybody may change meanwhile. -/
structure World (σ W : Type) where
  begin : σ → Bool → Tx × σ
  read : σ → Tx → Addr → ℕ → Option (List W) × σ
  write : σ → Tx → List W → Addr → Bool × σ
  alloc : σ → Tx → ℕ → Option Addr × σ
  free : σ → Tx → Addr → σ
  finish : σ → Tx → σ

structure Run (σ : Type) where
  state : σ
  calls : List Event

variable {σ W E R α : Type}

/-! ### The functions of the template -/

def tmBegin (w : World σ W) (c : Run σ) (isRo : Bool) : Tx × Run σ :=
  let (tx, s) := w.begin c.state isRo
  (tx, ⟨s, c.calls ++ [.tmBegin tx isRo, .enterBatcher tx]⟩)

def tmEnd (w : World σ W) (c : Run σ) (tx : Tx) : Bool × Run σ :=
  (true, ⟨w.finish c.state tx, c.calls ++ [.tmEnd tx, .leaveBatcher tx]⟩)

def tmRead (w : World σ W) (c : Run σ) (tx : Tx) (source : Addr) (size : ℕ) :
    Option (List W) × Run σ :=
  match w.read c.state tx source size with
  | (some target, s) => (some target, ⟨s, c.calls ++ [.tmRead tx source size true]⟩)
  | (none, s) => (none, ⟨s, c.calls ++ [.tmRead tx source size false, .leaveBatcher tx]⟩)

def tmWrite (w : World σ W) (c : Run σ) (tx : Tx) (source : List W) (target : Addr) :
    Bool × Run σ :=
  match w.write c.state tx source target with
  | (true, s) => (true, ⟨s, c.calls ++ [.tmWrite tx target source.length true]⟩)
  | (false, s) =>
    (false, ⟨s, c.calls ++ [.tmWrite tx target source.length false, .leaveBatcher tx]⟩)

def tmAlloc (w : World σ W) (c : Run σ) (tx : Tx) (size : ℕ) : Alloc × Run σ :=
  match w.alloc c.state tx size with
  | (some target, s) => (.success target, ⟨s, c.calls ++ [.tmAlloc tx size true]⟩)
  | (none, s) => (.nomem, ⟨s, c.calls ++ [.tmAlloc tx size false]⟩)

def tmFree (w : World σ W) (c : Run σ) (tx : Tx) (target : Addr) : Bool × Run σ :=
  (true, ⟨w.free c.state tx target, c.calls ++ [.tmFree tx target]⟩)

/-! ### The class -/

structure Transaction where
  tx : Tx
  aborted : Bool
  isRo : Bool

/-- A method returns or throws, and may change the object. -/
abbrev Outcome (σ E α : Type) : Type := Except (Exception E) α × Transaction × Run σ

namespace Transaction

def read (w : World σ W) (o : Transaction) (c : Run σ) (source : Addr) (size : ℕ) :
    Outcome σ E (List W) :=
  match tmRead w c o.tx source size with
  | (some target, c) => (.ok target, o, c)
  | (none, c) => (.error .transactionRetry, { o with aborted := true }, c)

def write (w : World σ W) (assertMode : Bool) (o : Transaction) (c : Run σ) (source : List W)
    (target : Addr) : Outcome σ E Unit :=
  if assertMode && o.isRo then (.error .transactionReadOnly, o, c)
  else
    match tmWrite w c o.tx source target with
    | (true, c) => (.ok (), o, c)
    | (false, c) => (.error .transactionRetry, { o with aborted := true }, c)

def alloc (w : World σ W) (assertMode : Bool) (o : Transaction) (c : Run σ) (size : ℕ) :
    Outcome σ E Addr :=
  if assertMode && o.isRo then (.error .transactionReadOnly, o, c)
  else
    match tmAlloc w c o.tx size with
    | (.success target, c) => (.ok target, o, c)
    | (.nomem, c) => (.error .transactionAlloc, o, c)
    | (.abort, c) => (.error .transactionRetry, { o with aborted := true }, c)

def free (w : World σ W) (assertMode : Bool) (o : Transaction) (c : Run σ) (target : Addr) :
    Outcome σ E Unit :=
  if assertMode && o.isRo then (.error .transactionReadOnly, o, c)
  else
    match tmFree w c o.tx target with
    | (true, c) => (.ok (), o, c)
    | (false, c) => (.error .transactionRetry, { o with aborted := true }, c)

end Transaction

/-- A closure. It goes on with what a call returned or threw, except for
`TransactionRetry`, which it does not catch. -/
inductive Prog (W E R : Type) where
  | ret (value : R)
  | throw (e : Exception E)
  | read (source : Addr) (size : ℕ) (k : List W → Prog W E R)
  | write (source : List W) (target : Addr) (k : Except (Exception E) Unit → Prog W E R)
  | alloc (size : ℕ) (k : Except (Exception E) Addr → Prog W E R)
  | free (target : Addr) (k : Except (Exception E) Unit → Prog W E R)

/-- The call of the closure. -/
def exec (w : World σ W) (assertMode : Bool) : Prog W E R → Transaction → Run σ → Outcome σ E R
  | .ret value, o, c => (.ok value, o, c)
  | .throw e, o, c => (.error e, o, c)
  | .read source size k, o, c =>
    match o.read w c source size with
    | (.ok target, o, c) => exec w assertMode (k target) o c
    | (.error e, o, c) => (.error e, o, c)
  | .write source target k, o, c =>
    match o.write w assertMode c source target with
    | (.error .transactionRetry, o, c) => (.error .transactionRetry, o, c)
    | (res, o, c) => exec w assertMode (k res) o c
  | .alloc size k, o, c =>
    match o.alloc w assertMode c size with
    | (.error .transactionRetry, o, c) => (.error .transactionRetry, o, c)
    | (res, o, c) => exec w assertMode (k res) o c
  | .free target k, o, c =>
    match o.free w assertMode c target with
    | (.error .transactionRetry, o, c) => (.error .transactionRetry, o, c)
    | (res, o, c) => exec w assertMode (k res) o c

/-- One turn of the loop: the constructor, the closure and the destructor. -/
def attempt (w : World σ W) (assertMode isRo : Bool) (func : Prog W E R) (c : Run σ) :
    Except (Exception E) R × Run σ :=
  let (tx, c) := tmBegin w c isRo
  if tx = invalidTx then (.error .transactionBegin, c)
  else
    let (res, o, c) := exec w assertMode func ⟨tx, false, isRo⟩ c
    if o.aborted then (res, c)
    else
      let (ok, c) := tmEnd w c o.tx
      if ok then (res, c) else (.error .transactionRetry, c)

/-- `transactional`, for at most `n` attempts: the result if there is one, and the calls of
each attempt. The closure is `func i` when it is called for the `i`th time, as it may keep a
state of its own. -/
def transactional (w : World σ W) (assertMode isRo : Bool) (func : ℕ → Prog W E R) :
    ℕ → ℕ → σ → Option (Except (Exception E) R) × List (List Event)
  | 0, _, _ => (none, [])
  | n + 1, i, s =>
    match attempt w assertMode isRo (func i) ⟨s, []⟩ with
    | (.error .transactionRetry, c) =>
      let (res, attempts) := transactional w assertMode isRo func n (i + 1) c.state
      (res, c.calls :: attempts)
    | (res, c) => (some res, [c.calls])

/-! ### Where an attempt leaves the batcher -/

/-- A `tm_read` or a `tm_write` that fails. -/
def Event.failed : Event → Bool
  | .tmRead _ _ _ ok | .tmWrite _ _ _ ok => !ok
  | _ => false

/-- A call of the transaction in the course of it. -/
def Event.inner : Event → Bool
  | .tmRead _ _ _ ok | .tmWrite _ _ _ ok => ok
  | .tmAlloc .. | .tmFree .. => true
  | _ => false

/-- The attempt enters the batcher once and leaves it once, with its last call. That is the
one that failed, or `tm_end` if none did. -/
structure OneLeave (calls : List Event) (tx : Tx) : Prop where
  caller : ∀ e ∈ calls, e.tx = tx
  enter : calls.count (.enterBatcher tx) = 1
  leave : calls.count (.leaveBatcher tx) = 1
  last : ∃ l e, calls = l ++ [e, .leaveBatcher tx] ∧ (e.failed = true ∨ e = .tmEnd tx)
  ended : (∃ e ∈ calls, e.failed = true) → .tmEnd tx ∉ calls

/-- Calls of the transaction that leave it where it is. -/
def Inner (tx : Tx) (l : List Event) : Prop := ∀ e ∈ l, e.inner = true ∧ e.tx = tx

/-- The transaction has made some calls, or one of them failed and was the last. -/
inductive Went (o : Transaction) (c : Run σ) :
    Except (Exception E) α → Transaction → Run σ → Prop where
  | on {res c'} (l : List Event) : c'.calls = c.calls ++ l → Inner o.tx l → Went o c res o c'
  | out {c'} (l : List Event) (e : Event) : c'.calls = c.calls ++ l ++ [e, .leaveBatcher o.tx] →
      Inner o.tx l → e.failed = true → e.tx = o.tx →
      Went o c (.error .transactionRetry) { o with aborted := true } c'

namespace Went

variable {β : Type} {o o' : Transaction} {c c' : Run σ} {e : Exception E}

theorem stay {res : Except (Exception E) α} : Went o c res o c :=
  .on [] (by simp) (by simp [Inner])

theorem one {res : Except (Exception E) α} {e : Event} (hc : c'.calls = c.calls ++ [e])
    (he : e.inner = true) (ht : e.tx = o.tx) : Went o c res o c' := by
  apply Went.on [e] hc
  intro x hx
  rw [List.mem_singleton] at hx
  subst x
  exact ⟨he, ht⟩

theorem rethrow (h : Went o c (.error e : Except (Exception E) α) o' c') :
    Went o c (.error e : Except (Exception E) β) o' c' := by
  cases h with
  | on l hc hl => exact .on l hc hl
  | out l x hc hl hx ht => exact .out l x hc hl hx ht

/-- What a call returned, or threw and was caught, is followed by the rest. -/
theorem andThen {res : Except (Exception E) α} {res' : Except (Exception E) β}
    {o'' : Transaction} {c'' : Run σ} (h : Went o c res o' c')
    (hres : res ≠ .error .transactionRetry) (h' : Went o' c' res' o'' c'') :
    Went o c res' o'' c'' := by
  cases h with
  | out => exact (hres rfl).elim
  | on l hc hl =>
    have both : ∀ l', Inner o.tx l' → Inner o.tx (l ++ l') := by
      intro l' hl' x hx
      exact (List.mem_append.mp hx).elim (hl x) (hl' x)
    cases h' with
    | on l' hc' hl' => exact .on (l ++ l') (by rw [hc', hc, List.append_assoc]) (both l' hl')
    | out l' x hc' hl' hx ht =>
      refine .out (l ++ l') x ?_ (both l' hl') hx ht
      rw [hc', hc, List.append_assoc c.calls l l']

end Went

section Methods

variable (w : World σ W) (assertMode : Bool) (o : Transaction) (c : Run σ)

theorem read_went (source : Addr) (size : ℕ) {res : Except (Exception E) (List W)}
    {o' : Transaction} {c' : Run σ} (h : o.read w c source size = (res, o', c')) :
    Went o c res o' c' := by
  rcases hr : w.read c.state o.tx source size with ⟨_ | target, s⟩
  · simp only [Transaction.read, tmRead, hr, Prod.mk.injEq] at h
    obtain ⟨rfl, rfl, rfl⟩ := h
    exact .out [] (.tmRead o.tx source size false) (by simp) (by simp [Inner]) rfl rfl
  · simp only [Transaction.read, tmRead, hr, Prod.mk.injEq] at h
    obtain ⟨rfl, rfl, rfl⟩ := h
    exact .one (e := .tmRead o.tx source size true) rfl rfl rfl

theorem write_went (source : List W) (target : Addr) {res : Except (Exception E) Unit}
    {o' : Transaction} {c' : Run σ} (h : o.write w assertMode c source target = (res, o', c')) :
    Went o c res o' c' := by
  rw [Transaction.write] at h
  split_ifs at h with hro
  · cases h
    exact .stay
  · rcases hr : w.write c.state o.tx source target with ⟨_ | _, s⟩
    · simp only [tmWrite, hr, Prod.mk.injEq] at h
      obtain ⟨rfl, rfl, rfl⟩ := h
      exact .out [] (.tmWrite o.tx target source.length false) (by simp) (by simp [Inner]) rfl rfl
    · simp only [tmWrite, hr, Prod.mk.injEq] at h
      obtain ⟨rfl, rfl, rfl⟩ := h
      exact .one (e := .tmWrite o.tx target source.length true) rfl rfl rfl

/-- An allocation that finds no memory throws, and the transaction goes on. -/
theorem alloc_went (size : ℕ) {res : Except (Exception E) Addr} {o' : Transaction}
    {c' : Run σ} (h : o.alloc w assertMode c size = (res, o', c')) : Went o c res o' c' := by
  rw [Transaction.alloc] at h
  split_ifs at h with hro
  · cases h
    exact .stay
  · rcases hr : w.alloc c.state o.tx size with ⟨_ | target, s⟩
    · simp only [tmAlloc, hr, Prod.mk.injEq] at h
      obtain ⟨rfl, rfl, rfl⟩ := h
      exact .one (e := .tmAlloc o.tx size false) rfl rfl rfl
    · simp only [tmAlloc, hr, Prod.mk.injEq] at h
      obtain ⟨rfl, rfl, rfl⟩ := h
      exact .one (e := .tmAlloc o.tx size true) rfl rfl rfl

theorem free_went (target : Addr) {res : Except (Exception E) Unit} {o' : Transaction}
    {c' : Run σ} (h : o.free w assertMode c target = (res, o', c')) : Went o c res o' c' := by
  rw [Transaction.free] at h
  split_ifs at h with hro
  · cases h
    exact .stay
  · simp only [tmFree, Prod.mk.injEq] at h
    obtain ⟨rfl, rfl, rfl⟩ := h
    exact .one (e := .tmFree o.tx target) rfl rfl rfl

end Methods

theorem exec_went (w : World σ W) (assertMode : Bool) (p : Prog W E R) (o : Transaction)
    (c : Run σ) {res : Except (Exception E) R} {o' : Transaction} {c' : Run σ}
    (h : exec w assertMode p o c = (res, o', c')) : Went o c res o' c' := by
  induction p generalizing o c with
  | ret value =>
    cases h
    exact .stay
  | throw e =>
    cases h
    exact .stay
  | read source size k ih =>
    rw [exec] at h
    split at h
    case h_1 target o₁ c₁ hr => exact (read_went w o c _ _ hr).andThen (by simp) (ih _ _ _ h)
    case h_2 e o₁ c₁ hr =>
      cases h
      exact (read_went w o c _ _ hr).rethrow
  | write source target k ih =>
    rw [exec] at h
    split at h
    case h_1 o₁ c₁ hr =>
      cases h
      exact (write_went w assertMode o c _ _ hr).rethrow
    case h_2 r o₁ c₁ hres hr =>
      exact (write_went w assertMode o c _ _ hr).andThen hres (ih _ _ _ h)
  | alloc size k ih =>
    rw [exec] at h
    split at h
    case h_1 o₁ c₁ hr =>
      cases h
      exact (alloc_went w assertMode o c _ hr).rethrow
    case h_2 r o₁ c₁ hres hr =>
      exact (alloc_went w assertMode o c _ hr).andThen hres (ih _ _ _ h)
  | free target k ih =>
    rw [exec] at h
    split at h
    case h_1 o₁ c₁ hr =>
      cases h
      exact (free_went w assertMode o c _ hr).rethrow
    case h_2 r o₁ c₁ hres hr =>
      exact (free_went w assertMode o c _ hr).andThen hres (ih _ _ _ h)

/-- Inner calls between the entrance and a last call that leaves. -/
theorem oneLeave_of {tx : Tx} {isRo : Bool} {l : List Event} {e : Event} (hl : Inner tx l)
    (he : e.failed = true ∨ e = .tmEnd tx) (ht : e.tx = tx) :
    OneLeave (.tmBegin tx isRo :: .enterBatcher tx :: l ++ [e, .leaveBatcher tx]) tx := by
  have absent : ∀ x : Event, x.inner = false → x ∉ l := by
    intro x hx hin
    rw [(hl x hin).1] at hx
    cases hx
  have hne : ∀ x : Event, x.failed = false → x ≠ .tmEnd tx → e ≠ x := by
    rintro x hx hend rfl
    rcases he with he | he
    · rw [he] at hx
      cases hx
    · exact hend he
  constructor
  · intro x hx
    simp only [List.cons_append, List.mem_cons, List.mem_append, List.not_mem_nil, or_false] at hx
    rcases hx with rfl | rfl | hx | rfl | rfl
    · rfl
    · rfl
    · exact (hl x hx).2
    · exact ht
    · rfl
  · have hcount : l.count (.enterBatcher tx) = 0 := List.count_eq_zero.mpr (absent _ rfl)
    simp [hcount, hne (.enterBatcher tx) rfl (by simp)]
  · have hcount : l.count (.leaveBatcher tx) = 0 := List.count_eq_zero.mpr (absent _ rfl)
    simp [hcount, hne (.leaveBatcher tx) rfl (by simp)]
  · exact ⟨_, e, rfl, he⟩
  · rintro ⟨x, hx, hfail⟩ hend
    have hinner : ∀ y : Event, y.inner = true → y.failed = false := by
      intro y hy
      cases y <;> simp_all [Event.inner, Event.failed]
    have hxe : x = e := by
      simp only [List.cons_append, List.mem_cons, List.mem_append, List.not_mem_nil,
        or_false] at hx
      rcases hx with rfl | rfl | hx | rfl | rfl
      · cases hfail
      · cases hfail
      · rw [hinner x (hl x hx).1] at hfail
        cases hfail
      · rfl
      · cases hfail
    subst x
    simp only [List.cons_append, List.mem_cons, List.mem_append, List.not_mem_nil, or_false,
      reduceCtorEq, false_or, or_false] at hend
    rcases hend with hend | rfl
    · exact absent _ rfl hend
    · cases hfail

theorem attempt_oneLeave (w : World σ W) (assertMode isRo : Bool) (func : Prog W E R) (s : σ)
    (hb : (w.begin s isRo).1 ≠ invalidTx) :
    OneLeave (attempt w assertMode isRo func ⟨s, []⟩).2.calls (w.begin s isRo).1 := by
  rcases hbegin : w.begin s isRo with ⟨tx, s₁⟩
  rw [hbegin] at hb
  rcases hr : exec w assertMode func ⟨tx, false, isRo⟩
    ⟨s₁, [.tmBegin tx isRo, .enterBatcher tx]⟩ with ⟨res, o, c⟩
  have hcalls : (attempt w assertMode isRo func ⟨s, []⟩).2.calls =
      if o.aborted then c.calls else c.calls ++ [.tmEnd o.tx, .leaveBatcher o.tx] := by
    simp only [attempt, tmBegin, hbegin, if_neg hb, List.nil_append, hr, tmEnd]
    split_ifs <;> rfl
  rw [hcalls]
  cases exec_went w assertMode func _ _ hr with
  | on l hc hl =>
    rw [if_neg (by simp), hc]
    exact oneLeave_of hl (.inr rfl) rfl
  | out l e hc hl hfail ht =>
    rw [if_pos rfl, hc]
    exact oneLeave_of hl (.inl hfail) ht

/-- Every attempt of `transactional`, however often it is retried and whatever the calls
answer, leaves the batcher once, with its last call. -/
theorem one_leave_per_begin (w : World σ W) (hb : ∀ s isRo, (w.begin s isRo).1 ≠ invalidTx)
    (assertMode isRo : Bool) (func : ℕ → Prog W E R) (n i : ℕ) (s : σ) :
    ∀ calls ∈ (transactional w assertMode isRo func n i s).2, ∃ tx, OneLeave calls tx := by
  induction n generalizing i s with
  | zero => simp [transactional]
  | succ n ih =>
    have hone := attempt_oneLeave w assertMode isRo (func i) s (hb s isRo)
    intro calls hin
    rw [transactional] at hin
    split at hin
    case h_1 c hr =>
      rw [hr] at hone
      rcases List.mem_cons.mp hin with rfl | hin
      · exact ⟨_, hone⟩
      · exact ih (i + 1) c.state calls hin
    case h_2 res c _ hr =>
      rw [hr] at hone
      rw [List.mem_singleton.mp hin]
      exact ⟨_, hone⟩

/-- The answers in the order in which they are given, and `false` when there are no more. -/
def scripted : World (List Bool) ℕ where
  begin s _ := (if s.length % 2 = 0 then 1#64 else 2#64, s)
  read s _ _ _ := (if s.headD false then some [7] else none, s.tail)
  write s _ _ _ := (s.headD false, s.tail)
  alloc s _ _ := (if s.headD false then some 0 else none, s.tail)
  free s _ _ := s
  finish s _ := s

/-- Reads a word and writes it to a new segment. -/
def copyWord : Prog ℕ Empty ℕ :=
  .read 0 1 fun target => .alloc 1 fun
    | .ok addr => .write target addr fun _ => .ret 0
    | .error e => .throw e

/-- The first attempt fails at its write, the second one finds no memory. -/
theorem one_leave_per_begin_twice :
    (transactional scripted true false (fun _ => copyWord) 3 0 [true, true, false, true]).2 =
      [[.tmBegin 1 false, .enterBatcher 1, .tmRead 1 0 1 true, .tmAlloc 1 1 true,
          .tmWrite 1 0 1 false, .leaveBatcher 1],
        [.tmBegin 2 false, .enterBatcher 2, .tmRead 2 0 1 true, .tmAlloc 2 1 false, .tmEnd 2,
          .leaveBatcher 2]] ∧
    ∀ calls ∈ (transactional scripted true false (fun _ => copyWord) 3 0
      [true, true, false, true]).2, ∃ tx, OneLeave calls tx := by
  refine ⟨by decide, one_leave_per_begin scripted (fun s isRo => ?_) true false _ 3 0 _⟩
  simp only [scripted]
  split_ifs <;> decide

end TransactionWrapper
