import TransactionalMemory.AnsweredCalls

/-! # Calls word by word

A call of several words takes effect store by store, and its caller learns of it when it
returns. What a transaction has done is the calls in the log and what the call it is in has
done so far. -/
namespace CallWords

open ControlWord
open RegionState
open LockLevel
open CallLog
open CommutingSteps
open PlainMemory
open AnsweredCalls (entry answered closes note)
open PendingCalls (Doing During inCall inCall_local inCall_micro)

variable {W : Type*}

def stores (g : SegId) (k : ℕ) (src : List W) : List (Entry W) :=
  src.zipIdx.map fun x => .write g (k + x.2) [x.1]

/-- The accesses of a call, in the order in which they take effect. -/
def spread : Entry W → List (Entry W)
  | .write g k src => if src.isEmpty then [.write g k src] else stores g k src
  | e => [e]

theorem stores_snoc (g : SegId) (k : ℕ) (src : List W) (v : W) :
    stores g k (src ++ [v]) = stores g k src ++ [.write g (k + src.length) [v]] := by
  simp [stores, List.zipIdx_append]

/-! ### Running a call word by word -/

section running

variable {g : SegId} {k : ℕ} {src : List W} {m : Memory W} {b : Block W}

theorem store_snoc (v : W) :
    (b.store k src).store (k + src.length) [v] = b.store k (src ++ [v]) := by
  simp only [Block.store, Block.mk.injEq, true_and, and_true]
  funext i
  by_cases hi : k ≤ i ∧ i < k + src.length
  · have hlt : i - k < src.length := by omega
    simp [Calls.inRange_iff, show ¬ k + src.length ≤ i by omega, hi,
      show i < k + (src.length + 1) by omega, List.getElem?_append_left hlt]
  · by_cases he : i = k + src.length
    · subst i
      simp [Calls.inRange_iff]
    · have inside : ¬ Calls.inRange k src.length i = true := by rwa [Calls.inRange_iff]
      have above : ¬ Calls.inRange (k + src.length) [v].length i = true := by
        rw [Calls.inRange_iff, List.length_singleton]
        omega
      have both : ¬ Calls.inRange k (src ++ [v]).length i = true := by
        rw [Calls.inRange_iff, List.length_append, List.length_singleton]
        omega
      rw [if_neg above, if_neg inside, if_neg both]

theorem write_snoc (v : W) : (b.write k src).bind (Block.write (k + src.length) [v]) =
    b.write k (src ++ [v]) := by
  by_cases h : k + (src.length + 1) ≤ b.size
  · have hs : (b.store k src).size = b.size := rfl
    simp [Block.write, show k + src.length ≤ b.size by omega, h, hs,
      show k + src.length + 1 ≤ b.size by omega, store_snoc]
  · have hs : (b.store k src).size = b.size := rfl
    by_cases h' : k + src.length ≤ b.size
    · simp [Block.write, h, h', hs, show ¬ k + src.length + 1 ≤ b.size by omega]
    · simp [Block.write, h, h']

variable [DecidableEq W] [Zero W]

theorem foldlM_stores (hs : src ≠ []) :
    (stores g k src).foldlM exec m = exec m (.write g k src) := by
  induction src using List.reverseRecOn with
  | nil => exact (hs rfl).elim
  | append_singleton src v ih =>
    rw [stores_snoc, foldlM_snoc]
    by_cases he : src = []
    · subst src
      simp [stores]
    · rw [ih he]
      show (modify g (Block.write k src) m).bind (modify g (Block.write (k + src.length) [v])) = _
      rw [modify_bind]
      exact congrArg (modify g · m) (funext fun b => write_snoc v)

theorem foldlM_spread (e : Entry W) : (spread e).foldlM exec m = exec m e := by
  cases e with
  | write g k src =>
    cases src with
    | nil => simp [spread]
    | cons v src => exact foldlM_stores (by simp)
  | _ => simp [spread]

theorem foldlM_flatMap_spread (l : List (Entry W)) :
    (l.flatMap spread).foldlM exec m = l.foldlM exec m := by
  induction l generalizing m with
  | nil => rfl
  | cons e l ih =>
    rw [List.flatMap_cons, List.foldlM_append, foldlM_spread, List.foldlM_cons]
    exact bind_congr fun _ => ih

end running

/-! ### What the call at a program counter has done -/

/-- The part of the pending call that has taken effect. Once its answer is fixed this is all
of it. -/
def inProgress (c : Option (Call W)) : Pc W → List (Entry W)
  | .markWrite g k src i | .copyWrite g k src i => stores g k (src.take i)
  | .storeOwner g => [.free g]
  | .casDirty _ ret | .listMove _ ret | .returning ret =>
    (c.bind fun c => entry c ret).toList.flatMap spread
  | _ => []

/-- The access that a step from `p` to `q` makes: a word stored, a block obtained, a flag
set, the words of a read. Who starts a rollback has aborted. -/
def noted (p q : Pc W) : Option (Entry W) :=
  match p, q with
  | .copyWrite g k src i, _ => src[i]?.map fun v => .write g (k + i) [v]
  | .markWrite g k src _, .casDirty .. => if src.isEmpty then some (.write g k src) else none
  | .allocate size _, .returning (.allocated g) => some (.alloc g size)
  | .storeFree g, _ => some (.free g)
  | .copyRo .., .returning (.read g k target) => some (.read g k target)
  | .copyRead .., .casDirty _ (.read g k target) => some (.read g k target)
  | .guardRead .., .readHead _ | .markRead .., .readHead _ | .guardWrite .., .readHead _
  | .markWrite .., .readHead _ => some .abort
  | .ending, _ => some .commit
  | _, _ => none

@[simp] theorem note_none (tx : Tx) : note tx (none : Option (Entry W)) = [] := rfl

@[simp] theorem note_some (tx : Tx) (e : Entry W) : note tx (some e) = [(tx, e)] := rfl

theorem calls_note (log : Log W) (tx u : Tx) (e : Option (Entry W)) :
    calls (log ++ note tx e) u = if tx = u then calls log u ++ e.toList else calls log u := by
  cases e with
  | none => simp
  | some e => exact calls_snoc log tx u e

section steps

variable {s t : LockLevel.State W} {tx : Tx} {c : Call W}

theorem inProgress_local {p q : Pc W} (h : Doing c p) (hl : Local s tx p q)
    (hq : q.failed = false) (hr : ∀ ret, p ≠ .returning ret) :
    inProgress (some c) q = inProgress (some c) p ++ (noted p q).toList := by
  cases hl with
  | conflictRead | refusedRead | conflictWrite | tooFar | refusedWrite => cases hq
  | @stored g k src i hi =>
    obtain ⟨rfl, -⟩ := h
    cases src with
    | nil => simp [inProgress, noted, entry, spread, stores]
    | cons v src => simp [inProgress, noted, entry, spread, List.take_of_length_le hi]
  | doneRo | done =>
    obtain ⟨rfl, -⟩ := h
    simp [inProgress, noted, entry, spread]
  | nomem =>
    cases h
    simp [inProgress, noted, entry]
  | startWrite => simp [inProgress, noted, stores]
  | returned => exact (hr _ rfl).elim
  | _ => simp [inProgress, noted]

/-- A step adds what it makes known, and only the return itself takes the call back. -/
theorem inProgress_micro [Zero W] (hm : Micro s tx t) (h : Doing c (s.pc tx))
    (hq : (t.pc tx).failed = false) (hr : ∀ ret, s.pc tx ≠ .returning ret) :
    inProgress (some c) (t.pc tx) =
      inProgress (some c) (s.pc tx) ++ (noted (s.pc tx) (t.pc tx)).toList := by
  cases hm with
  | pcOnly hl =>
    simp only [State.goto, Function.update_self] at hq ⊢
    exact inProgress_local h hl hq hr
  | @copyWord g k src i v hp hv =>
    obtain ⟨hlt, hget⟩ := List.getElem?_eq_some_iff.mp hv
    have htake : src.take (i + 1) = src.take i ++ [v] := by
      rw [List.take_add_one, hv]
      rfl
    simp [hp, State.goto, inProgress, noted, hv, htake, stores_snoc, List.length_take,
      Nat.min_eq_left hlt.le]
  | allocate hp =>
    rw [hp] at h
    cases h
    simp [hp, State.goto, inProgress, noted, entry, spread]
  | storeFree hp => simp [hp, State.goto, inProgress, noted]
  | storeOwner hp =>
    rw [hp] at h
    cases h
    simp [hp, State.goto, inProgress, noted, entry, spread]
  | ownRollback hp | restoreWord hp => simp [State.goto, Pc.failed] at hq
  | passRead hp | passWrite hp | winDirty hp | listMove hp =>
    simp [hp, State.goto, inProgress, noted]

theorem returned_micro [Zero W] (hm : Micro s tx t) {ret : Return W}
    (hp : s.pc tx = .returning ret) : t.pc tx = .idle := by
  cases hm with
  | pcOnly hl =>
    rw [hp] at hl
    cases hl
    simp [State.goto]
  | _ => simp_all

theorem Micro.inside [Zero W] (hm : Micro s tx t) :
    (∀ c, s.pc tx ≠ .leaveFailed c) ∧ s.pc tx ≠ .ending := by
  cases hm with
  | pcOnly hl =>
    refine ⟨fun c hp => ?_, fun hp => ?_⟩ <;> rw [hp] at hl <;> cases hl
  | _ => simp_all

theorem answered_micro [Zero W] {s : AnsweredCalls.State W} (hm : Micro s.lock tx t)
    (hr : ∀ ret, s.lock.pc tx ≠ .returning ret) : answered s tx = none := by
  obtain ⟨hfail, hend⟩ := Micro.inside hm
  unfold answered
  split
  · exact (hr _ ‹_›).elim
  · exact (hfail _ ‹_›).elim
  · exact (hend ‹_›).elim
  · rfl

theorem entry_ne_commit {c : Call W} {ret : Return W} : entry c ret ≠ some .commit := by
  cases c <;> cases ret <;> simp [entry]

end steps

/-! ### The log of calls and the log of accesses -/

/-- `words` is what the transactions that have not failed did, access by access. -/
structure Told (pc : Tx → Pc W) (pending : Tx → Option (Call W)) (log words : Log W) : Prop where
  did : ∀ u, (pc u).failed = false →
    calls words u = (calls log u).flatMap spread ++ inProgress (pending u) (pc u)
  during : ∀ u, During (pending u) (pc u)
  commit : ∀ u, (u, .commit) ∈ log → pc u = .committed

theorem mem_spread {e e' : Entry W} (h : ∀ g k src, e' ≠ .write g k src) :
    e' ∈ spread e ↔ e' = e := by
  cases e with
  | write g k src =>
    cases src with
    | nil => simp [spread]
    | cons v src =>
      simp only [spread, List.isEmpty_cons, Bool.false_eq_true, if_false, stores, List.mem_map,
        h g k, iff_false]
      rintro ⟨x, -, hx⟩
      exact h _ _ _ hx.symm
  | _ => simp [spread]

theorem mem_flatMap_spread {e : Entry W} {l : List (Entry W)} (h : ∀ g k src, e ≠ .write g k src) :
    e ∈ l.flatMap spread ↔ e ∈ l := by
  simp [List.mem_flatMap, mem_spread h]

namespace Told

variable {pc : Tx → Pc W} {pending : Tx → Option (Call W)} {log words : Log W} {tx : Tx}

theorem opened (h : ∀ u, pc u = .idle ∨ (pc u).active = false) : Told pc pending [] [] := by
  refine ⟨fun u _ => ?_, fun u => ?_, nofun⟩
  · rcases h u with hu | hu
    · rw [hu]
      rfl
    · cases hp : pc u with
      | outside | waiting | committed | aborted => rfl
      | _ =>
        rw [hp] at hu
        cases hu
  · apply During.outside
    rcases h u with hu | hu
    · rw [hu]
      rfl
    · cases hp : pc u with
      | outside | waiting | committed | aborted => rfl
      | _ =>
        rw [hp] at hu
        cases hu

/-- One transaction moves to `q`; what it did and what its caller learns go together. -/
theorem move (h : Told pc pending log words) {q : Pc W} {c : Option (Call W)}
    {e n : Option (Entry W)} (hq : q.failed = false → (pc tx).failed = false)
    (hcalls : q.failed = false → inProgress (pending tx) (pc tx) ++ n.toList =
      e.toList.flatMap spread ++ inProgress c q)
    (hduring : During c q) (hcommit : e = some .commit → q = .committed)
    (hleft : pc tx ≠ .committed) :
    Told (Function.update pc tx q) (Function.update pending tx c) (log ++ note tx e)
      (words ++ note tx n) where
  did u hu := by
    rw [calls_note, calls_note]
    by_cases he : u = tx
    · subst u
      rw [Function.update_self] at hu
      simp only [if_true, Function.update_self]
      rw [h.did tx (hq hu), List.append_assoc, hcalls hu, List.flatMap_append,
        List.append_assoc]
    · rw [Function.update_of_ne he] at hu ⊢
      rw [Function.update_of_ne he, if_neg (Ne.symm he), if_neg (Ne.symm he)]
      exact h.did u hu
  during u := by
    by_cases he : u = tx
    · subst u
      simpa using hduring
    · simpa [he] using h.during u
  commit u hu := by
    rcases List.mem_append.mp hu with hu | hu
    · have hold := h.commit u hu
      have he : u ≠ tx := by
        rintro rfl
        exact hleft hold
      rw [Function.update_of_ne he, hold]
    · cases e with
      | none => cases hu
      | some e =>
        simp only [AnsweredCalls.note, Option.map_some, Option.toList_some,
          List.mem_singleton, Prod.mk.injEq] at hu
        obtain ⟨rfl, rfl⟩ := hu
        rw [Function.update_self]
        exact hcommit rfl

theorem relabel (h : Told pc pending log words) {q : Pc W}
    (hq : q.failed = false → (pc tx).failed = false)
    (hcalls : q.failed = false → inProgress (pending tx) (pc tx) = inProgress (pending tx) q)
    (hduring : During (pending tx) q) (hleft : pc tx ≠ .committed) :
    Told (Function.update pc tx q) pending log words := by
  have hmove := h.move (c := pending tx) (e := none) (n := none) hq (by simpa using hcalls)
    hduring nofun hleft
  simpa using hmove

theorem micro [Zero W] {s : AnsweredCalls.State W} {t : LockLevel.State W}
    (h : Told s.lock.pc s.pending s.log words) (hm : Micro s.lock tx t) :
    Told t.pc s.pending (s.log ++ note tx (answered s tx))
      (words ++ note tx (noted (s.lock.pc tx) (t.pc tx))) := by
  have hf := hm.frame
  have hpc : t.pc = Function.update s.lock.pc tx (t.pc tx) := by
    funext u
    by_cases hu : u = tx
    · rw [hu, Function.update_self]
    · rw [Function.update_of_ne hu, hf.elsewhere u hu]
  have hleft : s.lock.pc tx ≠ .committed := by
    intro hc
    have hrun := hf.runs.1
    rw [hc] at hrun
    cases hrun
  have hduring := (h.during tx).micro hm
  have moved := @move W s.lock.pc s.pending s.log words tx h (t.pc tx) (s.pending tx)
    (answered s tx) (noted (s.lock.pc tx) (t.pc tx)) hf.failed_mono
  rw [Function.update_eq_self, ← hpc] at moved
  by_cases hr : ∃ ret, s.lock.pc tx = .returning ret
  · obtain ⟨ret, hp⟩ := hr
    have hidle := returned_micro hm hp
    refine moved (fun _ => ?_) hduring (fun he => ?_) hleft
    · simp [hp, hidle, inProgress, noted, answered]
    · simp only [answered, hp] at he
      obtain ⟨c, -, hc⟩ := Option.bind_eq_some_iff.mp he
      exact (entry_ne_commit hc).elim
  · have hquiet := answered_micro hm fun ret hp => hr ⟨ret, hp⟩
    rw [hquiet] at moved ⊢
    refine moved (fun hq => ?_) hduring nofun hleft
    obtain ⟨c, hc, hdoing⟩ := h.during tx (inCall_micro hm)
    rw [hc]
    exact (inProgress_micro hm hdoing hq fun ret hp => hr ⟨ret, hp⟩).symm

/-- A transaction that commits has told its caller all that it did. -/
theorem committed (h : Told pc pending log words)
    (hw : ∀ u, (u, .commit) ∈ words → pc u = .committed) {u : Tx} :
    ((u, .commit) ∈ log ↔ (u, .commit) ∈ words) ∧
      ((u, .commit) ∈ words → calls words u = (calls log u).flatMap spread) := by
  have hcalls : pc u = .committed → calls words u = (calls log u).flatMap spread := by
    intro hu
    rw [h.did u (by rw [hu]; rfl), hu]
    simp [inProgress]
  have hsame : pc u = .committed → ((u, .commit) ∈ log ↔ (u, .commit) ∈ words) := by
    intro hu
    rw [← mem_calls, ← mem_calls, hcalls hu, mem_flatMap_spread (by simp)]
  refine ⟨⟨fun hu => ?_, fun hu => ?_⟩, fun hu => hcalls (hw u hu)⟩
  · exact (hsame (h.commit u hu)).mp hu
  · exact (hsame (hw u hu)).mpr hu

end Told

end CallWords
