import TransactionalMemory.TransitionSystem
import Mathlib.Logic.Function.Basic
import Mathlib.Data.List.Infix

/-! # Sections under a lock

Threads touch a shared datum only while they hold a lock. If the lock keeps who may change the
datum apart from everybody else, any interleaving of the single accesses has the answers and
the outcome of whole sections, run one at a time in the order in which the lock was granted. -/
namespace LockedSections

open TransitionSystem

inductive Mode where
  | exclusive
  | shared
  deriving DecidableEq, Repr

/-- The code of a lock. `ask` is the part of an acquisition that never waits, `poll` is one
round of its loop, with a choice of the hardware; `none` says that the lock is granted. -/
structure Lock where
  Word : Type
  Wait : Type
  start : Word
  ask : Mode → Word → Word × Wait
  poll : Mode → Bool → Wait → Word → Word × Option Wait
  release : Mode → Word → Word

inductive Phase (X : Type) where
  | away
  | waiting (m : Mode) (w : X)
  | holding (m : Mode)

namespace Lock

inductive Event (T : Type*) where
  | ask (t : T) (m : Mode)
  | poll (t : T) (choice : Bool)
  | release (t : T)

/-- `asked` and `granted` are histories: who asked for the lock and who was granted it. -/
structure State (l : Lock) (T : Type*) where
  word : l.Word
  phase : T → Phase l.Wait
  asked : List T
  granted : List T

variable {l : Lock} {T : Type*}

def initial (l : Lock) (T : Type*) : l.State T := ⟨l.start, fun _ => .away, [], []⟩

variable [DecidableEq T]

namespace State

def arrive (s : l.State T) (t : T) (m : Mode) : l.State T :=
  { s with
    word := (l.ask m s.word).1
    phase := Function.update s.phase t (.waiting m (l.ask m s.word).2)
    asked := s.asked ++ [t] }

def wait (s : l.State T) (t : T) (m : Mode) (word : l.Word) (w : l.Wait) : l.State T :=
  { s with word, phase := Function.update s.phase t (.waiting m w) }

def grant (s : l.State T) (t : T) (m : Mode) (word : l.Word) : l.State T :=
  { s with
    word
    phase := Function.update s.phase t (.holding m)
    granted := s.granted ++ [t] }

def leave (s : l.State T) (t : T) (m : Mode) : l.State T :=
  { s with word := l.release m s.word, phase := Function.update s.phase t .away }

end State

def step (s : l.State T) : Event T → Option (l.State T)
  | .ask t m =>
    match s.phase t with
    | .away => some (s.arrive t m)
    | _ => none
  | .poll t choice =>
    match s.phase t with
    | .waiting m w =>
      match l.poll m choice w s.word with
      | (word, some w') => some (s.wait t m word w')
      | (word, none) => some (s.grant t m word)
    | _ => none
  | .release t =>
    match s.phase t with
    | .holding m => some (s.leave t m)
    | _ => none

abbrev system (l : Lock) (T : Type*) [DecidableEq T] : System (l.State T) (Event T) :=
  ⟨fun s => s = l.initial T, step⟩

/-- What one step can do. -/
inductive Move (s : l.State T) : Event T → l.State T → Prop where
  | ask {t m} (hp : s.phase t = .away) : Move s (.ask t m) (s.arrive t m)
  | wait {t m choice w word w'} (hp : s.phase t = .waiting m w)
    (hw : l.poll m choice w s.word = (word, some w')) : Move s (.poll t choice) (s.wait t m word w')
  | grant {t m choice w word} (hp : s.phase t = .waiting m w)
    (hw : l.poll m choice w s.word = (word, none)) : Move s (.poll t choice) (s.grant t m word)
  | release {t m} (hp : s.phase t = .holding m) : Move s (.release t) (s.leave t m)

theorem step_move {s s' : l.State T} {e : Event T} (h : step s e = some s') : Move s e s' := by
  cases e with
  | ask t m =>
    simp only [step] at h
    split at h
    case h_1 hp =>
      cases h
      exact .ask hp
    case h_2 => cases h
  | poll t choice =>
    simp only [step] at h
    split at h
    case h_1 m w hp =>
      split at h
      case h_1 word w' hw =>
        cases h
        exact .wait hp hw
      case h_2 word hw =>
        cases h
        exact .grant hp hw
    case h_2 => cases h
  | release t =>
    simp only [step] at h
    split at h
    case h_1 m hp =>
      cases h
      exact .release hp
    case h_2 => cases h

/-- Who holds the lock to write holds it alone. -/
def Excludes (l : Lock) (T : Type*) [DecidableEq T] : Prop :=
  ∀ s : l.State T, Reachable (system l T) Unrestricted s → ∀ t u m,
    s.phase t = .holding .exclusive → s.phase u = .holding m → u = t

/-- The lock is granted in the order in which it is asked for. -/
def FirstComeFirstServed (l : Lock) (T : Type*) [DecidableEq T] : Prop :=
  ∀ s : l.State T, Reachable (system l T) Unrestricted s → s.granted <+: s.asked

/-- Polling alone grants the lock to somebody. -/
def State.Grantable (s : l.State T) : Prop :=
  ∃ (polls : List (T × Bool)) (s' : l.State T) (t : T) (m : Mode),
    run (system l T) s (polls.map fun p => .poll p.1 p.2) = some s' ∧ s'.phase t = .holding m

/-- When nobody holds the lock and some wait, it can be granted. -/
def Progresses (l : Lock) (T : Type*) [DecidableEq T] : Prop :=
  ∀ s : l.State T, Reachable (system l T) Unrestricted s → (∀ t m, s.phase t ≠ .holding m) →
    (∃ t m w, s.phase t = .waiting m w) → s.Grantable

theorem State.Grantable.now {s : l.State T} {t : T} {m : Mode} {choice : Bool} {w : l.Wait}
    {word : l.Word} (hp : s.phase t = .waiting m w)
    (hw : l.poll m choice w s.word = (word, none)) : s.Grantable := by
  refine ⟨[(t, choice)], s.grant t m word, t, m, ?_, ?_⟩
  · simp [run, step, hp, hw]
  · simp [State.grant]

theorem State.Grantable.later {s : l.State T} {t : T} {m : Mode} {choice : Bool} {w w' : l.Wait}
    {word : l.Word} (hp : s.phase t = .waiting m w)
    (hw : l.poll m choice w s.word = (word, some w')) (h : (s.wait t m word w').Grantable) :
    s.Grantable := by
  obtain ⟨polls, s', u, n, hrun, hu⟩ := h
  refine ⟨(t, choice) :: polls, s', u, n, ?_, hu⟩
  simpa [run, step, hp, hw] using hrun

/-- An invariant of a lock is shown for its moves. -/
theorem reachable_of_moves {I : l.State T → Prop} (start : I (l.initial T))
    (moves : ∀ s e s', I s → Move s e s' → I s') {s : l.State T}
    (h : Reachable (system l T) Unrestricted s) : I s := by
  refine h.invariant ?_ fun s e s' hi _ hs => moves s e s' hi (step_move hs)
  rintro s rfl
  exact start

end Lock

/-! ### Code and its sections -/

/-- Accesses to the shared datum, each of which may choose what follows by what it sees. -/
inductive Code (D R : Type*) where
  | done (r : R)
  | act (f : D → D) (next : D → Code D R)

namespace Code

variable {D R : Type*}

/-- An access that only looks. -/
def load (next : D → Code D R) : Code D R := .act id next

/-- An access whose answer is not used. -/
def store (f : D → D) (next : Code D R) : Code D R := .act f fun _ => next

/-- The code on its own: its answer and what it leaves. -/
def run : Code D R → D → R × D
  | .done r, d => (r, d)
  | .act f next, d => (next d).run (f d)

@[simp] theorem run_done (r : R) (d : D) : (done r : Code D R).run d = (r, d) := rfl

@[simp] theorem run_load (next : D → Code D R) (d : D) : (load next).run d = (next d).run d := rfl

@[simp] theorem run_store (f : D → D) (next : Code D R) (d : D) :
    (store f next).run d = next.run (f d) := rfl

/-- The code only looks. -/
def Quiet : Code D R → Prop
  | .done _ => True
  | .act f next => ∀ d, f d = d ∧ (next d).Quiet

theorem Quiet.run {c : Code D R} (h : c.Quiet) (d : D) : (c.run d).2 = d := by
  induction c generalizing d with
  | done r => rfl
  | act f next ih =>
    obtain ⟨hf, hn⟩ := h d
    rw [Code.run, ih d hn, hf]

end Code

/-- Operations on the datum, each one section; those that share the lock only look. -/
structure Sections (D R : Type*) where
  Op : Type*
  mode : Op → Mode
  code : Op → Code D R
  quiet : ∀ o, mode o = .shared → (code o).Quiet

section serial

variable {D R T : Type*} (S : Sections D R)

/-- The sections on their own, one at a time. -/
def outcome : List (T × S.Op) → D → D
  | [], d => d
  | x :: xs, d => outcome xs ((S.code x.2).run d).2

/-- What one thread is answered there. -/
def replies [DecidableEq T] : List (T × S.Op) → D → T → List R
  | [], _, _ => []
  | x :: xs, d, t =>
    if x.1 = t then ((S.code x.2).run d).1 :: replies xs ((S.code x.2).run d).2 t
    else replies xs ((S.code x.2).run d).2 t

variable {S}

theorem outcome_snoc (xs : List (T × S.Op)) (x : T × S.Op) (d : D) :
    outcome S (xs ++ [x]) d = ((S.code x.2).run (outcome S xs d)).2 := by
  induction xs generalizing d with
  | nil => rfl
  | cons y ys ih => exact ih _

theorem replies_snoc [DecidableEq T] (xs : List (T × S.Op)) (x : T × S.Op) (d : D) (t : T) :
    replies S (xs ++ [x]) d t = replies S xs d t ++
      if x.1 = t then [((S.code x.2).run (outcome S xs d)).1] else [] := by
  induction xs generalizing d with
  | nil => by_cases h : x.1 = t <;> simp [replies, outcome, h]
  | cons y ys ih =>
    by_cases h : y.1 = t
    · simp [replies, outcome, h, ih]
    · simp [replies, outcome, h, ih]

/-- Two implementations of the same operations serve equally well if each operation does the
same on its own. -/
theorem serial_congr {S' : Sections D R} (f : S.Op → S'.Op)
    (h : ∀ o d, (S'.code (f o)).run d = (S.code o).run d) (xs : List (T × S.Op)) (d : D) :
    outcome S' (xs.map fun x => (x.1, f x.2)) d = outcome S xs d ∧
      ∀ [DecidableEq T] (t : T),
        replies S' (xs.map fun x => (x.1, f x.2)) d t = replies S xs d t := by
  induction xs generalizing d with
  | nil => exact ⟨rfl, fun _ => rfl⟩
  | cons x xs ih =>
    refine ⟨?_, fun t => ?_⟩
    · simp [outcome, h, (ih _).1]
    · simp [replies, h, (ih _).2]

end serial

/-! ### Threads that run sections -/

inductive Event (T O : Type*) where
  | call (t : T) (o : O)
  | step (t : T) (choice : Bool)

/-- `call` is the operation that a thread is in, with the rest of its code. `order` is the
history of the sections entered and `answered` that of the answers. -/
structure State (l : Lock) {D R : Type*} (S : Sections D R) (T : Type*) where
  lock : l.State T
  datum : D
  call : T → Option (S.Op × Code D R)
  order : List (T × S.Op)
  answered : T → List R

variable {l : Lock} {D R T : Type*} {S : Sections D R}

def initial (l : Lock) (S : Sections D R) (T : Type*) (d : D) : State l S T :=
  ⟨l.initial T, d, fun _ => none, [], fun _ => []⟩

variable [DecidableEq T]

def State.ask (s : State l S T) (t : T) (o : S.Op) : State l S T :=
  { s with
    lock := s.lock.arrive t (S.mode o)
    call := Function.update s.call t (some (o, S.code o)) }

def State.enter (s : State l S T) (t : T) (o : S.Op) (m : Mode) (word : l.Word) :
    State l S T :=
  { s with lock := s.lock.grant t m word, order := s.order ++ [(t, o)] }

def State.act (s : State l S T) (t : T) (o : S.Op) (f : D → D) (next : D → Code D R) :
    State l S T :=
  { s with datum := f s.datum, call := Function.update s.call t (some (o, next s.datum)) }

def State.answer (s : State l S T) (t : T) (m : Mode) (r : R) : State l S T :=
  { s with
    lock := s.lock.leave t m
    call := Function.update s.call t none
    answered := Function.update s.answered t (s.answered t ++ [r]) }

def step (s : State l S T) : Event T S.Op → Option (State l S T)
  | .call t o =>
    match s.lock.phase t with
    | .away => some (s.ask t o)
    | _ => none
  | .step t choice =>
    match s.lock.phase t, s.call t with
    | .waiting m w, some (o, _) =>
      match l.poll m choice w s.lock.word with
      | (word, some w') => some { s with lock := s.lock.wait t m word w' }
      | (word, none) => some (s.enter t o m word)
    | .holding _, some (o, .act f next) => some (s.act t o f next)
    | .holding m, some (_, .done r) => some (s.answer t m r)
    | _, _ => none

abbrev system (l : Lock) (S : Sections D R) (T : Type*) [DecidableEq T] (d : D) :
    System (State l S T) (Event T S.Op) := ⟨fun s => s = initial l S T d, step⟩

/-- What one step can do. -/
inductive Move (s : State l S T) : Event T S.Op → State l S T → Prop where
  | call {t o} (hp : s.lock.phase t = .away) : Move s (.call t o) (s.ask t o)
  | wait {t choice m w word w' o c} (hp : s.lock.phase t = .waiting m w)
    (hc : s.call t = some (o, c)) (hw : l.poll m choice w s.lock.word = (word, some w')) :
    Move s (.step t choice) { s with lock := s.lock.wait t m word w' }
  | enter {t choice m w word o c} (hp : s.lock.phase t = .waiting m w)
    (hc : s.call t = some (o, c)) (hw : l.poll m choice w s.lock.word = (word, none)) :
    Move s (.step t choice) (s.enter t o m word)
  | act {t choice m o f next} (hp : s.lock.phase t = .holding m)
    (hc : s.call t = some (o, .act f next)) : Move s (.step t choice) (s.act t o f next)
  | answer {t choice m o r} (hp : s.lock.phase t = .holding m)
    (hc : s.call t = some (o, .done r)) : Move s (.step t choice) (s.answer t m r)

theorem step_move {s s' : State l S T} {e : Event T S.Op} (h : step s e = some s') :
    Move s e s' := by
  cases e with
  | call t o =>
    simp only [step] at h
    split at h
    case h_1 hp =>
      cases h
      exact .call hp
    case h_2 => cases h
  | step t choice =>
    simp only [step] at h
    split at h
    case h_1 m w o c hp hc =>
      split at h
      case h_1 word w' hw =>
        cases h
        exact .wait hp hc hw
      case h_2 word hw =>
        cases h
        exact .enter hp hc hw
    case h_2 m o f next hp hc =>
      cases h
      exact .act hp hc
    case h_3 m o r hp hc =>
      cases h
      exact .answer hp hc
    case h_4 => cases h

/-- The lock sees only its own steps. -/
theorem lock_reachable {d : D} {s : State l S T}
    (h : Reachable (system l S T d) Unrestricted s) :
    Reachable (Lock.system l T) Unrestricted s.lock := by
  induction h with
  | init hs =>
    cases hs
    exact .init rfl
  | step _ _ ht ih =>
    cases step_move ht with
    | @call t o hp => exact ih.next (.ask t (S.mode o)) (by simp [Lock.step, hp, State.ask]) trivial
    | @wait t choice m w word w' o c hp hc hw =>
      exact ih.next (.poll t choice) (by simp [Lock.step, hp, hw]) trivial
    | @enter t choice m w word o c hp hc hw =>
      exact ih.next (.poll t choice) (by simp [Lock.step, hp, hw, State.enter]) trivial
    | act => exact ih
    | @answer t choice m o r hp hc =>
      exact ih.next (.release t) (by simp [Lock.step, hp, State.answer]) trivial

/-- Where a thread is in the operation it has called. -/
def Stage (S : Sections D R) {X : Type} : Phase X → Option (S.Op × Code D R) → Prop
  | .away, call => call = none
  | .waiting m _, call => ∃ o, m = S.mode o ∧ call = some (o, S.code o)
  | .holding m, call => ∃ o c, m = S.mode o ∧ call = some (o, c) ∧ (m = .shared → c.Quiet)

/-- The answer still due to a thread that has entered. -/
def State.due (s : State l S T) (t : T) : List R :=
  match s.lock.phase t, s.call t with
  | .holding _, some (_, c) => [(c.run s.datum).1]
  | _, _ => []

/-- What was answered and what the datum will be are those of the sections on their own. -/
structure Serial (d : D) (s : State l S T) : Prop where
  stage : ∀ t, Stage S (s.lock.phase t) (s.call t)
  settled : (∀ t, s.lock.phase t ≠ .holding .exclusive) → s.datum = outcome S s.order d
  writing : ∀ t o c, s.lock.phase t = .holding .exclusive → s.call t = some (o, c) →
    (c.run s.datum).2 = outcome S s.order d
  answers : ∀ t, replies S s.order d t = s.answered t ++ s.due t

section due

variable {s s' : State l S T} {t : T}

omit [DecidableEq T] in
theorem due_holding {m : Mode} {o : S.Op} {c : Code D R} (hp : s.lock.phase t = .holding m)
    (hc : s.call t = some (o, c)) : s.due t = [(c.run s.datum).1] := by
  simp [State.due, hp, hc]

omit [DecidableEq T] in
theorem due_outside (hp : ∀ m, s.lock.phase t ≠ .holding m) : s.due t = [] := by
  unfold State.due
  split
  · exact (hp _ ‹_›).elim
  · rfl

omit [DecidableEq T] in
theorem due_congr (hp : s'.lock.phase t = s.lock.phase t) (hc : s'.call t = s.call t)
    (hd : (∃ m, s.lock.phase t = .holding m) → s'.datum = s.datum) : s'.due t = s.due t := by
  by_cases hin : ∃ m, s.lock.phase t = .holding m
  · rw [State.due, State.due, hp, hc, hd hin]
  · have hout : ∀ m, s.lock.phase t ≠ .holding m := fun m hm => hin ⟨m, hm⟩
    rw [due_outside hout, due_outside fun m => hp ▸ hout m]

end due

namespace Serial

variable {d : D} {s s' : State l S T}

/-- A step that leaves the datum alone and lets nobody in or out. -/
theorem outside (h : Serial d s) {t : T} (hout : ∀ m, s.lock.phase t ≠ .holding m)
    (hout' : ∀ m, s'.lock.phase t ≠ .holding m)
    (hp : ∀ u, u ≠ t → s'.lock.phase u = s.lock.phase u)
    (hc : ∀ u, u ≠ t → s'.call u = s.call u) (hstage : Stage S (s'.lock.phase t) (s'.call t))
    (hd : s'.datum = s.datum) (ho : s'.order = s.order) (ha : s'.answered = s.answered) :
    Serial d s' where
  stage u := by
    by_cases hu : u = t
    · rw [hu]
      exact hstage
    · rw [hp u hu, hc u hu]
      exact h.stage u
  settled hnone := by
    rw [hd, ho]
    refine h.settled fun u hu => ?_
    by_cases hut : u = t
    · exact hout _ (hut ▸ hu)
    · exact hnone u ((hp u hut).trans hu)
  writing u o c hu hcall := by
    have hut : u ≠ t := by
      rintro rfl
      exact hout' _ hu
    rw [hd, ho]
    exact h.writing u o c ((hp u hut).symm.trans hu) ((hc u hut).symm.trans hcall)
  answers u := by
    rw [ho, ha, h.answers u]
    by_cases hut : u = t
    · rw [hut, due_outside hout, due_outside hout']
    · rw [due_congr (hp u hut) (hc u hut) fun _ => hd]

/-- Whoever is granted the lock finds the datum settled. -/
theorem enter (h : Serial d s) {t : T} {m : Mode} {w : l.Wait} {word : l.Word} {o : S.Op}
    {c : Code D R} (hp : s.lock.phase t = .waiting m w) (hc : s.call t = some (o, c))
    (alone : ∀ u v n, (s.enter t o m word).lock.phase u = .holding .exclusive →
      (s.enter t o m word).lock.phase v = .holding n → v = u) :
    Serial d (s.enter t o m word) := by
  have here : (s.enter t o m word).lock.phase t = .holding m := by
    simp [State.enter, Lock.State.grant]
  have other : ∀ u, u ≠ t → (s.enter t o m word).lock.phase u = s.lock.phase u := fun u hu => by
    simp [State.enter, Lock.State.grant, hu]
  have hout : ∀ n, s.lock.phase t ≠ .holding n := fun n hn => by
    rw [hp] at hn
    cases hn
  have hnone : ∀ u, s.lock.phase u ≠ .holding .exclusive := by
    intro u hu
    have hut : u ≠ t := by
      rintro rfl
      exact hout _ hu
    exact hut (alone u t m ((other u hut).trans hu) here).symm
  have hdatum := h.settled hnone
  have hstage := h.stage t
  rw [hp, hc] at hstage
  obtain ⟨o', hm, ho⟩ := hstage
  cases ho
  refine ⟨fun u => ?_, fun hsettled => ?_, fun u o' c' hu hcall => ?_, fun u => ?_⟩
  · by_cases hu : u = t
    · subst u
      rw [here]
      exact ⟨o, S.code o, hm, hc, fun hs => S.quiet o (hm.symm.trans hs)⟩
    · rw [other u hu]
      exact h.stage u
  · have hs : m = .shared := by
      cases m with
      | shared => rfl
      | exclusive => exact (hsettled t here).elim
    show s.datum = outcome S (s.order ++ [(t, o)]) d
    rw [outcome_snoc, (S.quiet o (hm.symm.trans hs)).run, hdatum]
  · have hut : u = t := by
      by_contra hut
      exact hnone u ((other u hut).symm.trans hu)
    subst u
    have hsame := hc.symm.trans hcall
    cases hsame
    show _ = outcome S (s.order ++ [(t, o)]) d
    rw [outcome_snoc, ← hdatum]
    rfl
  · show replies S (s.order ++ [(t, o)]) d u = s.answered u ++ _
    rw [replies_snoc, h.answers u]
    by_cases hu : t = u
    · subst u
      rw [due_outside hout, due_holding here hc, if_pos rfl, ← hdatum, List.append_nil]
      rfl
    · rw [if_neg hu, List.append_nil, due_congr (other u (Ne.symm hu)) rfl fun _ => rfl]

theorem act (h : Serial d s) {t : T} {m : Mode} {o : S.Op} {f : D → D} {next : D → Code D R}
    (hp : s.lock.phase t = .holding m) (hc : s.call t = some (o, .act f next))
    (alone : ∀ u v n, s.lock.phase u = .holding .exclusive → s.lock.phase v = .holding n → v = u) :
    Serial d (s.act t o f next) := by
  have hstage := h.stage t
  rw [hp, hc] at hstage
  obtain ⟨o', c', hm, ho, hquiet⟩ := hstage
  cases ho
  have same : m = .shared → f s.datum = s.datum := fun hs => (hquiet hs s.datum).1
  have other : ∀ u, u ≠ t → (s.act t o f next).call u = s.call u := fun u hu => by
    simp [State.act, hu]
  have here : (s.act t o f next).call t = some (o, next s.datum) := by simp [State.act]
  refine ⟨fun u => ?_, fun hnone => ?_, fun u o' c' hu hcall => ?_, fun u => ?_⟩
  · by_cases hu : u = t
    · subst u
      rw [here]
      show Stage S (s.lock.phase t) _
      rw [hp]
      exact ⟨o, next s.datum, hm, rfl, fun hs => (hquiet hs s.datum).2⟩
    · rw [other u hu]
      exact h.stage u
  · cases m with
    | exclusive => exact (hnone t hp).elim
    | shared => exact (same rfl).trans (h.settled hnone)
  · by_cases hut : u = t
    · subst u
      have hnext := here.symm.trans hcall
      cases hnext
      exact h.writing t o _ hu hc
    · exact (hut (alone u t m hu hp).symm).elim
  · show replies S s.order d u = s.answered u ++ _
    rw [h.answers u]
    by_cases hut : u = t
    · subst u
      rw [due_holding hp hc, due_holding (s := s.act t o f next) hp here]
      rfl
    · have hdue : (s.act t o f next).due u = s.due u := by
        refine due_congr rfl (other u hut) ?_
        rintro ⟨n, hn⟩
        cases m with
        | shared => exact same rfl
        | exclusive => exact (hut (alone t u n hp hn)).elim
      rw [hdue]

theorem answer (h : Serial d s) {t : T} {m : Mode} {o : S.Op} {r : R}
    (hp : s.lock.phase t = .holding m) (hc : s.call t = some (o, .done r)) :
    Serial d (s.answer t m r) := by
  have other : ∀ u, u ≠ t → (s.answer t m r).lock.phase u = s.lock.phase u := fun u hu => by
    simp [State.answer, Lock.State.leave, hu]
  have far : ∀ u, u ≠ t → (s.answer t m r).call u = s.call u := fun u hu => by
    simp [State.answer, hu]
  have here : (s.answer t m r).lock.phase t = .away := by simp [State.answer, Lock.State.leave]
  refine ⟨fun u => ?_, fun hnone => ?_, fun u o' c' hu hcall => ?_, fun u => ?_⟩
  · by_cases hu : u = t
    · subst u
      rw [here]
      simp [Stage, State.answer]
    · rw [other u hu, far u hu]
      exact h.stage u
  · cases m with
    | exclusive => exact h.writing t o _ hp hc
    | shared =>
      refine h.settled fun u hu => ?_
      by_cases hut : u = t
      · subst u
        rw [hp] at hu
        cases hu
      · exact hnone u ((other u hut).trans hu)
  · have hut : u ≠ t := by
      rintro rfl
      rw [here] at hu
      cases hu
    exact h.writing u o' c' ((other u hut).symm.trans hu) ((far u hut).symm.trans hcall)
  · show replies S s.order d u = Function.update s.answered t _ u ++ _
    rw [h.answers u]
    by_cases hut : u = t
    · subst u
      have hout : ∀ n, (s.answer t m r).lock.phase t ≠ .holding n := fun n hn => by
        rw [here] at hn
        cases hn
      rw [due_holding hp hc, due_outside hout, Function.update_self, List.append_nil]
      rfl
    · rw [Function.update_of_ne hut, due_congr (other u hut) (far u hut) fun _ => rfl]

end Serial

/-- Any interleaving is a serial run of the sections in the order in which they were entered. -/
theorem reachable_serial (hl : l.Excludes T) {d : D} {s : State l S T}
    (h : Reachable (system l S T d) Unrestricted s) : Serial d s := by
  induction h with
  | init hs =>
    cases hs
    refine ⟨fun _ => rfl, fun _ => rfl, fun _ _ _ hp => ?_, fun _ => rfl⟩
    cases hp
  | @step s e s' hr hc hs ih =>
    have hr' := lock_reachable (hr.step hc hs)
    cases step_move hs with
    | @call t o hp =>
      refine ih.outside (t := t) (fun m hm => ?_) (fun m hm => ?_) (fun u hu => ?_) (fun u hu => ?_)
        ?_ rfl rfl rfl
      · rw [hp] at hm
        cases hm
      · simp [State.ask, Lock.State.arrive] at hm
      · simp [State.ask, Lock.State.arrive, hu]
      · simp [State.ask, hu]
      · simp [State.ask, Lock.State.arrive, Stage]
    | @wait t choice m w word w' o c hp hcall hw =>
      refine ih.outside (t := t) (fun m hm => ?_) (fun m hm => ?_) (fun u hu => ?_)
        (fun u hu => rfl) ?_ rfl rfl rfl
      · rw [hp] at hm
        cases hm
      · simp [Lock.State.wait] at hm
      · simp [Lock.State.wait, hu]
      · have hstage := ih.stage t
        rw [hp] at hstage
        simpa [Lock.State.wait, Stage] using hstage
    | enter hp hcall => exact ih.enter hp hcall (hl _ hr')
    | act hp hcall => exact ih.act hp hcall (hl _ (lock_reachable hr))
    | answer hp hcall => exact ih.answer hp hcall

/-- What is promised of the operations that are called holds of those that are entered. -/
theorem order_of_calls {P : S.Op → Prop} {d : D} {s : State l S T}
    (h : Reachable (system l S T d) (fun _ e => ∀ t o, e = .call t o → P o) s) :
    (∀ x ∈ s.order, P x.2) ∧ ∀ t o c, s.call t = some (o, c) → P o := by
  induction h with
  | init hs =>
    cases hs
    exact ⟨by simp [initial], by simp [initial]⟩
  | step _ promised hs ih =>
    obtain ⟨horder, hcall⟩ := ih
    cases step_move hs with
    | @call t o hp =>
      refine ⟨horder, fun u o' c hu => ?_⟩
      by_cases hut : u = t
      · simp only [State.ask, hut, Function.update_self, Option.some.injEq, Prod.mk.injEq] at hu
        exact hu.1 ▸ promised t o rfl
      · simp only [State.ask, Function.update_of_ne hut] at hu
        exact hcall u o' c hu
    | wait => exact ⟨horder, hcall⟩
    | @enter t choice m w word o c hp hc hw =>
      refine ⟨fun x hx => ?_, hcall⟩
      rcases List.mem_append.mp hx with hx | hx
      · exact horder x hx
      · rw [List.mem_singleton.mp hx]
        exact hcall t o c hc
    | @act t choice m o f next hp hc =>
      refine ⟨horder, fun u o' c hu => ?_⟩
      by_cases hut : u = t
      · simp only [State.act, hut, Function.update_self, Option.some.injEq, Prod.mk.injEq] at hu
        exact hu.1 ▸ hcall t o _ hc
      · simp only [State.act, Function.update_of_ne hut] at hu
        exact hcall u o' c hu
    | @answer t choice m o r hp hc =>
      refine ⟨horder, fun u o' c hu => ?_⟩
      by_cases hut : u = t
      · simp [State.answer, hut] at hu
      · simp only [State.answer, Function.update_of_ne hut] at hu
        exact hcall u o' c hu

/-- The order of the sections is the order in which the lock was granted. -/
theorem order_granted {d : D} {s : State l S T}
    (h : Reachable (system l S T d) Unrestricted s) : s.order.map Prod.fst = s.lock.granted := by
  induction h with
  | init hs =>
    cases hs
    rfl
  | step _ _ hs ih =>
    cases step_move hs with
    | enter => simp [State.enter, Lock.State.grant, ih]
    | _ => exact ih

end LockedSections
