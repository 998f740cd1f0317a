import TransactionalMemory.ReferenceSimulation
import TransactionalMemory.SoloTransactions

/-! # Agreement with the reference implementation

A serial program gets the same answers from the library and from the reference: both answer
what the plain memory holds. -/
namespace ReferenceAgreement

open ControlWord
open Calls (txId)
open AtomicCalls (State initial call)
open PlainMemory
open SerialViews
open Serializability
open Lockstep
open SerialPrograms
open ReferenceMemory
open ReferenceSimulation
open SoloTransactions

variable {W : Type*} [DecidableEq W] [Zero W] {size : ℕ}

structure Inside (size : ℕ) (isRo : Bool) (tx : Tx) (sh : Shape) (s : State W) (t : Session W) :
    Prop where
  solo : Solo size sh isRo tx s
  stands : Stands sh (seenBy tx s) t

structure Outside (size : ℕ) (sh : Shape) (s : State W) (t : Session W) : Prop where
  idle : Idle size sh s
  stands : Stands sh (view s.log s.region (freedBefore s) ∅) t
  unlocked : t.region.lock = lockInit

omit [DecidableEq W] [Zero W] in
theorem lock_cycle (r : Region W) (hr : r.lock = lockInit) (isRo : Bool) :
    ∃ tx lock, tmBegin r isRo = some (tx, { r with lock }) ∧
      ∀ t : Region W, t.lock = lock → tmEnd t tx = { t with lock := lockInit } := by
  have hne : readWriteTx ≠ readOnlyRefTx := by decide
  cases isRo with
  | true =>
    refine ⟨readOnlyRefTx, ⟨1, false⟩, by simp [tmBegin, lockAcquireShared, hr, lockInit], ?_⟩
    intro t ht
    simp [tmEnd, ht, lockReleaseShared, unlock, lockInit]
  | false =>
    refine ⟨readWriteTx, ⟨0, true⟩, by simp [tmBegin, lockAcquire, hr, lockInit], ?_⟩
    intro t ht
    simp [tmEnd, hne, ht, lockRelease, unlock, lockInit]

theorem Inside.call {isRo : Bool} {tx : Tx} {sh : Shape} {s : State W} {t : Session W}
    (h : Inside size isRo tx sh s t) {c : Call W} (hc : c.Allowed sh isRo) (A : Allocator W)
    (tx' : Tx) : ∃ out s' t', templateCall tx s c = some (out, s') ∧
      referenceCall A tx' t c = some (out, t') ∧ Inside size isRo tx (sh.after c) s' t' ∧
      s'.transCounter = s.transCounter ∧ t'.region.lock = t.region.lock := by
  obtain ⟨e, out, s', hs, hl, hx, hsolo, hcount⟩ := h.solo.call hc
  obtain ⟨t', ht, hlock, hstands⟩ := h.stands.call hc hl hx A tx'
  exact ⟨out, s', t', hs, ht, ⟨hsolo, hstands⟩, hcount, hlock⟩

theorem Inside.calls {isRo : Bool} {tx : Tx} {sh : Shape} {s : State W} {t : Session W}
    (h : Inside size isRo tx sh s t) {cs : List (Call W)} (hc : CallsAllowed isRo sh cs)
    (A : Allocator W) (tx' : Tx) : ∃ out s' t',
      answers (templateCall tx) s cs = some (out, s') ∧
      answers (referenceCall A tx') t cs = some (out, t') ∧
      Inside size isRo tx (cs.foldl Shape.after sh) s' t' ∧
      s'.transCounter = s.transCounter ∧ t'.region.lock = t.region.lock := by
  have keeps : Keeps (templateCall tx) (referenceCall A tx')
      fun rest (s' : State W) (t' : Session W) => ∃ sh', CallsAllowed isRo sh' rest ∧
        rest.foldl Shape.after sh' = cs.foldl Shape.after sh ∧ Inside size isRo tx sh' s' t' ∧
        s'.transCounter = s.transCounter ∧ t'.region.lock = t.region.lock := by
    rintro c rest s₁ t₁ ⟨sh', ⟨hok, hrest⟩, hlast, hin, hcount, hlock⟩
    obtain ⟨out, s', t', hs, ht, hin', hcount', hlock'⟩ := hin.call hok A tx'
    exact ⟨out, s', t', hs, ht, sh'.after c, hrest, hlast, hin', hcount'.trans hcount,
      hlock'.trans hlock⟩
  obtain ⟨out, s', t', hs, ht, sh', -, rfl, hin, hcount, hlock⟩ :=
    keeps.answers ⟨sh, hc, rfl, h, rfl, rfl⟩
  exact ⟨out, s', t', hs, ht, hin, hcount, hlock⟩

theorem Outside.transaction {sh : Shape} {s : State W} {t : Session W}
    (h : Outside size sh s t) {p : Transaction W} (hp : CallsAllowed p.isRo sh p.calls)
    (hc : s.transCounter.toNat < 2 ^ 31) (A : Allocator W) : ∃ out s' t',
      templateTransaction s p = some (out, s') ∧ referenceTransaction A t p = some (out, t') ∧
      Outside size (p.calls.foldl Shape.after sh) s' t' ∧
      s'.transCounter.toNat = s.transCounter.toNat + 1 := by
  obtain ⟨hz, hsolo, hseen⟩ := h.idle.begin p.isRo hc
  obtain ⟨tx', lock, hbegin, hend⟩ := lock_cycle t.region h.unlocked p.isRo
  have hin : Inside size p.isRo (txId s.transCounter p.isRo) sh (call s (.begin p.isRo))
      { t with region := { t.region with lock } } :=
    ⟨hsolo, hseen ▸ h.stands.withLock lock⟩
  obtain ⟨out, s', t', hs, ht, hin', hcount, hlock⟩ := hin.calls hp A tx'
  obtain ⟨hidle, hview, hcount'⟩ := hin'.solo.finish
  refine ⟨out, call s' (.finish (txId s.transCounter p.isRo)),
    { t' with region := tmEnd t'.region tx' }, ?_, ?_, ⟨hidle, ?_, ?_⟩, ?_⟩
  · simp [templateTransaction, hz, hs]
  · simp [referenceTransaction, hbegin, ht]
  · rw [hview, hend _ hlock]
    exact (hin'.stands.congr fun g hg => hin'.solo.holds.endEpoch hg).withLock lockInit
  · rw [hend _ hlock]
  · rw [hcount', hcount]
    exact counter_begun p.isRo hc

/-- A serial program of fewer than `2 ^ 31` transactions gets every answer from the library,
none of its calls is refused, and the answers are those of the reference. -/
theorem reference_agreement (A : Allocator W) (contents : ℕ → W) {align : ℕ} (ha : 0 < align)
    {program : List (Transaction W)} (hlen : program.length < 2 ^ 31)
    (hp : ProgramAllowed (.start size) program) :
    ∃ out, templateProgram size program = some out ∧
      referenceProgram A contents size align program = some out := by
  have keeps : Keeps templateTransaction (referenceTransaction A)
      fun rest (s : State W) (t : Session W) => ∃ sh, ProgramAllowed sh rest ∧
        s.transCounter.toNat + rest.length ≤ 2 ^ 31 ∧ Outside size sh s t := by
    rintro p rest s t ⟨sh, ⟨hok, hrest⟩, hcount, hout⟩
    rw [List.length_cons] at hcount
    obtain ⟨out, s', t', hs, ht, hout', hcount'⟩ := hout.transaction hok (by omega) A
    exact ⟨out, s', t', hs, ht, _, hrest, by omega, hout'⟩
  obtain ⟨hidle, hview⟩ := Idle.start (W := W) size
  have hstart : Outside size (.start size) (initial size) (referenceStart A contents size align) :=
    ⟨hidle, hview ▸ Stands.start A contents size ha, rfl⟩
  have hone : (initial size : State W).transCounter.toNat = 1 := rfl
  obtain ⟨out, s', t', hs, ht, -⟩ := keeps.answers ⟨_, hp, by omega, hstart⟩
  exact ⟨out, by simp [templateProgram, hs], by simp [referenceProgram, ht]⟩

def bump : Allocator ℕ where
  place h _ _ := (h.blocks.map fun b => b.1 + b.2).foldr max 0
  obtained h _ _ := h.word
  released h _ := h.word
  place_unused h alignment size a := by
    rintro ⟨hlo, -⟩ ⟨b, hb, -, hhi⟩
    have hle : ∀ l : List (ℕ × ℕ), b ∈ l → b.1 + b.2 ≤ (l.map fun b => b.1 + b.2).foldr max 0 := by
      intro l hl
      induction l with
      | nil => cases hl
      | cons x l ih =>
        rcases List.mem_cons.mp hl with rfl | hl
        · exact le_max_left _ _
        · exact (ih hl).trans (le_max_right _ _)
    have := hle h.blocks hb
    have : (h.blocks.map fun b => b.1 + b.2).foldr max 0 ≤ a := hlo
    omega
  obtained_used _ _ _ _ _ := rfl
  released_used _ _ _ _ := rfl

/-- Reads around writes, an allocation that outlives its transaction, a free, and a
read-only transaction. -/
def mixProgram : List (Transaction ℕ) :=
  [⟨false, [.read 0 0 2, .write 0 1 [7], .read 0 0 2, .alloc 3, .write 1 0 [4, 5]]⟩,
    ⟨true, [.read 1 0 3, .read 0 1 1]⟩,
    ⟨false, [.free 1, .alloc 1, .read 2 0 1, .write 0 0 [9]]⟩,
    ⟨true, [.read 0 0 2]⟩]

theorem reference_agreement_mixed :
    ∃ out, templateProgram 2 mixProgram = some out ∧
      referenceProgram bump (fun a => a) 2 8 mixProgram = some out ∧
      out = [[0, 0], [0, 7], [4, 5, 0], [7], [0], [9, 7]] := by
  have agree : ∃ out, templateProgram 2 mixProgram = some out ∧
      referenceProgram bump (fun a => a) 2 8 mixProgram = some out :=
    reference_agreement bump (fun a => a) (by decide) (by decide) (by decide)
  obtain ⟨out, hs, ht⟩ := agree
  refine ⟨out, hs, ht, ?_⟩
  have : templateProgram 2 mixProgram = some [[0, 0], [0, 7], [4, 5, 0], [7], [0], [9, 7]] := by
    decide
  exact Option.some.inj (hs.symm.trans this)

end ReferenceAgreement
