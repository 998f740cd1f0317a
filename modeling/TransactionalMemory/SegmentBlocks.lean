import Mathlib.Tactic.Common
import TransactionalMemory.MachineWords
import TransactionalMemory.RegionState

/-! # The blocks of the segments

`alloc_segment` with the arithmetic of its machine: a `size_t` wraps around at 64 bits, and the
size of the block is a shifted `int`. -/
namespace SegmentBlocks

open ControlWord (Tx)
open MachineWords

abbrev Word := BitVec 64

/-- `__builtin_clzl`, which is undefined for zero. -/
def clzl (x : Word) : ℕ := x.clz.toNat

/-- An `int` from 0 to 64. -/
def pow2Exp (x : Word) : ℕ := 64 - clzl (x - 1#64)

/-- `1 << exp` on an `int`. The shift of x86-64 takes its count modulo 32. -/
def shiftedOne (exp : ℕ) : BitVec 32 := 1#32 <<< (exp % 32)

/-- The conversion to `size_t` extends the sign. -/
def pow2 (exp : ℕ) : Word := (shiftedOne exp).signExtend 64
def nextPow2 (x : Word) : Word := pow2 (pow2Exp x)

/-- `sizeof(segment_t)` -/
def sizeofSegment : Word := 112#64
/-- `sizeof(control_t)` -/
def sizeofControl : Word := 16#64

def fstAlignedOffset (align : Word) : Word :=
  let ratio := sizeofSegment / align
  let isMultiple := if sizeofSegment % align = 0#64 then 0#64 else 1#64
  ratio * align + align * isMultiple

/-- The header of a segment, as far as `alloc_segment` sets it. -/
structure Segment where
  canary : Word
  size : Word
  pow2Exp : Word
  owner : Tx
  newlyAlloc : Bool
  shouldFree : Bool
  dirty : Bool
  rollback : Bool
  control : Word
  read : Word
  write : Word
  deriving DecidableEq, Repr

/-- A block with a segment in it, and the address ranges that were set to zero. -/
structure Block where
  address : Word
  alignment : Word
  length : Word
  segment : Segment
  zeroed : List (Word × Word)
  deriving DecidableEq, Repr

/-- `posix_memalign`, of which only what it promises is known. An address one past the end of
a block exists too. -/
structure Memalign where
  alloc : Word → Word → Option Word
  valid : ∀ {a n p}, alloc a n = some p → 8 ∣ a.toNat ∧ ∃ k, a.toNat = 2 ^ k
  aligned : ∀ {a n p}, alloc a n = some p → a.toNat ∣ p.toNat
  inside : ∀ {a n p}, alloc a n = some p → p.toNat + n.toNat < 2 ^ 64

def segSize (align size : Word) : Word :=
  fstAlignedOffset align + size / align * sizeofControl + size * 2#64

/-- `none` is the status 1. -/
def allocSegment (memalign : Memalign) (align size : Word) (tx : Tx) : Option Block := do
  let wordsCount := size / align
  let fstAligned := fstAlignedOffset align
  let controlSize := wordsCount * sizeofControl
  let alloc := nextPow2 (segSize align size)
  let address ← memalign.alloc alloc alloc
  let control := address + fstAligned
  let read := control + controlSize
  let write := read + size
  return {
    address, alignment := alloc, length := alloc
    segment := {
      canary := 0xDEADC0DE#64, size, pow2Exp := BitVec.ofNat 64 (pow2Exp (segSize align size))
      owner := tx, newlyAlloc := true, shouldFree := false, dirty := true, rollback := false
      control, read, write }
    zeroed := [(control, controlSize), (read, size), (write, size)] }

/-- The room that a segment takes, as an exact integer. -/
def total (align size : Word) : ℕ :=
  (fstAlignedOffset align).toNat + size.toNat / align.toNat * 16 + 2 * size.toNat

/-- The block has room for the header, the control array and the two copies, one after the
other, and is the least power of two that has. -/
structure Fits (align size : Word) (b : Block) : Prop where
  room : total align size ≤ b.length.toNat
  header : b.address.toNat + 112 ≤ b.segment.control.toNat
  control : b.segment.control.toNat + size.toNat / align.toNat * 16 ≤ b.segment.read.toNat
  read : b.segment.read.toNat + size.toNat ≤ b.segment.write.toNat
  write : b.segment.write.toNat + size.toNat ≤ b.address.toNat + b.length.toNat
  length : b.length.toNat = 2 ^ b.segment.pow2Exp.toNat
  alignment : b.alignment.toNat = 2 ^ b.segment.pow2Exp.toNat
  least : ∀ k, total align size ≤ 2 ^ k → b.segment.pow2Exp.toNat ≤ k

/-! ### The exponent and the shift -/

theorem pow2Exp_eq (x : Word) : pow2Exp x = (x - 1#64).toNat.size := width_sub_clz _

theorem pow2Exp_le {x : Word} {k : ℕ} (hx : 0 < x.toNat) : pow2Exp x ≤ k ↔ x.toNat ≤ 2 ^ k := by
  have hone : (x - 1#64).toNat = x.toNat - 1 :=
    BitVec.toNat_sub_of_le (BitVec.le_def.mpr hx)
  rw [pow2Exp_eq, hone, size_pred_le hx]

theorem pow2Exp_zero : pow2Exp 0#64 = 64 := by
  rw [pow2Exp_eq]
  exact Nat.le_antisymm (Nat.size_le.mpr (by decide)) (Nat.lt_size.mpr (by decide))

theorem pow2Exp_le_64 (x : Word) : pow2Exp x ≤ 64 := Nat.sub_le ..

example : pow2Exp 31#64 = 5 ∧ pow2Exp 48#64 = 6 ∧ pow2Exp 64#64 = 6 := by
  simp only [pow2Exp_eq]
  decide

theorem pow2_toNat (e : ℕ) :
    (pow2 e).toNat = if e % 32 < 31 then 2 ^ (e % 32) else 2 ^ 64 - 2 ^ 31 := by
  have all : ∀ i < 32, ((1#32 <<< i).signExtend 64).toNat =
      if i < 31 then 2 ^ i else 2 ^ 64 - 2 ^ 31 := by decide
  exact all (e % 32) (Nat.mod_lt e (by decide))

/-- The alignments that `posix_memalign` takes are the shifts between 8 and `2 ^ 30`. -/
theorem pow2_valid {e : ℕ} :
    (8 ∣ (pow2 e).toNat ∧ ∃ k, (pow2 e).toNat = 2 ^ k) ↔ 3 ≤ e % 32 ∧ e % 32 ≤ 30 := by
  rw [pow2_toNat]
  split_ifs with h
  · constructor
    · rintro ⟨h8, -⟩
      have hle : 3 ≤ e % 32 := (Nat.pow_dvd_pow_iff_le_right (x := 2) (by decide)).mp h8
      omega
    · rintro ⟨hlow, -⟩
      exact ⟨(Nat.pow_dvd_pow_iff_le_right (x := 2) (by decide)).mpr hlow, _, rfl⟩
  · constructor
    · rintro ⟨-, k, hk⟩
      have hlow : 2 ^ 63 < 2 ^ k := by omega
      have hhigh : 2 ^ k < 2 ^ 64 := by omega
      have := (Nat.pow_lt_pow_iff_right (a := 2) (by decide)).mp hlow
      have := (Nat.pow_lt_pow_iff_right (a := 2) (by decide)).mp hhigh
      omega
    · rintro ⟨-, hhigh⟩
      omega

/-! ### The layout -/

section Layout

variable {align size : Word} {memalign : Memalign} {tx : Tx} {b : Block}

/-- A power of two in a word. -/
def IsPow2 (x : Word) : Prop := ∃ k, x.toNat = 2 ^ k

theorem IsPow2.pos (h : IsPow2 align) : 0 < align.toNat := by
  obtain ⟨k, hk⟩ := h
  rw [hk]
  exact Nat.two_pow_pos k

theorem IsPow2.le (h : IsPow2 align) : align.toNat ≤ 2 ^ 63 := by
  obtain ⟨k, hk⟩ := h
  have hlt : 2 ^ k < 2 ^ 64 := hk ▸ align.isLt
  have hk' := (Nat.pow_lt_pow_iff_right (a := 2) (by decide)).mp hlt
  rw [hk]
  exact Nat.pow_le_pow_right (by decide) (by omega)

theorem fstAlignedOffset_toNat (h : align.toNat ≤ 2 ^ 63) : (fstAlignedOffset align).toNat =
    112 / align.toNat * align.toNat + align.toNat * if 112 % align.toNat = 0 then 0 else 1 := by
  have hratio : 112 / align.toNat * align.toNat ≤ 112 := Nat.div_mul_le_self ..
  have hmod : sizeofSegment % align = 0#64 ↔ 112 % align.toNat = 0 := by
    rw [← BitVec.toNat_inj, BitVec.toNat_umod]
    rfl
  have hword : (sizeofSegment / align * align).toNat = 112 / align.toNat * align.toNat := by
    rw [BitVec.toNat_mul, BitVec.toNat_udiv]
    exact Nat.mod_eq_of_lt (by simpa [sizeofSegment] using by omega)
  simp only [fstAlignedOffset, hmod]
  split_ifs
  · simp [hword]
  · rw [BitVec.toNat_add, hword, BitVec.mul_one, Nat.mul_one]
    exact Nat.mod_eq_of_lt (by omega)

/-- The header, rounded up to the alignment. -/
theorem fstAlignedOffset_spec (h : IsPow2 align) : align.toNat ∣ (fstAlignedOffset align).toNat ∧
    112 ≤ (fstAlignedOffset align).toNat ∧ (fstAlignedOffset align).toNat < 112 + align.toNat := by
  have hdiv := Nat.div_add_mod 112 align.toNat
  have hlt := Nat.mod_lt 112 h.pos
  have hpos := h.pos
  rw [Nat.mul_comm] at hdiv
  rw [fstAlignedOffset_toNat h.le]
  refine ⟨?_, ?_, ?_⟩
  · exact Nat.dvd_add (Nat.dvd_mul_left ..) (Nat.dvd_mul_right ..)
  · split_ifs <;> omega
  · split_ifs <;> omega

theorem segSize_toNat : (segSize align size).toNat = total align size % 2 ^ 64 := by
  simp [segSize, total, sizeofControl, Nat.mul_comm]

theorem allocSegment_some (h : allocSegment memalign align size tx = some b) :
    ∃ address, memalign.alloc (nextPow2 (segSize align size)) (nextPow2 (segSize align size)) =
      some address ∧ b.address = address ∧ b.alignment = nextPow2 (segSize align size) ∧
      b.length = nextPow2 (segSize align size) ∧
      b.segment.pow2Exp = BitVec.ofNat 64 (pow2Exp (segSize align size)) ∧
      b.segment.size = size ∧ b.segment.control = address + fstAlignedOffset align ∧
      b.segment.read = address + fstAlignedOffset align + size / align * sizeofControl ∧
      b.segment.write = b.segment.read + size := by
  obtain ⟨address, ha, hb⟩ := Option.bind_eq_some_iff.mp h
  cases hb
  exact ⟨address, ha, rfl, rfl, rfl, rfl, rfl, rfl, rfl, rfl⟩

/-- The flags of the header are those that the region's model starts a segment with. -/
theorem allocSegment_header {W : Type} [Zero W] (h : allocSegment memalign align size tx = some b)
    (n : ℕ) : ({ RegionState.allocSegment n tx with
      owner := b.segment.owner, newlyAlloc := b.segment.newlyAlloc
      shouldFree := b.segment.shouldFree, dirty := b.segment.dirty
      rollback := b.segment.rollback } : RegionState.Segment W) = RegionState.allocSegment n tx := by
  obtain ⟨address, -, hb⟩ := Option.bind_eq_some_iff.mp h
  cases hb
  rfl

/-- Where the parts of a block are when nothing wraps around. -/
structure Placed (align size : Word) (b : Block) : Prop where
  small : b.segment.pow2Exp.toNat ≤ 30
  room : total align size ≤ 2 ^ b.segment.pow2Exp.toNat
  least : ∀ k, total align size ≤ 2 ^ k → b.segment.pow2Exp.toNat ≤ k
  length : b.length.toNat = 2 ^ b.segment.pow2Exp.toNat
  alignment : b.alignment.toNat = 2 ^ b.segment.pow2Exp.toNat
  aligned : 2 ^ b.segment.pow2Exp.toNat ∣ b.address.toNat
  inside : b.address.toNat + 2 ^ b.segment.pow2Exp.toNat < 2 ^ 64
  control : b.segment.control.toNat = b.address.toNat + (fstAlignedOffset align).toNat
  read : b.segment.read.toNat = b.segment.control.toNat + size.toNat / align.toNat * 16
  write : b.segment.write.toNat = b.segment.read.toNat + size.toNat

theorem allocSegment_placed (h : allocSegment memalign align size tx = some b)
    (ha : IsPow2 align) (ht : total align size ≤ 2 ^ 30) : Placed align size b := by
  obtain ⟨address, halloc, rfl, halign, hlen, hexp, -, hcontrol, hread, hwrite⟩ :=
    allocSegment_some h
  have hfst := (fstAlignedOffset_spec ha).2.1
  have htotal : (segSize align size).toNat = total align size := by
    rw [segSize_toNat]
    exact Nat.mod_eq_of_lt (by omega)
  have hle : ∀ k, pow2Exp (segSize align size) ≤ k ↔ total align size ≤ 2 ^ k := fun k => by
    rw [pow2Exp_le (by rw [htotal, total]; omega), htotal]
  have hsmall := (hle 30).mpr ht
  have hstored : b.segment.pow2Exp.toNat = pow2Exp (segSize align size) := by
    rw [hexp, BitVec.toNat_ofNat]
    exact Nat.mod_eq_of_lt (by omega)
  have hsize : (nextPow2 (segSize align size)).toNat = 2 ^ b.segment.pow2Exp.toNat := by
    rw [nextPow2, pow2_toNat, if_pos (by omega), Nat.mod_eq_of_lt (by omega), hstored]
  have hroom : total align size ≤ 2 ^ b.segment.pow2Exp.toNat := hstored ▸ (hle _).mp le_rfl
  have hinside := memalign.inside halloc
  rw [hsize] at hinside
  have hwords : (size / align * sizeofControl).toNat = size.toNat / align.toNat * 16 := by
    rw [BitVec.toNat_mul, BitVec.toNat_udiv]
    refine Nat.mod_eq_of_lt ?_
    have : size.toNat / align.toNat * 16 ≤ total align size := by rw [total]; omega
    exact lt_of_le_of_lt this (by omega)
  have hc : b.segment.control.toNat = b.address.toNat + (fstAlignedOffset align).toNat := by
    rw [hcontrol, BitVec.toNat_add]
    exact Nat.mod_eq_of_lt (by rw [total] at hroom; omega)
  have hr : b.segment.read.toNat = b.segment.control.toNat + size.toNat / align.toNat * 16 := by
    rw [hread, ← hcontrol, BitVec.toNat_add, hwords, hc]
    exact Nat.mod_eq_of_lt (by rw [total] at hroom; omega)
  refine ⟨hstored ▸ hsmall, hroom, fun k hk => hstored ▸ (hle k).mpr hk, by rw [hlen, hsize],
    by rw [halign, hsize], hsize ▸ memalign.aligned halloc, hinside, hc, hr, ?_⟩
  rw [hwrite, BitVec.toNat_add, hr, hc]
  exact Nat.mod_eq_of_lt (by rw [total] at hroom; omega)

theorem Placed.fits (h : Placed align size b) (ha : IsPow2 align) : Fits align size b where
  room := h.length ▸ h.room
  header := by
    have := (fstAlignedOffset_spec ha).2.1
    have := h.control
    omega
  control := h.read.ge
  read := h.write.ge
  write := by
    have := h.room
    rw [h.write, h.read, h.control, h.length]
    rw [total] at this
    omega
  length := h.length
  alignment := h.alignment
  least := h.least

/-- The sizes for which `posix_memalign` is asked for an alignment that it takes. -/
theorem nextPow2_valid {x : Word} :
    (8 ∣ (nextPow2 x).toNat ∧ ∃ k, (nextPow2 x).toNat = 2 ^ k) ↔
      (4 < x.toNat ∧ x.toNat ≤ 2 ^ 30) ∨ (2 ^ 34 < x.toNat ∧ x.toNat ≤ 2 ^ 62) := by
  rw [nextPow2, pow2_valid]
  have h64 := pow2Exp_le_64 x
  by_cases hx : x = 0#64
  · subst x
    rw [pow2Exp_zero]
    decide
  · have hpos : 0 < x.toNat := Nat.pos_of_ne_zero fun he => hx (BitVec.eq_of_toNat_eq he)
    have h2 := pow2Exp_le (k := 2) hpos
    have h30 := pow2Exp_le (k := 30) hpos
    have h34 := pow2Exp_le (k := 34) hpos
    have h62 := pow2Exp_le (k := 62) hpos
    omega

/-- The requests that fail, or are given the room that they need. -/
def Served (align size : Word) : Prop :=
  total align size ≤ 2 ^ 30 ∨ total align size % 2 ^ 64 ≤ 4 ∨
    (2 ^ 30 < total align size % 2 ^ 64 ∧ total align size % 2 ^ 64 ≤ 2 ^ 34) ∨
    2 ^ 62 < total align size % 2 ^ 64

/-- A `posix_memalign` that finds its block at the address `place a`. -/
def memalignAt (place : Word → Word) : Memalign where
  alloc a n := if 8 ∣ a.toNat ∧ a.toNat = 2 ^ a.toNat.log2 ∧ a.toNat ∣ (place a).toNat ∧
    (place a).toNat + n.toNat < 2 ^ 64 then some (place a) else none
  valid h := by
    split_ifs at h with hv
    exact ⟨hv.1, _, hv.2.1⟩
  aligned h := by
    split_ifs at h with hv
    cases h
    exact hv.2.2.1
  inside h := by
    split_ifs at h with hv
    cases h
    exact hv.2.2.2

theorem nextPow2_le {x : Word} (h : 8 ∣ (nextPow2 x).toNat ∧ ∃ k, (nextPow2 x).toNat = 2 ^ k) :
    ∃ k ≤ 30, (nextPow2 x).toNat = 2 ^ k := by
  have hshift := pow2_valid.mp h
  refine ⟨pow2Exp x % 32, hshift.2, ?_⟩
  rw [nextPow2, pow2_toNat, if_pos (by omega)]

theorem memalignAt_alloc {p : Word → Word} (tx : Tx)
    (h : (4 < (segSize align size).toNat ∧ (segSize align size).toNat ≤ 2 ^ 30) ∨
      (2 ^ 34 < (segSize align size).toNat ∧ (segSize align size).toNat ≤ 2 ^ 62))
    (hd : (nextPow2 (segSize align size)).toNat ∣ (p (nextPow2 (segSize align size))).toNat)
    (hin : (p (nextPow2 (segSize align size))).toNat +
      (nextPow2 (segSize align size)).toNat < 2 ^ 64) :
    ∃ b, allocSegment (memalignAt p) align size tx = some b ∧
      b.address = p (nextPow2 (segSize align size)) := by
  have hvalid := nextPow2_valid.mpr h
  obtain ⟨k, -, hpow⟩ := nextPow2_le hvalid
  have halloc : (memalignAt p).alloc (nextPow2 (segSize align size))
      (nextPow2 (segSize align size)) = some (p (nextPow2 (segSize align size))) := by
    refine if_pos ⟨hvalid.1, ?_, hd, hin⟩
    rw [hpow, Nat.log2_two_pow]
  cases hb : allocSegment (memalignAt p) align size tx with
  | none => simp [allocSegment, halloc] at hb
  | some b =>
    obtain ⟨address, ha, haddr, -⟩ := allocSegment_some hb
    rw [halloc, Option.some.injEq] at ha
    exact ⟨b, rfl, by rw [haddr, ha]⟩

/-- Any request of a size that is taken can find a block. -/
theorem memalignAt_id (tx : Tx)
    (h : (4 < (segSize align size).toNat ∧ (segSize align size).toNat ≤ 2 ^ 30) ∨
      (2 ^ 34 < (segSize align size).toNat ∧ (segSize align size).toNat ≤ 2 ^ 62)) :
    ∃ b, allocSegment (memalignAt fun a => a) align size tx = some b := by
  obtain ⟨k, hk, hpow⟩ := nextPow2_le (nextPow2_valid.mpr h)
  have hsmall : 2 ^ k ≤ 2 ^ 30 := Nat.pow_le_pow_right (by decide) hk
  have hin : (nextPow2 (segSize align size)).toNat + (nextPow2 (segSize align size)).toNat <
      2 ^ 64 := by
    rw [hpow]
    exact lt_of_le_of_lt (Nat.add_le_add hsmall hsmall) (by decide)
  obtain ⟨b, hb, -⟩ := memalignAt_alloc (p := fun a => a) tx h (Nat.dvd_refl _) hin
  exact ⟨b, hb⟩

/-- A request that is not served gets a block, and the block is too small. -/
theorem unserved_overflows (hn : ¬ Served align size) (tx : Tx) :
    ∃ b, allocSegment (memalignAt fun a => a) align size tx = some b ∧ b.length.toNat < total align size := by
  simp only [Served, not_or, not_and, not_le, not_lt, ← segSize_toNat] at hn
  obtain ⟨htotal, hlow, hmid, hhigh⟩ := hn
  have hgap : (4 < (segSize align size).toNat ∧ (segSize align size).toNat ≤ 2 ^ 30) ∨
      (2 ^ 34 < (segSize align size).toNat ∧ (segSize align size).toNat ≤ 2 ^ 62) := by omega
  obtain ⟨b, hb⟩ := memalignAt_id tx hgap
  obtain ⟨address, halloc, -, -, hlen, -⟩ := allocSegment_some hb
  obtain ⟨k, hk, hpow⟩ := nextPow2_le ((memalignAt fun a => a).valid halloc)
  have hsmall : 2 ^ k ≤ 2 ^ 30 := Nat.pow_le_pow_right (by decide) hk
  exact ⟨b, hb, by rw [hlen]; omega⟩

end Layout

/-- `alloc_segment` gives a segment the room that it needs exactly for the requests whose sum
is at most `2 ^ 30`, or wraps around or overflows the shift into a size that is refused. -/
theorem alloc_segment_fits {align size : Word} (ha : IsPow2 align) :
    (∀ (memalign : Memalign) (tx : Tx) (b : Block),
      allocSegment memalign align size tx = some b → Fits align size b) ↔ Served align size := by
  constructor
  · intro hall
    by_contra hn
    obtain ⟨b, hb, hlt⟩ := unserved_overflows hn 0#64
    have := (hall (memalignAt fun a => a) 0#64 b hb).room
    omega
  · rintro (ht | hrest) memalign tx b hb
    · exact (allocSegment_placed hb ha ht).fits ha
    · -- the alignment is not one that `posix_memalign` takes
      obtain ⟨address, halloc, -⟩ := allocSegment_some hb
      have hvalid := nextPow2_valid.mp (memalign.valid halloc)
      rw [segSize_toNat] at hvalid
      omega

theorem alloc_segment_fits_small :
    ∃ b, allocSegment (memalignAt fun a => a) 8#64 64#64 1#64 = some b ∧ Fits 8#64 64#64 b := by
  obtain ⟨b, hb⟩ : ∃ b, allocSegment (memalignAt fun a => a) 8#64 64#64 1#64 = some b :=
    memalignAt_id 1#64 (.inl (by decide))
  exact ⟨b, hb, (alloc_segment_fits ⟨3, rfl⟩).mpr (.inl (by decide)) (memalignAt fun a => a) 1#64 b hb⟩

/-- The sum for `2 ^ 62` bytes wraps around to 112. -/
theorem huge_request_overflows : ¬ ∀ (memalign : Memalign) (tx : Tx) (b : Block),
    allocSegment memalign 8#64 0x4000000000000000#64 tx = some b →
      Fits 8#64 0x4000000000000000#64 b := by
  intro hall
  have hn : ¬ Served 8#64 0x4000000000000000#64 := by
    unfold Served
    decide
  obtain ⟨b, hb, hlt⟩ := unserved_overflows hn 0#64
  have := (hall (memalignAt fun a => a) 0#64 b hb).room
  omega

end SegmentBlocks
