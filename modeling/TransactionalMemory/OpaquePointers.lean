import TransactionalMemory.SegmentBlocks

/-! # Opaque pointers

The client gets the address of the read copy with the exponent of the block in its upper 16
bits, and computes with it. The tag says how many low bits lead from any word of the copy back
to the header. -/
namespace OpaquePointers

open MachineWords
open SegmentBlocks

def consOpaquePtr (exp ptr : Word) : Word := ptr ||| exp <<< 48

def consOpaquePtrForSeg (seg : Segment) : Word := consOpaquePtr seg.pow2Exp seg.read

def getOpaquePtrWord (ptr : Word) : Word :=
  let clearExp := (1#64 <<< 48) - 1#64
  ptr &&& clearExp

def getWordSegOffset (word : Word) (seg : Segment) : Word := word - seg.read

/-- The `int` of the mask is converted before the exclusive or. -/
def getOpaquePtrSegWord (ptr word : Word) : Word :=
  let exp := ptr >>> 48
  let mask := BitVec.allOnes 64 ^^^ (shiftedOne exp.toNat - 1#32).signExtend 64
  word &&& mask

def getOpaquePtrSeg (ptr : Word) : Word := getOpaquePtrSegWord ptr (getOpaquePtrWord ptr)

/-- `live` are the segments in use, by the addresses of their blocks. -/
def getOpaquePtrWordOffset (live : Word → Option Segment) (ptr : Word) : Option Word := do
  let word := getOpaquePtrWord ptr
  let seg ← live (getOpaquePtrSeg ptr)
  return word - seg.read

/-! ### Tags and masks -/

theorem getOpaquePtrWord_toNat (ptr : Word) : (getOpaquePtrWord ptr).toNat = ptr.toNat % 2 ^ 48 :=
  toNat_and_low rfl

theorem getOpaquePtrSegWord_toNat {ptr word : Word} (h : ptr.toNat / 2 ^ 48 ≤ 30) :
    (getOpaquePtrSegWord ptr word).toNat =
      word.toNat - word.toNat % 2 ^ (ptr.toNat / 2 ^ 48) := by
  have all : ∀ e ≤ 30, ((shiftedOne e - 1#32).signExtend 64).toNat = 2 ^ e - 1 := by decide
  have hexp : (ptr >>> 48).toNat = ptr.toNat / 2 ^ 48 := by
    rw [BitVec.toNat_ushiftRight, Nat.shiftRight_eq_div_pow]
  rw [getOpaquePtrSegWord, BitVec.allOnes_xor]
  exact toNat_and_high (hexp ▸ all _ (hexp ▸ h))

theorem consOpaquePtr_toNat {exp ptr : Word} (hp : ptr.toNat < 2 ^ 48) (he : exp.toNat < 2 ^ 16) :
    (consOpaquePtr exp ptr).toNat = ptr.toNat + exp.toNat * 2 ^ 48 :=
  toNat_or_tag hp (by omega)

/-- Without its tag a pointer is the address again, but for the bits that the tag covers. -/
theorem untagged (exp ptr : Word) :
    (getOpaquePtrWord (consOpaquePtr exp ptr)).toNat = ptr.toNat % 2 ^ 48 := by
  rw [getOpaquePtrWord_toNat]
  exact toNat_or_tag_mod ptr exp (by decide)

/-! ### Alignment of the copies -/

/-- The two copies, and the address that the client is given, are multiples of `align`. -/
structure Aligned (align : Word) (b : Block) : Prop where
  read : align.toNat ∣ b.segment.read.toNat
  write : align.toNat ∣ b.segment.write.toNat
  handed : align.toNat ∣ (getOpaquePtrWord (consOpaquePtrForSeg b.segment)).toNat

section Alignment

variable {align size : Word} {b : Block}

/-- A power of two that fits in a block divides its address. -/
theorem dvd_address (h : Placed align size b) (ha : IsPow2 align)
    (hle : align.toNat ≤ total align size) :
    align.toNat ∣ b.address.toNat ∧ align.toNat ∣ 2 ^ 48 := by
  obtain ⟨k, hk⟩ := ha
  rw [hk] at hle ⊢
  have hle' := hle.trans h.room
  rw [Nat.pow_le_pow_iff_right (by decide)] at hle'
  have := h.small
  exact ⟨Nat.dvd_trans (Nat.pow_dvd_pow 2 hle') h.aligned, Nat.pow_dvd_pow 2 (by omega)⟩

/-- Behind a header that was rounded up only the control array can spoil the alignment. -/
theorem aligned_iff (h : Placed align size b) (ha : IsPow2 align) (hs : align.toNat ∣ size.toNat)
    (hpos : 0 < size.toNat) :
    Aligned align b ↔ align.toNat ∣ size.toNat / align.toNat * 16 := by
  have hle : align.toNat ≤ total align size := by
    have := Nat.le_of_dvd hpos hs
    rw [total]
    omega
  obtain ⟨haddr, h48⟩ := dvd_address h ha hle
  have hread : align.toNat ∣ b.segment.read.toNat ↔ align.toNat ∣ size.toNat / align.toNat * 16 := by
    rw [h.read, h.control]
    exact Nat.dvd_add_right (Nat.dvd_add haddr (fstAlignedOffset_spec ha).1)
  constructor
  · intro hall
    exact hread.mp hall.read
  · intro hwords
    have hr := hread.mpr hwords
    refine ⟨hr, ?_, ?_⟩
    · rw [h.write]
      exact Nat.dvd_add hr hs
    · rw [consOpaquePtrForSeg, untagged]
      exact (Nat.dvd_mod_iff h48).mpr hr

end Alignment

/-- The copies of a segment are aligned exactly when the control array fills whole units of the
alignment. -/
theorem copies_aligned {align size : Word} (ha : IsPow2 align) (hs : align.toNat ∣ size.toNat)
    (hpos : 0 < size.toNat) (ht : total align size < 2 ^ 30) :
    (∀ (memalign : Memalign) (tx : ControlWord.Tx) (b : Block),
      allocSegment memalign align size tx = some b → Aligned align b) ↔
      align.toNat ∣ size.toNat / align.toNat * 16 := by
  constructor
  · intro hall
    have hfst := (fstAlignedOffset_spec ha).2.1
    have hsize : (segSize align size).toNat = total align size := by
      rw [segSize_toNat]
      exact Nat.mod_eq_of_lt (by omega)
    obtain ⟨b, hb⟩ : ∃ b, allocSegment (memalignAt fun a => a) align size 0#64 = some b :=
      memalignAt_id 0#64 (.inl ⟨by rw [hsize, total]; omega, by rw [hsize]; omega⟩)
    exact (aligned_iff (allocSegment_placed hb ha ht.le) ha hs hpos).mp (hall _ _ b hb)
  · intro hwords memalign tx b hb
    exact (aligned_iff (allocSegment_placed hb ha ht.le) ha hs hpos).mpr hwords

theorem copies_aligned_16 :
    ∃ b, allocSegment (memalignAt fun a => a) 16#64 64#64 1#64 = some b ∧ Aligned 16#64 b := by
  obtain ⟨b, hb⟩ : ∃ b, allocSegment (memalignAt fun a => a) 16#64 64#64 1#64 = some b :=
    memalignAt_id 1#64 (.inl (by decide))
  exact ⟨b, hb, (copies_aligned ⟨4, rfl⟩ (by decide) (by decide) (by decide)).mpr (by decide) _ _
    b hb⟩

/-- One word of 32 bytes: its copy is 144 bytes behind a multiple of 256. -/
theorem copies_unaligned_32 : ¬ ∀ (memalign : Memalign) (tx : ControlWord.Tx) (b : Block),
    allocSegment memalign 32#64 32#64 tx = some b → Aligned 32#64 b := by
  intro hall
  have ha : IsPow2 32#64 := ⟨5, rfl⟩
  obtain ⟨b, hb⟩ : ∃ b, allocSegment (memalignAt fun a => a) 32#64 32#64 0#64 = some b :=
    memalignAt_id 0#64 (.inl (by decide))
  have hwords := (aligned_iff (allocSegment_placed hb ha (by decide)) ha (by decide)
    (by decide)).mp (hall _ _ b hb)
  revert hwords
  decide

/-- Alignments up to that of the control words are kept. -/
theorem small_alignments {align size : Word} {b : Block} (h : Placed align size b)
    (ha : IsPow2 align) (hle : align.toNat ≤ 16) (hs : align.toNat ∣ size.toNat)
    (hpos : 0 < size.toNat) : Aligned align b := by
  rw [aligned_iff h ha hs hpos]
  obtain ⟨k, hk⟩ := ha
  rw [hk] at hle ⊢
  have hle' : 2 ^ k ≤ 2 ^ 4 := hle
  rw [Nat.pow_le_pow_iff_right (by decide)] at hle'
  exact Nat.dvd_trans (Nat.pow_dvd_pow 2 hle') (Nat.dvd_mul_left ..)

/-! ### Pointers into a segment -/

/-- A block that `alloc_segment` laid out for `align`, at an address that leaves room for a tag. -/
structure LaidOut (align : Word) (b : Block) : Prop where
  pow2 : IsPow2 align
  alloc : ∃ memalign tx, allocSegment memalign align b.segment.size tx = some b
  small : total align b.segment.size ≤ 2 ^ 30
  low : b.address.toNat + 2 ^ b.segment.pow2Exp.toNat ≤ 2 ^ 48

/-- The pointer of a client to the byte `k` of the segment in `b`. -/
def opaquePtr (b : Block) (k : Word) : Word := consOpaquePtrForSeg b.segment + k

structure Decodes (b : Block) (k ptr : Word) : Prop where
  word : getOpaquePtrWord ptr = b.segment.read + k
  seg : getOpaquePtrSeg ptr = b.address
  offset : getWordSegOffset (getOpaquePtrWord ptr) b.segment = k
  wordOffset : ∀ live : Word → Option Segment, live b.address = some b.segment →
    getOpaquePtrWordOffset live ptr = some k

/-- No byte is in both blocks. -/
def Apart (b c : Block) : Prop :=
  b.address.toNat + b.length.toNat ≤ c.address.toNat ∨
    c.address.toNat + c.length.toNat ≤ b.address.toNat

section Pointers

variable {align align' : Word} {b c : Block} {k j : Word}

theorem LaidOut.placed (h : LaidOut align b) : Placed align b.segment.size b := by
  obtain ⟨memalign, tx, halloc⟩ := h.alloc
  exact allocSegment_placed halloc h.pow2 h.small

/-- The byte `k` of the read copy is inside the block. -/
theorem LaidOut.byte (h : LaidOut align b) (hk : k.toNat < b.segment.size.toNat) :
    b.address.toNat ≤ b.segment.read.toNat + k.toNat ∧
      b.segment.read.toNat + k.toNat < b.address.toNat + 2 ^ b.segment.pow2Exp.toNat := by
  have hp := h.placed
  have hroom := hp.room
  rw [total] at hroom
  rw [hp.read, hp.control]
  omega

theorem opaquePtr_toNat (h : LaidOut align b) (hk : k.toNat < b.segment.size.toNat) :
    (opaquePtr b k).toNat =
      b.segment.read.toNat + k.toNat + b.segment.pow2Exp.toNat * 2 ^ 48 := by
  have hbyte := h.byte hk
  have hlow := h.low
  have hsmall := h.placed.small
  rw [opaquePtr, BitVec.toNat_add, consOpaquePtrForSeg, consOpaquePtr_toNat (by omega) (by omega)]
  rw [Nat.mod_eq_of_lt (by omega)]
  omega

theorem opaquePtr_decodes (h : LaidOut align b) (hk : k.toNat < b.segment.size.toNat) :
    Decodes b k (opaquePtr b k) := by
  have hbyte := h.byte hk
  have hlow := h.low
  have hsmall := h.placed.small
  have hptr := opaquePtr_toNat h hk
  have hsum : (b.segment.read + k).toNat = b.segment.read.toNat + k.toNat := by
    rw [BitVec.toNat_add]
    exact Nat.mod_eq_of_lt (by omega)
  have hword : getOpaquePtrWord (opaquePtr b k) = b.segment.read + k := by
    apply BitVec.eq_of_toNat_eq
    rw [getOpaquePtrWord_toNat, hptr, hsum]
    omega
  have hexp : (opaquePtr b k).toNat / 2 ^ 48 = b.segment.pow2Exp.toNat := by omega
  have hseg : getOpaquePtrSeg (opaquePtr b k) = b.address := by
    apply BitVec.eq_of_toNat_eq
    rw [getOpaquePtrSeg, getOpaquePtrSegWord_toNat (by omega), hexp, hword, hsum]
    exact sub_mod_of_dvd h.placed.aligned hbyte.1 hbyte.2
  have hoffset : getWordSegOffset (getOpaquePtrWord (opaquePtr b k)) b.segment = k := by
    rw [hword, getWordSegOffset, BitVec.add_comm, BitVec.add_sub_cancel]
  refine ⟨hword, hseg, hoffset, fun live hlive => ?_⟩
  simp only [getOpaquePtrWordOffset, hseg, hlive, Option.bind_eq_bind, Option.bind_some]
  exact congrArg some hoffset

/-- Blocks that start at one address overlap. -/
theorem Apart.address_ne (h : Apart b c) (hb : 0 < b.length.toNat) (hc : 0 < c.length.toNat) :
    b.address ≠ c.address := by
  intro he
  rw [Apart, he] at h
  omega

theorem LaidOut.length_pos (h : LaidOut align b) : 0 < b.length.toNat := by
  rw [h.placed.length]
  exact Nat.two_pow_pos _

end Pointers

/-- Every aligned address below the tags is that of a block. -/
theorem laidOut_at {align size address : Word} (ha : IsPow2 align)
    (ht : total align size ≤ 2 ^ 30)
    (hd : 2 ^ pow2Exp (segSize align size) ∣ address.toNat)
    (hlow : address.toNat + 2 ^ pow2Exp (segSize align size) ≤ 2 ^ 48) :
    ∃ b, LaidOut align b ∧ b.address = address ∧ b.segment.size = size ∧
      b.segment.pow2Exp.toNat = pow2Exp (segSize align size) := by
  have hfst := (fstAlignedOffset_spec ha).2.1
  have hsize : (segSize align size).toNat = total align size := by
    rw [segSize_toNat]
    exact Nat.mod_eq_of_lt (by omega)
  have hbig : 4 < total align size := by
    rw [total]
    omega
  have hsmall : pow2Exp (segSize align size) ≤ 30 := (pow2Exp_le (by omega)).mpr (by omega)
  have hnext : (nextPow2 (segSize align size)).toNat = 2 ^ pow2Exp (segSize align size) := by
    rw [nextPow2, pow2_toNat, Nat.mod_eq_of_lt (by omega), if_pos (by omega)]
  obtain ⟨b, hb, haddr⟩ := memalignAt_alloc (p := fun _ => address) 0#64 (.inl (by omega))
    (hnext ▸ hd) (by rw [hnext]; omega)
  obtain ⟨-, -, -, -, -, hexp, hbsize, -⟩ := allocSegment_some hb
  have hstored : b.segment.pow2Exp.toNat = pow2Exp (segSize align size) := by
    rw [hexp, BitVec.toNat_ofNat]
    exact Nat.mod_eq_of_lt (by omega)
  exact ⟨b, ⟨ha, ⟨_, _, hbsize ▸ hb⟩, hbsize ▸ ht, by rw [haddr, hstored]; exact hlow⟩, haddr, hbsize,
    hstored⟩

/-- A pointer that the client computed leads to its word and its segment, and names no other
byte of a live segment. -/
theorem opaque_pointers_decode {align : Word} {b : Block} {k : Word} (h : LaidOut align b)
    (hk : k.toNat < b.segment.size.toNat) :
    Decodes b k (opaquePtr b k) ∧ ∀ (align' : Word) (c : Block) (j : Word), LaidOut align' c →
      j.toNat < c.segment.size.toNat → (b = c ∨ Apart b c) →
        (opaquePtr b k = opaquePtr c j ↔ b = c ∧ k = j) := by
  refine ⟨opaquePtr_decodes h hk, fun align' c j hc hj hlive => ⟨fun he => ?_, ?_⟩⟩
  · have hb := opaquePtr_decodes h hk
    have hcd := opaquePtr_decodes hc hj
    rw [← he] at hcd
    rcases hlive with rfl | hapart
    · exact ⟨rfl, hb.offset.symm.trans hcd.offset⟩
    · exact (hapart.address_ne h.length_pos hc.length_pos (hb.seg.symm.trans hcd.seg)).elim
  · rintro ⟨rfl, rfl⟩
    rfl

theorem opaque_pointers_decode_neighbours : ∃ b c, LaidOut 8#64 b ∧ LaidOut 8#64 c ∧ Apart b c ∧
    Decodes b 7#64 (opaquePtr b 7#64) ∧ opaquePtr b 7#64 ≠ opaquePtr c 7#64 := by
  have h9 : pow2Exp (segSize 8#64 64#64) = 9 := by
    rw [pow2Exp_eq]
    decide
  have block : ∀ address : Word, 2 ^ 9 ∣ address.toNat → address.toNat + 2 ^ 9 ≤ 2 ^ 48 →
      ∃ b, LaidOut 8#64 b ∧ b.address = address ∧ b.segment.size = 64#64 ∧
        b.segment.pow2Exp.toNat = 9 := by
    intro address hd hlow
    rw [← h9] at hd hlow ⊢
    exact laidOut_at ⟨3, rfl⟩ (by decide) hd hlow
  obtain ⟨b, hb, hba, hbs, hbe⟩ := block 0x1739800#64 (by decide) (by decide)
  obtain ⟨c, hc, hca, hcs, -⟩ := block 0x1739a00#64 (by decide) (by decide)
  have hapart : Apart b c := by
    left
    rw [hb.placed.length, hbe, hba, hca]
    decide
  have hkb : (7#64).toNat < b.segment.size.toNat := by rw [hbs]; decide
  have hkc : (7#64).toNat < c.segment.size.toNat := by rw [hcs]; decide
  obtain ⟨hdec, hother⟩ := opaque_pointers_decode hb hkb
  refine ⟨b, c, hb, hc, hapart, hdec, fun he => ?_⟩
  have hbc := ((hother _ c _ hc hkc (.inr hapart)).mp he).1
  rw [← hbc, hba] at hca
  exact absurd hca (by decide)

end OpaquePointers
