import RainstormOs.Memory.Paging
import RainstormOs.Lib.BitField

/-!
# Addresses, frames and pages as numbers

The C macros work on 64-bit words; every proof about them works on the words' values. This module is
the bridge: what each macro of `mm.h` computes as arithmetic on naturals, and the frame an address
lies in.
-/

namespace RainstormOs

def frameOf (addr : BitVec 64) : Nat := addr.toNat / 4096

def frameAddr (frame : Nat) : PhysAddr := BitVec.ofNat 64 frame * pageSize

theorem isPageAligned_iff (addr : BitVec 64) : IsPageAligned addr ↔ addr.toNat % 4096 = 0 := by
  have hmask : BitField.IsMask pageMask 0 12 := by decide
  rw [IsPageAligned, ← BitVec.toNat_inj, BitField.toNat_and_of_isMask hmask]
  simp

theorem getLsbD_of_isPageAligned {addr : BitVec 64} (haligned : IsPageAligned addr) {k : Nat}
    (hk : k < 12) : addr.getLsbD k = false := by
  have hmask : BitField.IsMask pageMask 0 12 := by decide
  have hlow : (addr &&& pageMask).getLsbD k = false := by
    rw [haligned, BitVec.getLsbD_zero]
  rw [BitVec.getLsbD_and, hmask k (by omega)] at hlow
  simpa [hk] using hlow

theorem toNat_div_pageSize (addr : BitVec 64) : (addr / pageSize).toNat = frameOf addr := by
  rw [BitVec.toNat_udiv]
  rfl

theorem toNat_mul_pageSize {n : BitVec 64} (hn : n.toNat < 2 ^ 52) :
    (n * pageSize).toNat = n.toNat * 4096 := by
  rw [BitVec.toNat_mul]
  exact Nat.mod_eq_of_lt (by change n.toNat * 4096 < _; omega)

theorem toNat_pageAlignUp {size : BitVec 64} (hsize : size.toNat + 4095 < 2 ^ 64) :
    (pageAlignUp size).toNat = (size.toNat + 4095) / 4096 * 4096 := by
  have hmask : BitField.IsMask (~~~pageMask) 12 64 := by decide
  have hsum : (size + pageMask).toNat = size.toNat + 4095 := by
    rw [BitVec.toNat_add]
    exact Nat.mod_eq_of_lt hsize
  rw [pageAlignUp, BitField.toNat_and_of_isMask hmask, hsum, Nat.mod_eq_of_lt hsize]
  rfl

theorem toNat_pageCount {size : BitVec 64} (hsize : size.toNat + 4095 < 2 ^ 64) :
    (pageCount size).toNat = (size.toNat + 4095) / 4096 := by
  rw [pageCount, toNat_div_pageSize, frameOf, toNat_pageAlignUp hsize,
    Nat.mul_div_cancel _ (by decide)]

theorem toNat_frameAddr {frame : Nat} (hframe : frame < 2 ^ 52) :
    (frameAddr frame).toNat = frame * 4096 := by
  have hval : (BitVec.ofNat 64 frame).toNat = frame := by
    rw [BitVec.toNat_ofNat]
    exact Nat.mod_eq_of_lt (by omega)
  rw [frameAddr, toNat_mul_pageSize (by omega), hval]

@[simp]
theorem frameOf_frameAddr {frame : Nat} (hframe : frame < 2 ^ 52) :
    frameOf (frameAddr frame) = frame := by
  rw [frameOf, toNat_frameAddr hframe, Nat.mul_div_cancel _ (by decide)]

theorem isPageAligned_frameAddr {frame : Nat} (hframe : frame < 2 ^ 52) :
    IsPageAligned (frameAddr frame) := by
  rw [isPageAligned_iff, toNat_frameAddr hframe, Nat.mul_mod_left]

theorem frameOf_lt (addr : BitVec 64) : frameOf addr < 2 ^ 52 := by
  have := addr.isLt
  unfold frameOf
  omega

theorem isPageAligned_add_pages {addr : BitVec 64} (haligned : IsPageAligned addr) (i : Nat) :
    IsPageAligned (addr + BitVec.ofNat 64 i * pageSize) := by
  rw [isPageAligned_iff] at haligned ⊢
  rw [BitVec.toNat_add, BitVec.toNat_mul]
  change (_ + _ * 4096 % 2 ^ 64) % 2 ^ 64 % 4096 = 0
  omega

theorem frameAddr_frameOf {addr : BitVec 64} (haligned : IsPageAligned addr) :
    frameAddr (frameOf addr) = addr := by
  rw [isPageAligned_iff] at haligned
  apply BitVec.eq_of_toNat_eq
  rw [toNat_frameAddr (frameOf_lt addr), frameOf]
  omega

theorem toNat_add_of_aligned {addr offset : BitVec 64} (haligned : IsPageAligned addr)
    (hoffset : offset.toNat < 4096) : (addr + offset).toNat = addr.toNat + offset.toNat := by
  rw [isPageAligned_iff] at haligned
  rw [BitVec.toNat_add]
  have := addr.isLt
  exact Nat.mod_eq_of_lt (by omega)

theorem frameOf_add_of_aligned {addr offset : BitVec 64} (haligned : IsPageAligned addr)
    (hoffset : offset.toNat < 4096) : frameOf (addr + offset) = frameOf addr := by
  rw [frameOf, toNat_add_of_aligned haligned hoffset, frameOf]
  rw [isPageAligned_iff] at haligned
  omega

end RainstormOs
