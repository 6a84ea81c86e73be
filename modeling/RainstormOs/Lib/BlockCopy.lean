import RainstormOs.Lib.ByteMemory

/-!
# Copying a block

A copy is described by what it has done so far: the bytes of the block whose offsets lie in a window
hold the source's bytes of the memory it started from, and nothing else has changed. A loop widens
the window at one end. Source and destination may overlap, so the next byte is the original one only
if its address is not among those already written.
-/

namespace ByteMemory

variable {w n : Nat} {mem : ByteMemory w} {dest src x : BitVec w} {first last k : Nat}

/-- The bytes at offsets from `first` up to `last` copied from a snapshot of the memory. -/
def copy (mem : ByteMemory w) (dest src : BitVec w) (first last : Nat) : ByteMemory w :=
  fun x =>
    if first ≤ (x - dest).toNat ∧ (x - dest).toNat < last then mem (src + (x - dest)) else mem x

theorem copy_of_mem (hin : first ≤ (x - dest).toNat ∧ (x - dest).toNat < last) :
    mem.copy dest src first last x = mem (src + (x - dest)) := by
  rw [copy, if_pos hin]

theorem copy_of_not_mem (hout : ¬ (first ≤ (x - dest).toNat ∧ (x - dest).toNat < last)) :
    mem.copy dest src first last x = mem x := by
  rw [copy, if_neg hout]

@[simp]
theorem copy_empty (mem : ByteMemory w) (dest src : BitVec w) (k : Nat) :
    mem.copy dest src k k = mem := by
  funext x
  exact copy_of_not_mem (by omega)

/-- The copied byte at an offset of the window. -/
theorem copy_add_ofNat (hlow : first ≤ k) (hhigh : k < last) (hk : k < 2 ^ w) :
    mem.copy dest src first last (dest + BitVec.ofNat w k) = mem (src + BitVec.ofNat w k) := by
  have hoffset := toNat_add_ofNat_sub dest hk
  rw [copy_of_mem (by omega), BitVec.add_comm dest, BitVec.add_sub_cancel]

/-- Byte `i` of a word. -/
theorem extractLsb'_readWord {addr : BitVec w} {i : Nat} (hi : i < n) :
    (mem.readWord addr n).extractLsb' (8 * i) 8 = mem (addr + BitVec.ofNat w i) := by
  apply BitVec.eq_of_getLsbD_eq
  intro bit hbit
  have hdiv : (8 * i + bit) / 8 = i := by omega
  have hmod : (8 * i + bit) % 8 = bit := by omega
  rw [BitVec.getLsbD_extractLsb', getLsbD_readWord mem addr (by omega), hdiv, hmod,
    decide_eq_true hbit, Bool.true_and]

/-- Distances from an address inside a block and from the block's start. -/
theorem toNat_sub_add_ofNat (hk : k + n ≤ 2 ^ w) :
    ((x - (dest + BitVec.ofNat w k)).toNat < n ↔
        k ≤ (x - dest).toNat ∧ (x - dest).toNat < k + n)
      ∧ (k ≤ (x - dest).toNat →
          (x - (dest + BitVec.ofNat w k)).toNat = (x - dest).toNat - k) := by
  have hoffset := (x - dest).isLt
  rcases Nat.lt_or_ge k (2 ^ w) with hsmall | hlarge
  · have hsub : (x - (dest + BitVec.ofNat w k)).toNat
        = (2 ^ w - k + (x - dest).toNat) % 2 ^ w := by
      rw [← BitVec.sub_sub, BitVec.toNat_sub, BitVec.toNat_ofNat, Nat.mod_eq_of_lt hsmall]
    rcases Nat.lt_or_ge (x - dest).toNat k with hlt | hge
    · rw [hsub, Nat.mod_eq_of_lt (by omega)]
      omega
    · have hwrap : 2 ^ w - k + (x - dest).toNat = (x - dest).toNat - k + 2 ^ w := by omega
      rw [hsub, hwrap, Nat.add_mod_right, Nat.mod_eq_of_lt (by omega)]
      omega
  · omega

/-- Writing a word of the snapshot at its offset joins its bytes to the window. -/
theorem writeWord_copy {first' last' : Nat} (hk : k + n ≤ 2 ^ w)
    (hjoin : ∀ i, (first' ≤ i ∧ i < last') ↔ (first ≤ i ∧ i < last) ∨ (k ≤ i ∧ i < k + n)) :
    (mem.copy dest src first last).writeWord (dest + BitVec.ofNat w k) n
        (mem.readWord (src + BitVec.ofNat w k) n)
      = mem.copy dest src first' last' := by
  funext x
  obtain ⟨hin, hsub⟩ := @toNat_sub_add_ofNat w n dest x k hk
  by_cases hword : k ≤ (x - dest).toNat ∧ (x - dest).toNat < k + n
  · have hsource : src + BitVec.ofNat w k + BitVec.ofNat w ((x - dest).toNat - k)
        = src + (x - dest) := by
      rw [BitVec.add_assoc, ← BitVec.ofNat_add, Nat.add_sub_cancel' hword.1, BitVec.ofNat_toNat,
        BitVec.setWidth_eq]
    rw [writeWord, if_pos (hin.mpr hword), hsub hword.1, extractLsb'_readWord (by omega), hsource,
      copy_of_mem ((hjoin _).mpr (Or.inr hword))]
  · rw [writeWord, if_neg (mt hin.mp hword)]
    by_cases hold : first ≤ (x - dest).toNat ∧ (x - dest).toNat < last
    · rw [copy_of_mem hold, copy_of_mem ((hjoin _).mpr (Or.inl hold))]
    · rw [copy_of_not_mem hold, copy_of_not_mem]
      intro hnew
      exact ((hjoin _).mp hnew).elim hold hword

/-- A word that meets neither the copied bytes nor their source is written before or after the copy,
all the same. -/
theorem copy_writeWord {addr : BitVec w} {value : BitVec (8 * n)}
    (hsrc : ∀ i, first ≤ i → i < last → n ≤ (src + BitVec.ofNat w i - addr).toNat)
    (hdest : ∀ i, first ≤ i → i < last → n ≤ (dest + BitVec.ofNat w i - addr).toNat) :
    (mem.writeWord addr n value).copy dest src first last
      = (mem.copy dest src first last).writeWord addr n value := by
  funext x
  by_cases hin : first ≤ (x - dest).toNat ∧ (x - dest).toNat < last
  · have hoffset : BitVec.ofNat w (x - dest).toNat = x - dest := by
      rw [BitVec.ofNat_toNat, BitVec.setWidth_eq]
    have hx : dest + (x - dest) = x := by rw [BitVec.add_comm, BitVec.sub_add_cancel]
    have hsource := hsrc _ hin.1 hin.2
    have hword := hdest _ hin.1 hin.2
    rw [hoffset] at hsource hword
    rw [hx] at hword
    rw [copy_of_mem hin, writeWord_of_le hsource, writeWord_of_le hword, copy_of_mem hin]
  · rw [copy_of_not_mem hin]
    by_cases hword : (x - addr).toNat < n
    · rw [writeWord, writeWord, if_pos hword, if_pos hword]
    · rw [writeWord_of_le (by omega), writeWord_of_le (by omega), copy_of_not_mem hin]

theorem writeByte_eq_writeWord (mem : ByteMemory w) (addr : BitVec w) (byte : BitVec 8) :
    mem.writeByte addr byte = mem.writeWord addr 1 byte := by
  funext x
  by_cases hx : x = addr
  · subst hx
    rw [writeByte_self, writeWord, BitVec.sub_self, BitVec.toNat_zero, if_pos Nat.one_pos]
    exact (BitVec.extractLsb'_eq_self).symm
  · have hdistance : 1 ≤ (x - addr).toNat := by
      rw [Nat.one_le_iff_ne_zero]
      intro hzero
      apply hx
      have hsub : x - addr = 0#w := BitVec.eq_of_toNat_eq hzero
      rw [← BitVec.sub_add_cancel x addr, hsub, BitVec.zero_add]
    rw [writeByte_of_ne hx, writeWord_of_le hdistance]

theorem readWord_one (mem : ByteMemory w) (addr : BitVec w) : mem.readWord addr 1 = mem addr :=
  BitVec.zero_width_append _ _

theorem writeByte_copy {first' last' : Nat} (hk : k < 2 ^ w)
    (hjoin : ∀ i, (first' ≤ i ∧ i < last') ↔ (first ≤ i ∧ i < last) ∨ i = k) :
    (mem.copy dest src first last).writeByte (dest + BitVec.ofNat w k)
        (mem (src + BitVec.ofNat w k))
      = mem.copy dest src first' last' := by
  rw [writeByte_eq_writeWord, ← readWord_one mem]
  refine writeWord_copy hk fun i => ?_
  rw [hjoin]
  omega

end ByteMemory
