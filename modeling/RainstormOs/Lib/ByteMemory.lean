import Mathlib.Data.BitVec

/-!
# Byte-addressed memory

A memory gives every address a byte, addresses wrapping as the machine's do. Words are read and
written little-endian at any width. Every result about a write is pointwise: a byte either lies
among the written ones or keeps its value, and a word read elsewhere is the word it was.
-/

/-- A memory over addresses of `w` bits. -/
abbrev ByteMemory (w : Nat) := BitVec w → BitVec 8

namespace ByteMemory

variable {w n k : Nat}

def writeByte (mem : ByteMemory w) (addr : BitVec w) (byte : BitVec 8) : ByteMemory w :=
  fun x => if x = addr then byte else mem x

/-- The `n`-byte little-endian word at `addr`. -/
def readWord (mem : ByteMemory w) (addr : BitVec w) : (n : Nat) → BitVec (8 * n)
  | 0 => 0#0
  | n + 1 => readWord mem (addr + 1#w) n ++ mem addr

def writeWord (mem : ByteMemory w) (addr : BitVec w) (n : Nat) (value : BitVec (8 * n)) :
    ByteMemory w :=
  fun x =>
    if (x - addr).toNat < n then value.extractLsb' (8 * (x - addr).toNat) 8 else mem x

def fill (mem : ByteMemory w) (addr : BitVec w) (count : Nat) (byte : BitVec 8) : ByteMemory w :=
  fun x => if (x - addr).toNat < count then byte else mem x

@[simp]
theorem writeByte_self (mem : ByteMemory w) (addr : BitVec w) (byte : BitVec 8) :
    mem.writeByte addr byte addr = byte := by
  simp [writeByte]

theorem writeByte_of_ne {mem : ByteMemory w} {addr x : BitVec w} {byte : BitVec 8}
    (hne : x ≠ addr) : mem.writeByte addr byte x = mem x := by
  simp [writeByte, hne]

theorem writeWord_of_le {mem : ByteMemory w} {addr x : BitVec w} {value : BitVec (8 * n)}
    (hout : n ≤ (x - addr).toNat) : mem.writeWord addr n value x = mem x := by
  rw [writeWord, if_neg (Nat.not_lt.mpr hout)]

@[simp]
theorem fill_zero (mem : ByteMemory w) (addr : BitVec w) (byte : BitVec 8) :
    mem.fill addr 0 byte = mem := by
  funext x
  simp [fill]

theorem fill_of_lt {mem : ByteMemory w} {addr x : BitVec w} {count : Nat} {byte : BitVec 8}
    (hin : (x - addr).toNat < count) : mem.fill addr count byte x = byte := by
  rw [fill, if_pos hin]

theorem fill_of_le {mem : ByteMemory w} {addr x : BitVec w} {count : Nat} {byte : BitVec 8}
    (hout : count ≤ (x - addr).toNat) : mem.fill addr count byte x = mem x := by
  rw [fill, if_neg (Nat.not_lt.mpr hout)]

/-- The distance of an address counted from another one. -/
theorem toNat_add_ofNat_sub (addr : BitVec w) (hk : k < 2 ^ w) :
    (addr + BitVec.ofNat w k - addr).toNat = k := by
  rw [BitVec.add_comm, BitVec.add_sub_cancel, BitVec.toNat_ofNat, Nat.mod_eq_of_lt hk]

theorem writeByte_fill {mem : ByteMemory w} {addr : BitVec w} {count : Nat} {byte : BitVec 8}
    (hcount : count < 2 ^ w) :
    (mem.fill addr count byte).writeByte (addr + BitVec.ofNat w count) byte
      = mem.fill addr (count + 1) byte := by
  have hoffset := toNat_add_ofNat_sub addr hcount
  funext x
  by_cases hx : x = addr + BitVec.ofNat w count
  · subst hx
    rw [writeByte_self, fill_of_lt (by omega)]
  · rw [writeByte_of_ne hx]
    have hne : (x - addr).toNat ≠ count := by
      intro heq
      apply hx
      rw [← heq, BitVec.ofNat_toNat, BitVec.setWidth_eq, BitVec.add_comm, BitVec.sub_add_cancel]
    by_cases hlt : (x - addr).toNat < count
    · rw [fill_of_lt hlt, fill_of_lt (by omega)]
    · rw [fill_of_le (by omega), fill_of_le (by omega)]

/-- Bit `i` of a word is bit `i % 8` of its byte `i / 8`. -/
theorem getLsbD_readWord (mem : ByteMemory w) (addr : BitVec w) {i : Nat} (hi : i < 8 * n) :
    (mem.readWord addr n).getLsbD i = (mem (addr + BitVec.ofNat w (i / 8))).getLsbD (i % 8) := by
  induction n generalizing addr i with
  | zero => omega
  | succ n ih =>
      rw [readWord, BitVec.getLsbD_append]
      by_cases hlow : i < 8
      · have hdiv : i / 8 = 0 := by omega
        have hmod : i % 8 = i := by omega
        simp [hlow, hdiv, hmod]
      · have hdiv : i / 8 = (i - 8) / 8 + 1 := by omega
        have hmod : i % 8 = (i - 8) % 8 := by omega
        rw [if_neg hlow, ih (addr + 1#w) (by omega), hdiv, hmod, BitVec.add_assoc,
          BitVec.ofNat_add, BitVec.add_comm (1#w)]

theorem readWord_congr {mem mem' : ByteMemory w} {addr : BitVec w}
    (hbytes : ∀ i, i < n → mem (addr + BitVec.ofNat w i) = mem' (addr + BitVec.ofNat w i)) :
    mem.readWord addr n = mem'.readWord addr n := by
  apply BitVec.eq_of_getLsbD_eq
  intro i hi
  rw [getLsbD_readWord _ _ hi, getLsbD_readWord _ _ hi, hbytes (i / 8) (by omega)]

theorem readWord_writeWord_self (hwidth : n ≤ 2 ^ w) (mem : ByteMemory w) (addr : BitVec w)
    (value : BitVec (8 * n)) : (mem.writeWord addr n value).readWord addr n = value := by
  apply BitVec.eq_of_getLsbD_eq
  intro i hi
  have hbyte : i / 8 < n := by omega
  have hoffset := toNat_add_ofNat_sub addr (Nat.lt_of_lt_of_le hbyte hwidth)
  rw [getLsbD_readWord _ _ hi, writeWord, hoffset, if_pos hbyte,
    BitVec.getLsbD_extractLsb']
  have hsum : 8 * (i / 8) + i % 8 = i := by omega
  simp [hsum, Nat.mod_lt]

theorem readWord_writeWord_of_disjoint {mem : ByteMemory w} {addr addr' : BitVec w}
    {value : BitVec (8 * k)}
    (hdisjoint : ∀ i, i < n → k ≤ (addr' + BitVec.ofNat w i - addr).toNat) :
    (mem.writeWord addr k value).readWord addr' n = mem.readWord addr' n :=
  readWord_congr fun i hi => writeWord_of_le (hdisjoint i hi)

theorem readWord_eq_zero {mem : ByteMemory w} {addr : BitVec w}
    (hbytes : ∀ i, i < n → mem (addr + BitVec.ofNat w i) = 0#8) : mem.readWord addr n = 0 := by
  apply BitVec.eq_of_getLsbD_eq
  intro i hi
  rw [getLsbD_readWord _ _ hi, hbytes (i / 8) (by omega)]
  simp

/-! ### Strings of bytes -/

/-- The bytes of a list, written from `addr` on. -/
def writeBytes (mem : ByteMemory w) (addr : BitVec w) (bytes : List (BitVec 8)) : ByteMemory w :=
  fun x => bytes[(x - addr).toNat]?.getD (mem x)

@[simp]
theorem writeBytes_nil (mem : ByteMemory w) (addr : BitVec w) : mem.writeBytes addr [] = mem := by
  funext x
  simp [writeBytes]

/-- Every address lies at its distance from another one. -/
theorem eq_add_toNat_sub (x addr : BitVec w) : x = addr + BitVec.ofNat w (x - addr).toNat := by
  rw [BitVec.ofNat_toNat, BitVec.setWidth_eq, BitVec.add_comm, BitVec.sub_add_cancel]

theorem eq_add_ofNat_iff {x addr : BitVec w} (hk : k < 2 ^ w) :
    x = addr + BitVec.ofNat w k ↔ (x - addr).toNat = k := by
  constructor
  · rintro rfl
    exact toNat_add_ofNat_sub addr hk
  · rintro rfl
    exact eq_add_toNat_sub x addr

end ByteMemory
