import RainstormOs.Lib.ByteMemory

/-!
# Records in memory

A packed record is read and written field by field, at offsets from where it lies. Fields of one
record that do not overlap keep out of each other's way, and so do fields of records that lie apart.
-/

namespace ByteMemory

variable {w n m : Nat} {mem : ByteMemory w} {base base' : BitVec w} {offset offset' : Nat}

def readField (mem : ByteMemory w) (base : BitVec w) (offset n : Nat) : BitVec (8 * n) :=
  mem.readWord (base + BitVec.ofNat w offset) n

def writeField (mem : ByteMemory w) (base : BitVec w) (offset n : Nat) (value : BitVec (8 * n)) :
    ByteMemory w :=
  mem.writeWord (base + BitVec.ofNat w offset) n value

/-- The `n` bytes from `base` on and the `m` bytes from `base'` on have none in common. -/
def Apart (base : BitVec w) (n : Nat) (base' : BitVec w) (m : Nat) : Prop :=
  ∀ i < n, ∀ j < m, base + BitVec.ofNat w i ≠ base' + BitVec.ofNat w j

theorem Apart.symm (h : Apart base n base' m) : Apart base' m base n :=
  fun i hi j hj heq => h j hj i hi heq.symm

/-- Regions one behind the other. -/
theorem apart_of_le (h : base.toNat + n ≤ base'.toNat) (hm : base'.toNat + m ≤ 2 ^ w) :
    Apart base n base' m := by
  intro i hi j hj heq
  have hvalues := congrArg BitVec.toNat heq
  rw [BitVec.toNat_add, BitVec.toNat_add, BitVec.toNat_ofNat, BitVec.toNat_ofNat,
    Nat.mod_eq_of_lt (by omega : i < 2 ^ w), Nat.mod_eq_of_lt (by omega : j < 2 ^ w),
    Nat.mod_eq_of_lt (by omega), Nat.mod_eq_of_lt (by omega)] at hvalues
  omega

theorem readField_congr {mem' : ByteMemory w} {size : Nat} (hfield : offset + n ≤ size)
    (h : ∀ k < size, mem' (base + BitVec.ofNat w k) = mem (base + BitVec.ofNat w k)) :
    mem'.readField base offset n = mem.readField base offset n := by
  refine readWord_congr fun i hi => ?_
  rw [BitVec.add_assoc, ← BitVec.ofNat_add]
  exact h (offset + i) (by omega)

/-- A record that lies apart is not written. -/
theorem writeField_of_apart {size count k : Nat} (h : Apart base size base' count) (hk : k < size)
    (hfield : offset + m ≤ count) (value : BitVec (8 * m)) :
    mem.writeField base' offset m value (base + BitVec.ofNat w k) = mem (base + BitVec.ofNat w k) := by
  refine writeWord_of_le (Nat.le_of_not_lt fun hlt => ?_)
  refine h k hk (offset + (base + BitVec.ofNat w k - (base' + BitVec.ofNat w offset)).toNat)
    (by omega) ?_
  rw [BitVec.ofNat_add, ← BitVec.add_assoc]
  exact eq_add_toNat_sub _ _

/-- Nothing outside the record is written. -/
theorem writeField_of_le {size : Nat} {x : BitVec w} (hfield : offset + n ≤ size)
    (hout : size ≤ (x - base).toNat) (value : BitVec (8 * n)) :
    mem.writeField base offset n value x = mem x := by
  have hbound := (x - base).isLt
  refine writeWord_of_le (Nat.le_of_not_lt fun hlt => ?_)
  have heq := eq_add_toNat_sub x (base + BitVec.ofNat w offset)
  rw [BitVec.add_assoc, ← BitVec.ofNat_add] at heq
  have hoffset := (eq_add_ofNat_iff (by omega)).mp heq
  omega

theorem fill_of_apart {size count k : Nat} (h : Apart base size base' count) (hk : k < size)
    (byte : BitVec 8) :
    mem.fill base' count byte (base + BitVec.ofNat w k) = mem (base + BitVec.ofNat w k) :=
  fill_of_le (Nat.le_of_not_lt fun hlt => h k hk _ hlt (eq_add_toNat_sub _ _))

theorem readField_writeField_self (hn : n ≤ 2 ^ w) (value : BitVec (8 * n)) :
    (mem.writeField base offset n value).readField base offset n = value :=
  readWord_writeWord_self hn mem _ value

/-- Another field of the same record. -/
theorem readField_writeField_of_ne (hread : offset + n ≤ 2 ^ w) (hwrite : offset' + m ≤ 2 ^ w)
    (hapart : offset + n ≤ offset' ∨ offset' + m ≤ offset) (value : BitVec (8 * m)) :
    (mem.writeField base offset' m value).readField base offset n = mem.readField base offset n := by
  refine readWord_congr fun i hi => writeWord_of_le (Nat.le_of_not_lt fun hlt => ?_)
  have heq := eq_add_toNat_sub (base + BitVec.ofNat w offset + BitVec.ofNat w i)
    (base + BitVec.ofNat w offset')
  generalize (base + BitVec.ofNat w offset + BitVec.ofNat w i
    - (base + BitVec.ofNat w offset')).toNat = j at hlt heq
  rw [BitVec.add_assoc, BitVec.add_assoc, ← BitVec.ofNat_add, ← BitVec.ofNat_add] at heq
  have hoffsets := congrArg BitVec.toNat (add_left_cancel heq)
  rw [BitVec.toNat_ofNat, BitVec.toNat_ofNat, Nat.mod_eq_of_lt (by omega),
    Nat.mod_eq_of_lt (by omega)] at hoffsets
  omega

theorem readField_fill {count : Nat} (hcount : count ≤ 2 ^ w) (hfield : offset + n ≤ count) :
    (mem.fill base count 0#8).readField base offset n = 0 := by
  refine readWord_eq_zero fun i hi => fill_of_lt ?_
  rw [BitVec.add_assoc, ← BitVec.ofNat_add, toNat_add_ofNat_sub base (by omega)]
  omega

end ByteMemory
