import RainstormOs.Machine

/-!
# Address translation as the processor does it

The four-level walk of x86-64, written from the architecture and not from the kernel: it reads the
entries itself, stops at the first absent one, treats bit 7 of the second and third level as a large
page, and combines the permission bits of all entries it used. The kernel's own reading of its
tables is compared with it elsewhere.
-/

namespace RainstormOs

/-- The addresses whose upper bits repeat bit 47. -/
def IsCanonical (vaddr : VirtAddr) : Prop :=
  vaddr.toNat < 2 ^ 47 ∨ 2 ^ 64 - 2 ^ 47 ≤ vaddr.toNat

instance (vaddr : VirtAddr) : Decidable (IsCanonical vaddr) := inferInstanceAs (Decidable (_ ∨ _))

def IsHigherHalf (vaddr : VirtAddr) : Prop := 2 ^ 64 - 2 ^ 47 ≤ vaddr.toNat

instance (vaddr : VirtAddr) : Decidable (IsHigherHalf vaddr) := inferInstanceAs (Decidable (_ ≤ _))

/-- A page as the walk finds it: where it is, how many address bits are offset, and what may be done
with it. -/
structure Translation where
  base : PhysAddr
  pageBits : Nat
  writable : Bool
  user : Bool
  noExecute : Bool
  global : Bool
deriving DecidableEq

def Translation.physOf (found : Translation) (vaddr : VirtAddr) : PhysAddr :=
  found.base + BitVec.ofNat 64 (vaddr.toNat % 2 ^ found.pageBits)

def hwAddrMask : BitVec 64 := 0x000FFFFFFFFFF000#64

/-- One entry of a walk. Absent entries fault, and so does the no-execute bit while it is still
reserved. -/
def Machine.hwEntry (s : Machine) (table : PhysAddr) (index : BitVec 9) : Option (BitVec 64) :=
  let entry := s.mem.readWord (table + index.setWidth 64 * 8#64) 8
  if entry.getLsbD 0 && (s.nxe || !entry.getLsbD 63) then some entry else none

/-- The page the last of the entries maps, with the permissions all of them allow. -/
def hwPage (pageBits : Nat) (upper : List (BitVec 64)) (last : BitVec 64) : Translation where
  base := ((last &&& hwAddrMask) >>> pageBits) <<< pageBits
  pageBits := pageBits
  writable := (last :: upper).all fun entry => entry.getLsbD 1
  user := (last :: upper).all fun entry => entry.getLsbD 2
  noExecute := (last :: upper).any fun entry => entry.getLsbD 63
  global := last.getLsbD 8

/-- The walk of a canonical address from a PML4. -/
def Machine.hwWalk (s : Machine) (pml4 : PhysAddr) (vaddr : VirtAddr) : Option Translation := do
  let e4 ← s.hwEntry (pml4 &&& hwAddrMask) (vaddr.extractLsb' 39 9)
  let e3 ← s.hwEntry (e4 &&& hwAddrMask) (vaddr.extractLsb' 30 9)
  if e3.getLsbD 7 then
    some (hwPage 30 [e4] e3)
  else
    let e2 ← s.hwEntry (e3 &&& hwAddrMask) (vaddr.extractLsb' 21 9)
    if e2.getLsbD 7 then
      some (hwPage 21 [e4, e3] e2)
    else
      let e1 ← s.hwEntry (e2 &&& hwAddrMask) (vaddr.extractLsb' 12 9)
      some (hwPage 12 [e4, e3, e2] e1)

end RainstormOs
