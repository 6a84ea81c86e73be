import RainstormOs.Proof.PmmSpec
import RainstormOs.Lib.Trie

/-!
# Page tables as tries

A table is a frame of 512 entries, an entry that is present points to the next table, and a virtual
page is a path of three indices to its last table with a slot in it. This module reads memory that
way. It fixes which bits of an entry mean what, how a virtual address splits into indices, and what
one store does to the entries of all tables.
-/

namespace RainstormOs

abbrev Index := BitVec 9

/-- A virtual page: the 36 bits of an address that the tables translate. -/
abbrev Page := BitVec 36

/-! ### Entries -/

theorem and_pagePresent_eq_zero_iff {entry : BitVec 64} :
    entry &&& pagePresent = 0#64 ↔ entry.getLsbD 0 = false :=
  BitField.and_one_shiftLeft_eq_zero_iff (by decide)

theorem and_pageUser_eq_zero_iff {flags : BitVec 64} :
    flags &&& pageUser = 0#64 ↔ flags.getLsbD 2 = false :=
  BitField.and_one_shiftLeft_eq_zero_iff (by decide)

theorem isMask_physAddrMask : BitField.IsMask physAddrMask 12 52 := by decide

/-- The addresses an entry can hold: page-aligned and below `2 ^ 52`. -/
theorem and_physAddrMask_eq_self_iff {addr : PhysAddr} :
    addr &&& physAddrMask = addr ↔ IsPageAligned addr ∧ addr.toNat < 2 ^ 52 := by
  rw [isPageAligned_iff, ← BitVec.toNat_inj, BitField.toNat_and_of_isMask isMask_physAddrMask]
  omega

theorem frameAddr_and_physAddrMask {frame : Nat} (hframe : frame < 2 ^ 40) :
    frameAddr frame &&& physAddrMask = frameAddr frame := by
  rw [and_physAddrMask_eq_self_iff, toNat_frameAddr (by omega)]
  exact ⟨isPageAligned_frameAddr (by omega), by omega⟩

def entryFlags (entry : BitVec 64) : BitVec 64 := entry &&& ~~~physAddrMask

theorem getLsbD_entryFlags {entry : BitVec 64} {k : Nat} (hk : k < 64)
    (hout : k < 12 ∨ 52 ≤ k) : (entryFlags entry).getLsbD k = entry.getLsbD k := by
  rw [entryFlags, BitVec.getLsbD_and, BitVec.getLsbD_not, isMask_physAddrMask k hk]
  have : (decide (12 ≤ k) && decide (k < 52)) = false := by
    rw [Bool.and_eq_false_iff, decide_eq_false_iff_not, decide_eq_false_iff_not]
    omega
  simp [hk, this]

theorem or_and_physAddrMask {addr flags : BitVec 64} (haddr : addr &&& physAddrMask = addr)
    (hflags : flags &&& physAddrMask = 0#64) : (addr ||| flags) &&& physAddrMask = addr := by
  rw [BitVec.and_comm, BitVec.and_or_distrib_left, BitVec.and_comm _ addr,
    BitVec.and_comm _ flags, haddr, hflags, BitVec.or_zero]

theorem entryFlags_or {addr flags : BitVec 64} (haddr : addr &&& physAddrMask = addr)
    (hflags : flags &&& physAddrMask = 0#64) : entryFlags (addr ||| flags) = flags := by
  apply BitVec.eq_of_getLsbD_eq
  intro k hk
  have hmask := isMask_physAddrMask k hk
  have ha := congrArg (fun x : BitVec 64 => x.getLsbD k) haddr
  have hf := congrArg (fun x : BitVec 64 => x.getLsbD k) hflags
  simp only [BitVec.getLsbD_and, hmask, BitVec.getLsbD_zero] at ha hf
  rw [entryFlags, BitVec.getLsbD_and, BitVec.getLsbD_not, BitVec.getLsbD_or, hmask]
  simp only [hk, decide_true, Bool.true_and]
  generalize (decide (12 ≤ k) && decide (k < 52)) = inside at *
  cases inside <;> simp_all

theorem intermediateFlags_cases (flags : BitVec 64) :
    (flags.getLsbD 2 = false ∧ intermediateFlags flags = 3#64)
      ∨ (flags.getLsbD 2 = true ∧ intermediateFlags flags = 7#64) := by
  rw [intermediateFlags]
  cases hbit : flags.getLsbD 2 with
  | false =>
      rw [if_neg (not_not_intro (and_pageUser_eq_zero_iff.mpr hbit))]
      exact Or.inl ⟨rfl, rfl⟩
  | true =>
      rw [if_pos (fun h => by rw [and_pageUser_eq_zero_iff, hbit] at h; cases h)]
      exact Or.inr ⟨rfl, rfl⟩

theorem intermediateFlags_and_physAddrMask (flags : BitVec 64) :
    intermediateFlags flags &&& physAddrMask = 0#64 := by
  obtain ⟨-, h⟩ | ⟨-, h⟩ := intermediateFlags_cases flags <;> rw [h] <;> rfl

/-! ### Addresses as indices -/

/-- The index an address uses at a level, the last one being level 0. -/
def tableIndex (level : Nat) (vaddr : VirtAddr) : Index := vaddr.extractLsb' (12 + 9 * level) 9

def pageOf (vaddr : VirtAddr) : Page := vaddr.extractLsb' 12 36

namespace Page

/-- The indices of the tables above the last one. -/
def path (page : Page) : List Index :=
  [page.extractLsb' 27 9, page.extractLsb' 18 9, page.extractLsb' 9 9]

/-- The index in the last table. -/
def slot (page : Page) : Index := page.extractLsb' 0 9

/-- The page lies in the half that all address spaces share. -/
def IsKernel (page : Page) : Prop := 2 ^ 35 ≤ page.toNat

instance (page : Page) : Decidable page.IsKernel := inferInstanceAs (Decidable (_ ≤ _))

@[simp]
theorem length_path (page : Page) : page.path.length = 3 := rfl

theorem ext_path {page page' : Page} (hpath : page.path = page'.path)
    (hslot : page.slot = page'.slot) : page = page' := by
  simp only [path, List.cons.injEq, and_true] at hpath
  obtain ⟨h3, h2, h1⟩ := hpath
  apply BitVec.eq_of_toNat_eq
  have hparts : ∀ p : Page, p.toNat = (p.extractLsb' 27 9).toNat * 2 ^ 27
      + (p.extractLsb' 18 9).toNat * 2 ^ 18 + (p.extractLsb' 9 9).toNat * 2 ^ 9
      + (p.extractLsb' 0 9).toNat := by
    intro p
    have := p.isLt
    simp only [BitVec.extractLsb'_toNat, Nat.shiftRight_eq_div_pow]
    omega
  rw [hparts page, hparts page', h3, h2, h1]
  rw [slot, slot] at hslot
  rw [hslot]

end Page

def kernelSlots : Set Index := {i | 256 ≤ i.toNat}

theorem Page.isKernel_iff (page : Page) : page.IsKernel ↔ page.extractLsb' 27 9 ∈ kernelSlots := by
  have := page.isLt
  rw [Page.IsKernel, kernelSlots, Set.mem_ofPred_eq, BitVec.extractLsb'_toNat,
    Nat.shiftRight_eq_div_pow]
  omega

theorem toNat_tableIndex (level : Nat) (vaddr : VirtAddr) :
    (tableIndex level vaddr).toNat = vaddr.toNat / 2 ^ (12 + 9 * level) % 512 := by
  rw [tableIndex, BitVec.extractLsb'_toNat, Nat.shiftRight_eq_div_pow]

theorem shiftRight_and_eq_tableIndex (vaddr : VirtAddr) (level : Nat) :
    (vaddr >>> (12 + 9 * level)) &&& 0x1FF#64 = (tableIndex level vaddr).setWidth 64 := by
  have hmask : BitField.IsMask 0x1FF#64 0 9 := by decide
  apply BitVec.eq_of_toNat_eq
  rw [BitField.toNat_and_of_isMask hmask, BitVec.toNat_setWidth, toNat_tableIndex,
    BitVec.toNat_ushiftRight, Nat.shiftRight_eq_div_pow]
  omega

theorem pml4Index_eq (vaddr : VirtAddr) : pml4Index vaddr = (tableIndex 3 vaddr).setWidth 64 :=
  shiftRight_and_eq_tableIndex vaddr 3

theorem pdptIndex_eq (vaddr : VirtAddr) : pdptIndex vaddr = (tableIndex 2 vaddr).setWidth 64 :=
  shiftRight_and_eq_tableIndex vaddr 2

theorem pdIndex_eq (vaddr : VirtAddr) : pdIndex vaddr = (tableIndex 1 vaddr).setWidth 64 :=
  shiftRight_and_eq_tableIndex vaddr 1

theorem ptIndex_eq (vaddr : VirtAddr) : ptIndex vaddr = (tableIndex 0 vaddr).setWidth 64 :=
  shiftRight_and_eq_tableIndex vaddr 0

theorem extractLsb'_pageOf (vaddr : VirtAddr) (level : Nat) (hlevel : level ≤ 3) :
    (pageOf vaddr).extractLsb' (9 * level) 9 = tableIndex level vaddr := by
  apply BitVec.eq_of_getLsbD_eq
  intro k hk
  simp only [pageOf, tableIndex, BitVec.getLsbD_extractLsb', hk, decide_true, Bool.true_and]
  have hin : 9 * level + k < 36 := by omega
  have hsum : 12 + (9 * level + k) = 12 + 9 * level + k := by omega
  simp only [hin, decide_true, Bool.true_and, hsum]

theorem path_pageOf (vaddr : VirtAddr) :
    (pageOf vaddr).path = [tableIndex 3 vaddr, tableIndex 2 vaddr, tableIndex 1 vaddr] := by
  rw [Page.path, ← extractLsb'_pageOf vaddr 3 (by omega),
    ← extractLsb'_pageOf vaddr 2 (by omega), ← extractLsb'_pageOf vaddr 1 (by omega)]

theorem slot_pageOf (vaddr : VirtAddr) : (pageOf vaddr).slot = tableIndex 0 vaddr :=
  extractLsb'_pageOf vaddr 0 (Nat.zero_le 3)

theorem ofNat_eq_setWidth {i : Nat} (hi : i < 512) :
    BitVec.ofNat 64 i = (BitVec.ofNat 9 i).setWidth 64 := by
  apply BitVec.eq_of_toNat_eq
  rw [BitVec.toNat_setWidth, BitVec.toNat_ofNat, BitVec.toNat_ofNat]
  omega

/-! ### Tables in memory -/

def entryAddr (table : PhysAddr) (i : Index) : PhysAddr := table + i.setWidth 64 * 8#64

def Machine.entry (s : Machine) (table : PhysAddr) (i : Index) : BitVec 64 :=
  s.mem.readWord (entryAddr table i) 8

def Machine.child (s : Machine) (table : PhysAddr) (i : Index) : Option PhysAddr :=
  if (s.entry table i).getLsbD 0 then some (s.entry table i &&& physAddrMask) else none

def Machine.setEntry (s : Machine) (table : PhysAddr) (i : Index) (word : BitVec 64) : Machine :=
  { s with mem := s.mem.writeWord (entryAddr table i) 8 word }

@[simp]
theorem Machine.setEntry_globals (s : Machine) (table : PhysAddr) (i : Index) (word : BitVec 64) :
    (s.setEntry table i word).globals = s.globals := rfl

theorem hhdmVirtToPhys_entryPtr (g : Globals) (table : PhysAddr) (i : Index) :
    g.hhdmVirtToPhys (entryPtr (g.hhdmPhysToVirt table) (i.setWidth 64)) = entryAddr table i := by
  rw [entryPtr, hhdmVirtToPhys_physToVirt_add, entryAddr]

/-- The bytes of an entry lie in the frame of its table. -/
theorem toNat_entryAddr_add {table : PhysAddr} (haligned : IsPageAligned table) (i : Index) {k : Nat}
    (hk : k < 8) :
    (entryAddr table i + BitVec.ofNat 64 k).toNat = table.toNat + 8 * i.toNat + k := by
  have hi := i.isLt
  have hoffset : (i.setWidth 64 * 8#64 + BitVec.ofNat 64 k).toNat = 8 * i.toNat + k := by
    rw [BitVec.toNat_add, BitVec.toNat_mul, BitVec.toNat_setWidth, BitVec.toNat_ofNat,
      BitVec.toNat_ofNat]
    omega
  rw [entryAddr, BitVec.add_assoc, toNat_add_of_aligned haligned (by omega), hoffset]
  omega

theorem frameOf_entryAddr_add {table : PhysAddr} (haligned : IsPageAligned table) (i : Index)
    {k : Nat} (hk : k < 8) : frameOf (entryAddr table i + BitVec.ofNat 64 k) = frameOf table := by
  have hi := i.isLt
  rw [frameOf, toNat_entryAddr_add haligned i hk, frameOf]
  rw [isPageAligned_iff] at haligned
  omega

theorem Machine.entry_congr {s t : Machine} {table : PhysAddr} (haligned : IsPageAligned table)
    (hmem : ∀ x, frameOf x = frameOf table → t.mem x = s.mem x) (i : Index) :
    t.entry table i = s.entry table i :=
  ByteMemory.readWord_congr fun _ hk => hmem _ (frameOf_entryAddr_add haligned i hk)

theorem Machine.child_congr {s t : Machine} {table : PhysAddr} {i : Index}
    (hentry : t.entry table i = s.entry table i) : t.child table i = s.child table i := by
  rw [Machine.child, Machine.child, hentry]

@[simp]
theorem Machine.entry_setEntry_self (s : Machine) (table : PhysAddr) (i : Index)
    (word : BitVec 64) : (s.setEntry table i word).entry table i = word :=
  ByteMemory.readWord_writeWord_self (by decide) _ _ _

/-- The offset of an address from an entry of an aligned table, when the address lies outside it. -/
theorem le_toNat_sub_entryAddr {table : PhysAddr} (haligned : IsPageAligned table) (i : Index)
    {x : BitVec 64}
    (hout : x.toNat < table.toNat + 8 * i.toNat ∨ table.toNat + 8 * i.toNat + 8 ≤ x.toNat) :
    8 ≤ (x - entryAddr table i).toNat := by
  have hval := toNat_entryAddr_add haligned i (k := 0) (by omega)
  rw [BitVec.add_zero] at hval
  have hx := x.isLt
  have hi := i.isLt
  have htable := table.isLt
  rw [isPageAligned_iff] at haligned
  rw [BitVec.toNat_sub, hval]
  omega

theorem Machine.setEntry_mem_of_frame_ne {s : Machine} {table : PhysAddr}
    (haligned : IsPageAligned table) {i : Index} {word : BitVec 64} {x : PhysAddr}
    (hx : frameOf x ≠ frameOf table) : (s.setEntry table i word).mem x = s.mem x := by
  refine ByteMemory.writeWord_of_le (le_toNat_sub_entryAddr haligned i ?_)
  have hi := i.isLt
  rw [isPageAligned_iff] at haligned
  unfold frameOf at hx
  omega

theorem Machine.entry_setEntry_of_ne {s : Machine} {table table' : PhysAddr}
    (haligned : IsPageAligned table) (haligned' : IsPageAligned table') {i i' : Index}
    (hne : table' = table → i' ≠ i) (word : BitVec 64) :
    (s.setEntry table i word).entry table' i' = s.entry table' i' := by
  refine ByteMemory.readWord_writeWord_of_disjoint fun k hk =>
    le_toNat_sub_entryAddr haligned i ?_
  rw [toNat_entryAddr_add haligned' i' hk]
  have hi := i.isLt
  have hi' := i'.isLt
  by_cases htable : table' = table
  · have hval : i'.toNat ≠ i.toNat := fun h => hne htable (BitVec.eq_of_toNat_eq h)
    rw [htable]
    omega
  · have hval : table'.toNat ≠ table.toNat := fun h => htable (BitVec.eq_of_toNat_eq h)
    rw [isPageAligned_iff] at haligned haligned'
    omega

/-- The last-level entry of a page; 0, which is not present, where the tables stop earlier. -/
def Machine.leaf (s : Machine) (pml4 : PhysAddr) (page : Page) : BitVec 64 :=
  match Trie.walk s.child pml4 page.path with
  | some table => s.entry table page.slot
  | none => 0#64

end RainstormOs
