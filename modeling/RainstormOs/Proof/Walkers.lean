import RainstormOs.Proof.PagingOps

/-!
# The three walkers

`paging_is_mapped`, `paging_get_physical` and `paging_unmap` each write out the walk over four levels.
Here they are compared on arbitrary memory: no invariant of the tables is assumed, an entry may point
anywhere, also back to a table above it. What makes them agree is that all three stop at the same
absent entries and that the walk only reads, so the last-level entry they end at is the same one.

The value that stands for "not mapped" is all ones, and a physical address built from an entry never
is: its top twelve bits are masked out.
-/

namespace RainstormOs

open Trie (walk)

/-- The address of a page's last-level entry, where the tables reach that far. -/
def Machine.leafAddr (s : Machine) (pml4 : PhysAddr) (page : Page) : Option PhysAddr :=
  (walk s.child pml4 page.path).map fun table => entryAddr table page.slot

variable {s : Machine} {pml4 : PhysAddr} {virtAddr virtAddr' : VirtAddr}

theorem readsTables_noPanic (pml4 : PhysAddr) (s : Machine) :
    ReadsTables (fun _ c => ∀ string, c ≠ .kpanic string) pml4 s :=
  ⟨fun _ => Cmd.noConfusion, fun _ _ _ _ _ _ => Cmd.noConfusion⟩

theorem run_pagingIsMapped (s : Machine) (haligned : IsPageAligned pml4) (virtAddr : VirtAddr) :
    (pagingIsMapped pml4 virtAddr).run s
      = some ((s.leaf pml4 (pageOf virtAddr)).getLsbD 0, s) :=
  Kernel.run_eq (wp_pagingIsMapped haligned (readsTables_noPanic pml4 s) ⟨rfl, rfl⟩)

theorem run_pagingGetPhysical (s : Machine) (haligned : IsPageAligned pml4)
    (virtAddr : VirtAddr) :
    (pagingGetPhysical pml4 virtAddr).run s
      = some (physicalOf (s.leaf pml4 (pageOf virtAddr)) virtAddr, s) :=
  Kernel.run_eq (wp_pagingGetPhysical haligned (readsTables_noPanic pml4 s) ⟨rfl, rfl⟩)

/-- `paging_unmap` clears the last-level entry, if it is present. -/
theorem run_pagingUnmap (s : Machine) (haligned : IsPageAligned pml4)
    (hvirt : IsPageAligned virtAddr) :
    ∃ t, (pagingUnmap pml4 virtAddr).run s = some ((), t)
      ∧ (((s.leaf pml4 (pageOf virtAddr)).getLsbD 0 = false ∧ t = s)
        ∨ ((s.leaf pml4 (pageOf virtAddr)).getLsbD 0 = true
          ∧ ∃ table, walk s.child pml4 (pageOf virtAddr).path = some table
            ∧ t = s.setEntry table (pageOf virtAddr).slot 0#64)) := by
  have hwp : Prog.Wp exec (fun _ c => ∀ string, c ≠ .kpanic string) (pagingUnmap pml4 virtAddr) s
      fun _ t => ((s.leaf pml4 (pageOf virtAddr)).getLsbD 0 = false ∧ t = s)
        ∨ ((s.leaf pml4 (pageOf virtAddr)).getLsbD 0 = true
          ∧ ∃ table, walk s.child pml4 (pageOf virtAddr).path = some table
            ∧ t = s.setEntry table (pageOf virtAddr).slot 0#64) := by
    rw [pagingUnmap_eq, if_neg (not_not_intro haligned), if_neg (not_not_intro hvirt)]
    refine wp_pagingDescend (readsTables_noPanic pml4 s) (fun hbit => ?_)
      fun table hwalk _ hbit => ?_
    · rw [wp_klogf]
      exact ⟨fun _ => Cmd.noConfusion, Or.inl ⟨hbit, rfl⟩⟩
    · rw [ptIndex_eq, Prog.wp_bind, wp_store64_entry rfl, wp_invlpg]
      refine ⟨fun _ => Cmd.noConfusion, fun _ => Cmd.noConfusion,
        Or.inr ⟨hbit, table, hwalk, ?_⟩⟩
      rw [slot_pageOf]
  obtain ⟨⟨⟩, t, hrun, hout⟩ := Kernel.returns hwp
  exact ⟨t, hrun, hout⟩

/-! ### The result of `paging_get_physical` -/

theorem getLsbD_physicalOf {leaf : BitVec 64} (hpresent : leaf.getLsbD 0 = true) :
    (physicalOf leaf virtAddr).getLsbD 63 = false := by
  have hoffset : BitField.IsMask 0xFFF#64 0 12 := by decide
  rw [physicalOf, hpresent, if_pos rfl, pageOffset, BitVec.getLsbD_or, BitVec.getLsbD_and,
    BitVec.getLsbD_and, isMask_physAddrMask 63 (by decide), hoffset 63 (by decide)]
  simp

theorem physicalOf_ne_pmmInvalidAddress_iff {leaf : BitVec 64} :
    physicalOf leaf virtAddr ≠ pmmInvalidAddress ↔ leaf.getLsbD 0 = true := by
  constructor
  · intro hne
    by_contra habsent
    rw [physicalOf, if_neg habsent] at hne
    exact hne rfl
  · intro hpresent heq
    have hbit := @getLsbD_physicalOf virtAddr leaf hpresent
    rw [heq] at hbit
    exact absurd hbit (by decide)

theorem pageOffset_ushiftRight (virtAddr : VirtAddr) : pageOffset virtAddr >>> 12 = 0#64 := by
  have hoffset : BitField.IsMask 0xFFF#64 0 12 := by decide
  apply BitVec.eq_of_toNat_eq
  rw [BitVec.toNat_ushiftRight, pageOffset, BitField.toNat_and_of_isMask hoffset,
    Nat.shiftRight_eq_div_pow, BitVec.toNat_zero]
  omega

theorem physicalOf_ushiftRight (leaf : BitVec 64) (virtAddr virtAddr' : VirtAddr) :
    physicalOf leaf virtAddr' >>> 12 = physicalOf leaf virtAddr >>> 12 := by
  rw [physicalOf, physicalOf]
  split
  · rw [BitVec.ushiftRight_or_distrib, BitVec.ushiftRight_or_distrib, pageOffset_ushiftRight,
      pageOffset_ushiftRight]
  · rfl

theorem pageOf_eq_of_ushiftRight (hpage : virtAddr' >>> 12 = virtAddr >>> 12) :
    pageOf virtAddr' = pageOf virtAddr := by
  have hextract : ∀ vaddr : VirtAddr, pageOf vaddr = (vaddr >>> 12).setWidth 36 := by
    intro vaddr
    apply BitVec.eq_of_getLsbD_eq
    intro i hi
    simp [pageOf, hi]
  rw [hextract, hextract, hpage]

theorem physicalOf_of_aligned {leaf : BitVec 64} (hvirt : IsPageAligned virtAddr)
    (hpresent : leaf.getLsbD 0 = true) : physicalOf leaf virtAddr = leaf &&& physAddrMask := by
  have hoffset : pageOffset virtAddr = 0#64 := hvirt
  rw [physicalOf, hpresent, if_pos rfl, hoffset, BitVec.or_zero]

/-! ### Agreement -/

/-- A table reached over three levels is the address field of an entry, so its entries are aligned
words. -/
theorem toNat_entryAddr_mod_of_walk {page : Page} {table : PhysAddr}
    (hwalk : walk s.child pml4 page.path = some table) (i : Index) :
    (entryAddr table i).toNat % 8 = 0 := by
  obtain ⟨last, -, hchild⟩ : ∃ last,
      walk s.child pml4 [page.extractLsb' 27 9, page.extractLsb' 18 9] = some last
        ∧ s.child last (page.extractLsb' 9 9) = some table :=
    Trie.walk_concat_eq_some.mp hwalk
  obtain ⟨-, htable⟩ := Machine.child_eq_some_iff.mp hchild
  have hmasked : table &&& physAddrMask = table := by
    rw [← htable, BitVec.and_assoc, BitVec.and_self]
  have haligned := (and_physAddrMask_eq_self_iff.mp hmasked).1
  have hval := toNat_entryAddr_add haligned i (k := 0) (by decide)
  rw [BitVec.add_zero] at hval
  rw [isPageAligned_iff] at haligned
  omega

/-- Clearing a present entry changes memory. -/
theorem setEntry_mem_ne {table : PhysAddr} {i : Index} (hpresent : (s.entry table i).getLsbD 0 = true) :
    (s.setEntry table i 0#64).mem ≠ s.mem := by
  intro hmem
  have hentry : (s.setEntry table i 0#64).entry table i = s.entry table i :=
    congrArg (fun mem : ByteMemory 64 => mem.readWord (entryAddr table i) 8) hmem
  rw [Machine.entry_setEntry_self] at hentry
  rw [← hentry, BitVec.getLsbD_zero] at hpresent
  exact Bool.false_ne_true hpresent

/-- **The walkers agree**, on any memory and any address. -/
theorem walkers_agree (s : Machine) (pml4 : PhysAddr) (haligned : IsPageAligned pml4)
    (virtAddr : VirtAddr) :
    ∃ mapped phys, (pagingIsMapped pml4 virtAddr).run s = some (mapped, s)
      ∧ (pagingGetPhysical pml4 virtAddr).run s = some (phys, s)
      ∧ (mapped = true ↔ phys ≠ pmmInvalidAddress)
      ∧ (IsPageAligned virtAddr → ∃ t, (pagingUnmap pml4 virtAddr).run s = some ((), t)
        ∧ (mapped = true ↔ t.mem ≠ s.mem)
        ∧ (mapped = true → ∃ entry, s.leafAddr pml4 (pageOf virtAddr) = some entry
          ∧ entry.toNat % 8 = 0 ∧ s.mem.readWord entry 8 &&& physAddrMask = phys
          ∧ t = { s with mem := s.mem.writeWord entry 8 0#64 }))
      ∧ ∀ virtAddr' : VirtAddr, virtAddr' >>> 12 = virtAddr >>> 12 →
          ∃ phys', (pagingGetPhysical pml4 virtAddr').run s = some (phys', s)
            ∧ phys' >>> 12 = phys >>> 12 := by
  refine ⟨_, _, run_pagingIsMapped s haligned virtAddr, run_pagingGetPhysical s haligned virtAddr,
    physicalOf_ne_pmmInvalidAddress_iff.symm, ?_, ?_⟩
  · intro hvirt
    obtain ⟨t, hrun, hout⟩ := run_pagingUnmap s haligned hvirt
    refine ⟨t, hrun, ?_⟩
    rcases hout with ⟨habsent, rfl⟩ | ⟨hpresent, table, hwalk, rfl⟩
    · rw [habsent]
      exact ⟨⟨fun h => absurd h Bool.false_ne_true, fun hne => absurd rfl hne⟩,
        fun h => absurd h Bool.false_ne_true⟩
    · have hleaf : s.leaf pml4 (pageOf virtAddr) = s.entry table (pageOf virtAddr).slot := by
        rw [Machine.leaf, hwalk]
      refine ⟨⟨fun _ => setEntry_mem_ne (hleaf ▸ hpresent), fun _ => hpresent⟩, fun _ => ?_⟩
      refine ⟨entryAddr table (pageOf virtAddr).slot, ?_, toNat_entryAddr_mod_of_walk hwalk _, ?_,
        rfl⟩
      · rw [Machine.leafAddr, hwalk, Option.map_some]
      · rw [physicalOf_of_aligned hvirt hpresent, hleaf, Machine.entry]
  · intro virtAddr' hpage
    refine ⟨_, run_pagingGetPhysical s haligned virtAddr', ?_⟩
    rw [pageOf_eq_of_ushiftRight hpage]
    exact physicalOf_ushiftRight _ _ _

/-- Every entry of every table is present and points to the table at `0x1000`. -/
def loopMachine : Machine :=
  { mem := fun addr => if addr &&& 7#64 = 0#64 then 0x03#8 else
      if addr &&& 7#64 = 1#64 then 0x10#8 else 0#8,
    globals := ⟨0#64, 0#64, 0#64, 0#64, fun _ => 0#64⟩, cr3 := 0#64, nxe := false }

theorem walkers_agree_loopMachine :
    ∃ phys t, (pagingGetPhysical 0x1000#64 0#64).run loopMachine = some (phys, loopMachine)
      ∧ phys ≠ pmmInvalidAddress
      ∧ (pagingUnmap 0x1000#64 0#64).run loopMachine = some ((), t)
      ∧ t.mem ≠ loopMachine.mem := by
  obtain ⟨mapped, phys, hmapped, hphys, hvalid, hunmap, -⟩ :=
    walkers_agree loopMachine 0x1000#64 (by decide) 0#64
  have htrue : mapped = true := by
    have hresult := congrArg (Option.map Prod.fst) hmapped
    exact Option.some.inj (hresult.symm.trans rfl)
  obtain ⟨t, hrun, hchanged, -⟩ := hunmap (by decide)
  exact ⟨phys, t, hphys, hvalid.mp htrue, hrun, hchanged.mp htrue⟩

end RainstormOs
