import RainstormOs.Memory.Pmm

/-!
# `memory/paging.c`

Four-level page tables, edited through the direct map. Lower-half tables belong to one address
space; the 256 higher-half PML4 slots are filled once, before anything is mapped, and copied into
every address space created later.
-/

namespace RainstormOs

/-! ### `memory/paging.h` -/

def pagePresent : BitVec 64 := 1#64 <<< 0

def pageWritable : BitVec 64 := 1#64 <<< 1

def pageUser : BitVec 64 := 1#64 <<< 2

def pageWriteThrough : BitVec 64 := 1#64 <<< 3

def pageCacheDisable : BitVec 64 := 1#64 <<< 4

def pageGlobal : BitVec 64 := 1#64 <<< 8

def pageNoExecute : BitVec 64 := 1#64 <<< 63

def pml4Index (vaddr : VirtAddr) : BitVec 64 := (vaddr >>> 39) &&& 0x1FF#64

def pdptIndex (vaddr : VirtAddr) : BitVec 64 := (vaddr >>> 30) &&& 0x1FF#64

def pdIndex (vaddr : VirtAddr) : BitVec 64 := (vaddr >>> 21) &&& 0x1FF#64

def ptIndex (vaddr : VirtAddr) : BitVec 64 := (vaddr >>> 12) &&& 0x1FF#64

def pageOffset (vaddr : VirtAddr) : BitVec 64 := vaddr &&& 0xFFF#64

def physAddrMask : BitVec 64 := 0x000FFFFFFFFFF000#64

def pmmInvalidAddress : PhysAddr := -1#64

/-- `kernel_segment_info_t`. -/
structure KernelSegmentInfo where
  limineStart : VirtAddr
  limineEnd : VirtAddr
  textStart : VirtAddr
  textEnd : VirtAddr
  rodataStart : VirtAddr
  rodataEnd : VirtAddr
  dataStart : VirtAddr
  dataEnd : VirtAddr

/-- The address of `entries[index]` in a table of 64-bit entries. -/
def entryPtr (entries : VirtAddr) (index : BitVec 64) : VirtAddr := entries + index * 8#64

/-! ### Mapping -/

/-- The block `paging_map` repeats at its three upper levels: give the entry a zeroed table if it is
not present, or the flags in, and return the table it points to. -/
def pagingNextTable (table : PhysAddr) (index intermediateFlags : BitVec 64) :
    Kernel PhysAddr := do
  let g ← getGlobals
  let entries := g.hhdmPhysToVirt table
  let entry ← load64 (entryPtr entries index)
  if entry &&& pagePresent = 0#64 then
    let frame ← pmmAllocFrame
    let _ ← memset (g.hhdmPhysToVirt frame) 0 pageSize
    store64 (entryPtr entries index) frame
  let entry ← load64 (entryPtr entries index)
  store64 (entryPtr entries index) (entry ||| intermediateFlags)
  let entry ← load64 (entryPtr entries index)
  pure (entry &&& physAddrMask)

/-- The flags `paging_map` gives to the upper levels. -/
def intermediateFlags (flags : BitVec 64) : BitVec 64 :=
  if flags &&& pageUser ≠ 0#64 then pagePresent ||| pageWritable ||| pageUser
  else pagePresent ||| pageWritable

def pagingMap (pml4Phys : PhysAddr) (virtAddr : VirtAddr) (physAddr : PhysAddr)
    (flags : BitVec 64) : Kernel Unit := do
  if ¬ IsPageAligned pml4Phys then
    klogf .error "paging_map: pml4 address is not page alligned 0x%p" [pml4Phys]
  else if ¬ IsPageAligned virtAddr then
    klogf .error "paging_map: virtual address is not page alligned 0x%p" [virtAddr]
  else if ¬ IsPageAligned physAddr then
    klogf .error "paging_map: physical address is not page alligned 0x%p" [physAddr]
  else
    let pdptPhys ← pagingNextTable pml4Phys (pml4Index virtAddr) (intermediateFlags flags)
    let pdPhys ← pagingNextTable pdptPhys (pdptIndex virtAddr) (intermediateFlags flags)
    let ptPhys ← pagingNextTable pdPhys (pdIndex virtAddr) (intermediateFlags flags)
    let g ← getGlobals
    let ptEntries := g.hhdmPhysToVirt ptPhys
    let entry ← load64 (entryPtr ptEntries (ptIndex virtAddr))
    if entry &&& pagePresent ≠ 0#64 then
      let entry ← load64 (entryPtr ptEntries (ptIndex virtAddr))
      klogf .warn "paging_map: remapping already mapped address 0x%p from 0x%p to 0x%p"
        [virtAddr, entry &&& physAddrMask, physAddr]
    store64 (entryPtr ptEntries (ptIndex virtAddr)) (physAddr ||| flags)
    invlpg virtAddr

def pagingMapRange (pml4Phys : PhysAddr) (virtAddr : VirtAddr) (physAddr : PhysAddr)
    (size flags : BitVec 64) : Kernel Unit := do
  if ¬ IsPageAligned pml4Phys then
    klogf .error "paging_map_range: pml4 address is not page alligned 0x%p" [pml4Phys]
  else if ¬ IsPageAligned virtAddr then
    klogf .error "paging_map_range: virtual address is not page alligned 0x%p" [virtAddr]
  else if ¬ IsPageAligned physAddr then
    klogf .error "paging_map_range: physical address is not page alligned 0x%p" [physAddr]
  else
    Prog.forAcc
      (fun i () =>
        pagingMap pml4Phys (virtAddr + BitVec.ofNat 64 i * pageSize)
          (physAddr + BitVec.ofNat 64 i * pageSize) flags)
      (pageCount size).toNat 0 ()

def pagingUnmap (pml4Phys : PhysAddr) (virtAddr : VirtAddr) : Kernel Unit := do
  if ¬ IsPageAligned pml4Phys then
    klogf .error "paging_unmap: pml4 address is not page alligned 0x%p" [pml4Phys]
  else if ¬ IsPageAligned virtAddr then
    klogf .error "paging_unmap: virtual address is not page alligned 0x%p" [virtAddr]
  else
    let g ← getGlobals
    let pml4Entry ← load64 (entryPtr (g.hhdmPhysToVirt pml4Phys) (pml4Index virtAddr))
    if pml4Entry &&& pagePresent = 0#64 then
      klogf .warn "paging_unmap: address 0x%p is not mapped" [virtAddr]
    else
      let pdptPhys := pml4Entry &&& physAddrMask
      let pdptEntry ← load64 (entryPtr (g.hhdmPhysToVirt pdptPhys) (pdptIndex virtAddr))
      if pdptEntry &&& pagePresent = 0#64 then
        klogf .warn "paging_unmap: address 0x%p is not mapped" [virtAddr]
      else
        let pdPhys := pdptEntry &&& physAddrMask
        let pdEntry ← load64 (entryPtr (g.hhdmPhysToVirt pdPhys) (pdIndex virtAddr))
        if pdEntry &&& pagePresent = 0#64 then
          klogf .warn "paging_unmap: address 0x%p is not mapped" [virtAddr]
        else
          let ptPhys := pdEntry &&& physAddrMask
          let ptEntry ← load64 (entryPtr (g.hhdmPhysToVirt ptPhys) (ptIndex virtAddr))
          if ptEntry &&& pagePresent = 0#64 then
            klogf .warn "paging_unmap: address 0x%p is not mapped" [virtAddr]
          else
            store64 (entryPtr (g.hhdmPhysToVirt ptPhys) (ptIndex virtAddr)) 0#64
            invlpg virtAddr

def pagingUnmapRange (pml4Phys : PhysAddr) (virtAddr : VirtAddr) (size : BitVec 64) :
    Kernel Unit := do
  if ¬ IsPageAligned pml4Phys then
    klogf .error "paging_unmap_range: pml4 address is not page alligned 0x%p" [pml4Phys]
  else if ¬ IsPageAligned virtAddr then
    klogf .error "paging_unmap_range: virtual address is not page alligned 0x%p" [virtAddr]
  else
    Prog.forAcc (fun i () => pagingUnmap pml4Phys (virtAddr + BitVec.ofNat 64 i * pageSize))
      (pageCount size).toNat 0 ()

/-! ### Reading -/

def pagingIsMapped (pml4Phys : PhysAddr) (virtAddr : VirtAddr) : Kernel Bool := do
  if ¬ IsPageAligned pml4Phys then
    klogf .error "paging_is_mapped: pml4 address is not page alligned 0x%p" [pml4Phys]
    pure false
  else
    let g ← getGlobals
    let pml4Entry ← load64 (entryPtr (g.hhdmPhysToVirt pml4Phys) (pml4Index virtAddr))
    if pml4Entry &&& pagePresent = 0#64 then
      pure false
    else
      let pdptPhys := pml4Entry &&& physAddrMask
      let pdptEntry ← load64 (entryPtr (g.hhdmPhysToVirt pdptPhys) (pdptIndex virtAddr))
      if pdptEntry &&& pagePresent = 0#64 then
        pure false
      else
        let pdPhys := pdptEntry &&& physAddrMask
        let pdEntry ← load64 (entryPtr (g.hhdmPhysToVirt pdPhys) (pdIndex virtAddr))
        if pdEntry &&& pagePresent = 0#64 then
          pure false
        else
          let ptPhys := pdEntry &&& physAddrMask
          let ptEntry ← load64 (entryPtr (g.hhdmPhysToVirt ptPhys) (ptIndex virtAddr))
          if ptEntry &&& pagePresent = 0#64 then
            pure false
          else
            pure true

def pagingGetPhysical (pml4Phys : PhysAddr) (virtAddr : VirtAddr) : Kernel PhysAddr := do
  if ¬ IsPageAligned pml4Phys then
    klogf .error "paging_is_mapped: pml4 address is not page alligned 0x%p" [pml4Phys]
    pure pmmInvalidAddress
  else
    let g ← getGlobals
    let pml4Entry ← load64 (entryPtr (g.hhdmPhysToVirt pml4Phys) (pml4Index virtAddr))
    if pml4Entry &&& pagePresent = 0#64 then
      pure pmmInvalidAddress
    else
      let pdptPhys := pml4Entry &&& physAddrMask
      let pdptEntry ← load64 (entryPtr (g.hhdmPhysToVirt pdptPhys) (pdptIndex virtAddr))
      if pdptEntry &&& pagePresent = 0#64 then
        pure pmmInvalidAddress
      else
        let pdPhys := pdptEntry &&& physAddrMask
        let pdEntry ← load64 (entryPtr (g.hhdmPhysToVirt pdPhys) (pdIndex virtAddr))
        if pdEntry &&& pagePresent = 0#64 then
          pure pmmInvalidAddress
        else
          let ptPhys := pdEntry &&& physAddrMask
          let ptEntry ← load64 (entryPtr (g.hhdmPhysToVirt ptPhys) (ptIndex virtAddr))
          if ptEntry &&& pagePresent = 0#64 then
            pure pmmInvalidAddress
          else
            let ptEntry ← load64 (entryPtr (g.hhdmPhysToVirt ptPhys) (ptIndex virtAddr))
            pure ((ptEntry &&& physAddrMask) ||| pageOffset virtAddr)

/-! ### Address spaces -/

def pagingSwitchPml4 (pml4Phys : PhysAddr) : Kernel Unit := do
  if ¬ IsPageAligned pml4Phys then
    klogf .error "paging_switch_pml4: pml4 address is not page alligned 0x%p" [pml4Phys]
  else
    writeCr3 pml4Phys

def pagingGetCurrentPml4 : Kernel PhysAddr := readCr3

def pagingCreatePml4 : Kernel PhysAddr := do
  let pml4Phys ← pmmAllocFrame
  let g ← getGlobals
  let pml4Entries := g.hhdmPhysToVirt pml4Phys
  Prog.forAcc (fun i () => store64 (entryPtr pml4Entries (BitVec.ofNat 64 i)) 0#64) 256 0 ()
  Prog.forAcc
    (fun i () =>
      store64 (entryPtr pml4Entries (BitVec.ofNat 64 (i + 256))) (g.kernelPml4Entries i))
    256 0 ()
  pure pml4Phys

/-- The frames freed so far, in order, each with the branch its `pmm_free_frame` call took. The C
code keeps no such list: it is what the loops below do, recorded. -/
abbrev FreeTrace := List (PhysAddr × FreeBranch)

/-- One of the nested loops of `paging_destroy_pml4`: for every present entry of the first `count`,
run the inner loop on the table it points to and then free that table. -/
def pagingFreeTables (count : Nat) (inner : PhysAddr → FreeTrace → Kernel FreeTrace)
    (table : PhysAddr) (freed : FreeTrace) : Kernel FreeTrace := do
  let g ← getGlobals
  let entries := g.hhdmPhysToVirt table
  Prog.forAcc
    (fun index freed => do
      let entry ← load64 (entryPtr entries (BitVec.ofNat 64 index))
      if entry &&& pagePresent = 0#64 then
        pure freed
      else
        let entry ← load64 (entryPtr entries (BitVec.ofNat 64 index))
        let child := entry &&& physAddrMask
        let freed ← inner child freed
        let branch ← pmmFreeFrame child
        pure (freed ++ [(child, branch)]))
    count 0 freed

def pagingDestroyPml4 (pml4Phys : PhysAddr) : Kernel FreeTrace := do
  if ¬ IsPageAligned pml4Phys then
    klogf .error "paging_switch_pml4: pml4 address is not page alligned 0x%p" [pml4Phys]
    pure []
  else
    let freed ← pagingFreeTables 256
      (pagingFreeTables 512 (pagingFreeTables 512 fun _ freed => pure freed)) pml4Phys []
    let branch ← pmmFreeFrame pml4Phys
    pure (freed ++ [(pml4Phys, branch)])

/-! ### Initialisation -/

/-- One round of the loop that fills the kernel half of the first PML4. -/
def pagingInitKernelSlot (pml4Entries : VirtAddr) (i : Nat) : Kernel Unit := do
  let pdptPhys ← pmmAllocFrame
  let g ← getGlobals
  let _ ← memset (g.hhdmPhysToVirt pdptPhys) 0 pageSize
  store64 (entryPtr pml4Entries (BitVec.ofNat 64 i)) (pdptPhys ||| pagePresent ||| pageWritable)

/-- One round of the loop that copies the kernel half into `kernel_pml4_entries`. -/
def pagingInitSaveSlot (pml4Entries : VirtAddr) (i : Nat) : Kernel Unit := do
  let entry ← load64 (entryPtr pml4Entries (BitVec.ofNat 64 (i + 256)))
  let g ← getGlobals
  setGlobals { g with kernelPml4Entries := Function.update g.kernelPml4Entries i entry }

/-- Mapping one kernel segment, `start` to `stop`, at its place in the loaded image. -/
def pagingInitSegment (pml4Phys : PhysAddr) (kernelPhysicalBase : PhysAddr)
    (kernelVirtualBase start stop : VirtAddr) (flags : BitVec 64) : Kernel Unit :=
  pagingMapRange pml4Phys start ((start - kernelVirtualBase) + kernelPhysicalBase) (stop - start)
    flags

def pagingInit (kernelPhysicalBase : PhysAddr) (kernelVirtualBase : VirtAddr)
    (segmentInfo : KernelSegmentInfo) : Kernel PhysAddr := do
  let pml4Phys ← pmmAllocFrame
  let g ← getGlobals
  let pml4Entries := g.hhdmPhysToVirt pml4Phys
  let _ ← memset (g.hhdmPhysToVirt pml4Phys) 0 pageSize
  Prog.forAcc (fun i () => pagingInitKernelSlot pml4Entries i) 256 256 ()
  let memsize ← pmmGetTotalSize
  pagingMapRange pml4Phys g.hhdmOffset 0#64 memsize
    (pageWritable ||| pageGlobal ||| pageNoExecute ||| pagePresent)
  pagingInitSegment pml4Phys kernelPhysicalBase kernelVirtualBase segmentInfo.limineStart
    segmentInfo.limineEnd (pageGlobal ||| pageNoExecute ||| pagePresent)
  pagingInitSegment pml4Phys kernelPhysicalBase kernelVirtualBase segmentInfo.textStart
    segmentInfo.textEnd (pageGlobal ||| pagePresent)
  pagingInitSegment pml4Phys kernelPhysicalBase kernelVirtualBase segmentInfo.rodataStart
    segmentInfo.rodataEnd (pageGlobal ||| pageNoExecute ||| pagePresent)
  pagingInitSegment pml4Phys kernelPhysicalBase kernelVirtualBase segmentInfo.dataStart
    segmentInfo.dataEnd (pageGlobal ||| pageNoExecute ||| pageWritable ||| pagePresent)
  Prog.forAcc (fun i () => pagingInitSaveSlot pml4Entries i) 256 0 ()
  enableNxe
  writeCr3 pml4Phys
  klogf .debug "paging_init: paging initialised without crashing, pml4_phys=0x%p" [pml4Phys]
  pure pml4Phys

end RainstormOs
