import RainstormOs.Lib.SharedMap
import RainstormOs.Proof.Boot
import RainstormOs.Proof.Walkers

/-!
# Address spaces as maps

What the tables are for: each address space has a private map of its lower-half pages, and all of
them share one map of the higher half. The calls of `paging.h` are the operations of that abstract
machine. This module shows that `paging_get_physical` and `paging_is_mapped` answer, after any run,
what it answers.
-/

namespace RainstormOs

open Trie (walk Reaches)

/-- The abstract machine: pages to the frames they are mapped to. -/
abbrev PageMaps := SharedMap PhysAddr Page PhysAddr

/-- What a call does to the abstract machine. -/
def Event.apply (maps : PageMaps) : Event → PageMaps
  | .created pml4 => maps.create pml4
  | .mapped pml4 virtAddr physAddr _ => maps.set Page.IsKernel pml4 (pageOf virtAddr) (some physAddr)
  | .unmapped pml4 virtAddr => maps.set Page.IsKernel pml4 (pageOf virtAddr) none
  | .destroyed pml4 => maps.drop pml4
  | .switched _ => maps
  | .pmm _ => maps

def leafTarget (leaf : BitVec 64) : Option PhysAddr :=
  if leaf.getLsbD 0 then some (leaf &&& physAddrMask) else none

/-- The abstract machine after `paging_init`: the shared map is what it mapped, and the kernel's own
lower half is empty. -/
def initialMaps (ranges : List RangeMapping) (kernelPml4 : PhysAddr) : PageMaps where
  shared := fun page => leafTarget (layoutOf ranges page)
  own := fun pml4 => if pml4 = kernelPml4 then some fun _ => none else none

/-- The answers of the abstract machine. -/
def physicalIn (found : Option PhysAddr) (vaddr : VirtAddr) : PhysAddr :=
  match found with
  | some physAddr => physAddr + pageOffset vaddr
  | none => pmmInvalidAddress

/-- The machine holds the maps. -/
structure Represents (maps : PageMaps) (clients : Clients) (s : Machine) : Prop where
  live : ∀ pml4, (maps.own pml4).isSome = true ↔ pml4 ∈ clients.live
  leaf : ∀ pml4 ∈ clients.live, ∀ page,
    leafTarget (s.leaf pml4 page) = maps.lookup Page.IsKernel pml4 page

section

variable {maps : PageMaps} {kernelPml4 pml4 : PhysAddr} {clients clients' : Clients}
  {live : Set PhysAddr} {s t : Machine} {event : Event} {page : Page}

theorem leafTarget_zero : leafTarget 0#64 = none := rfl

theorem leafTarget_or {physAddr : PhysAddr} {flags : BitVec 64}
    (hphys : physAddr &&& physAddrMask = physAddr) (hflags : IsPageFlags flags) :
    leafTarget (physAddr ||| flags) = some physAddr := by
  have hpresent : (physAddr ||| flags).getLsbD 0 = true := by
    rw [BitVec.getLsbD_or, hflags.2, Bool.or_true]
  rw [leafTarget, if_pos hpresent, or_and_physAddrMask hphys hflags.plain]

/-- The shared half has the same last-level entries in every space. -/
theorem Tables.leaf_of_isKernel (h : Tables live s) {pml4' : PhysAddr} (hlive : pml4 ∈ live)
    (hlive' : pml4' ∈ live) (hkernel : page.IsKernel) : s.leaf pml4 page = s.leaf pml4' page := by
  have hwalk := h.walk_kernel hlive hlive' (page.isKernel_iff.mp hkernel)
    [page.extractLsb' 18 9, page.extractLsb' 9 9]
  rw [Machine.leaf, Machine.leaf]
  change (match walk s.child pml4 (page.extractLsb' 27 9 :: _) with
    | some table => s.entry table page.slot
    | none => 0#64) = _
  rw [hwalk]
  rfl

/-! ### One call -/

/-- An edit of a last-level entry is a `set` of the page it belongs to. -/
theorem Represents.edited (hrep : Represents maps clients s) {word : BitVec 64}
    (hedited : Edited clients.live pml4 page word s t) (hlive : pml4 ∈ clients.live) :
    Represents (maps.set Page.IsKernel pml4 page (leafTarget word)) clients t where
  live pml4' := by
    rw [SharedMap.isSome_own_set]
    exact hrep.live pml4'
  leaf pml4' hlive' page' := by
    by_cases hsees : SeesEdit pml4 page pml4' page'
    · rw [hedited.leaf_of_sees hlive hlive' hsees, hsees.1,
        SharedMap.lookup_set_of_sees ((hrep.live pml4).mpr hlive) hsees.2]
    · rw [hedited.leaf_of_not_sees hlive hlive' hsees, SharedMap.lookup_set_of_not_sees hsees]
      exact hrep.leaf pml4' hlive' page'

/-- Unmapping a page that is not mapped changes nothing in the abstract machine either. -/
theorem Represents.unmapAbsent (hrep : Represents maps clients s) (htables : Tables clients.live s)
    (hlive : pml4 ∈ clients.live) (habsent : (s.leaf pml4 page).getLsbD 0 = false) :
    Represents (maps.set Page.IsKernel pml4 page none) clients s where
  live pml4' := by
    rw [SharedMap.isSome_own_set]
    exact hrep.live pml4'
  leaf pml4' hlive' page' := by
    by_cases hsees : SeesEdit pml4 page pml4' page'
    · have hsame : s.leaf pml4' page = s.leaf pml4 page := by
        obtain rfl | hkernel := hsees.2
        · rfl
        · exact htables.leaf_of_isKernel hlive' hlive hkernel
      rw [hsees.1, SharedMap.lookup_set_of_sees ((hrep.live pml4).mpr hlive) hsees.2, hsame,
        leafTarget, habsent]
      rfl
    · rw [SharedMap.lookup_set_of_not_sees hsees]
      exact hrep.leaf pml4' hlive' page'

theorem Represents.created (hrep : Represents maps clients s) {f : Nat} (hcreated : Created s f t)
    (h : Consistent kernelPml4 clients s) :
    Represents (maps.create (frameAddr f))
      { clients with live := insert (frameAddr f) clients.live } t where
  live pml4' := by
    rw [SharedMap.isSome_own_create, hrep.live]
    exact Iff.rfl
  leaf pml4' hlive' page' := by
    by_cases hnew : pml4' = frameAddr f
    · rw [hnew, SharedMap.lookup_create_self,
        hcreated.leaf_fresh h.tables h.snapshot h.kernel]
      split
      · next hkernel =>
          rw [hrep.leaf kernelPml4 h.kernel, SharedMap.lookup, if_pos hkernel]
      · rfl
    · have hold : pml4' ∈ clients.live := hlive'.resolve_left hnew
      have hsame := hcreated.taken.sameTables h.tables.toForest hcreated.free
      rw [SharedMap.lookup_create_of_ne hnew, hsame.leaf h.tables.toForest hold]
      exact hrep.leaf pml4' hold page'

/-- **One call is one step of the abstract machine.** -/
theorem Effect.represents (heffect : Effect clients s event clients' t)
    (h : Consistent kernelPml4 clients s) (hvalid : event.op.Valid)
    (hrep : Represents maps clients s) : Represents (event.apply maps) clients' t := by
  have hsame : ∀ {u : Machine}, PmmOnly s u → ∀ pml4' ∈ clients.live, ∀ page',
      u.leaf pml4' page' = s.leaf pml4' page' := fun honly pml4' hlive' page' =>
    (honly.sameTables h.tables.toForest).leaf h.tables.toForest hlive' page'
  cases heffect with
  | created hcreated => exact hrep.created hcreated h
  | mapped hlive hmapped =>
      obtain ⟨-, -, haligned, hlt, hflags⟩ := hvalid
      have hstep := hrep.edited hmapped.edited hlive
      rw [leafTarget_or (and_physAddrMask_eq_self_iff.mpr ⟨haligned, hlt⟩) hflags] at hstep
      exact hstep
  | mapRefused hmisaligned => exact absurd ⟨hvalid.1, hvalid.2.2.1⟩ hmisaligned
  | unmapped hlive hedited => exact hrep.edited hedited hlive
  | unmapAbsent hlive habsent => exact hrep.unmapAbsent h.tables hlive habsent
  | unmapRefused hmisaligned => exact absurd hvalid.1 hmisaligned
  | @destroyed pml4 t hlive hfreed =>
      refine ⟨fun pml4' => ?_, fun pml4' hlive' page' => ?_⟩
      · change ((maps.drop pml4).own pml4').isSome = true ↔ _
        rw [SharedMap.isSome_own_drop, hrep.live]
        exact Iff.rfl
      · change _ = (maps.drop pml4).lookup Page.IsKernel pml4' page'
        rw [SharedMap.lookup_drop_of_ne hlive'.2, hsame hfreed.only pml4' hlive'.1]
        exact hrep.leaf pml4' hlive'.1 page'
  | switched hlive => exact ⟨hrep.live, hrep.leaf⟩
  | pmm hpmm =>
      refine ⟨hrep.live, fun pml4' hlive' page' => ?_⟩
      rw [hsame hpmm.only pml4' hlive']
      exact hrep.leaf pml4' hlive' page'

/-! ### The two queries -/

theorem leafTarget_isSome (leaf : BitVec 64) : (leafTarget leaf).isSome = leaf.getLsbD 0 := by
  rw [leafTarget]
  cases leaf.getLsbD 0 <;> rfl

theorem physicalIn_leafTarget (leaf : BitVec 64) (vaddr : VirtAddr) :
    physicalIn (leafTarget leaf) vaddr = physicalOf leaf vaddr := by
  rw [leafTarget, physicalOf]
  cases leaf.getLsbD 0 with
  | false => rfl
  | true =>
      -- The offset lies below the address, so that adding and or-ing it are the same.
      have hdisjoint : (leaf &&& physAddrMask) &&& pageOffset vaddr = 0#64 := by
        have hmask : physAddrMask &&& 0xFFF#64 = 0#64 := by decide
        rw [pageOffset, BitVec.and_comm vaddr, BitVec.and_assoc, ← BitVec.and_assoc physAddrMask,
          hmask, BitVec.zero_and, BitVec.and_zero]
      exact BitVec.add_eq_or_of_and_eq_zero _ _ hdisjoint

theorem pagingGetPhysical_run (h : Tables live s) (hlive : pml4 ∈ live) (vaddr : VirtAddr) :
    (pagingGetPhysical pml4 vaddr).run s
      = some (physicalOf (s.leaf pml4 (pageOf vaddr)) vaddr, s) :=
  run_pagingGetPhysical s (h.isPageAligned hlive) vaddr

theorem pagingIsMapped_run (h : Tables live s) (hlive : pml4 ∈ live) (vaddr : VirtAddr) :
    (pagingIsMapped pml4 vaddr).run s = some ((s.leaf pml4 (pageOf vaddr)).getLsbD 0, s) :=
  run_pagingIsMapped s (h.isPageAligned hlive) vaddr

end

/-! ### Runs -/

section

variable {kernelPhysicalBase : PhysAddr} {kernelVirtualBase : VirtAddr} {info : KernelSegmentInfo}
  {boot s0 s : Machine} {kernelPml4 : PhysAddr} {history : List Event} {clients : Clients}

theorem PagingInitialised.represents {g : Globals} (hlayout : HigherHalfLayout g info)
    (htotal : g.totalFrames.toNat ≤ 2 ^ 40)
    (h : PagingInitialised (initRanges g kernelPhysicalBase kernelVirtualBase info) boot kernelPml4
      s0) :
    Represents (initialMaps (initRanges g kernelPhysicalBase kernelVirtualBase info) kernelPml4)
      ⟨{kernelPml4}, ∅⟩ s0 where
  live pml4 := by
    rw [initialMaps, Set.mem_singleton_iff]
    by_cases heq : pml4 = kernelPml4 <;> simp [heq]
  leaf pml4 hlive page := by
    obtain rfl : pml4 = kernelPml4 := hlive
    rw [h.leaf, SharedMap.lookup]
    split
    · rfl
    · next hlower =>
        rw [hlayout.layoutOf_eq_zero htotal hlower, initialMaps]
        simp [leafTarget_zero]

theorem Run.represents {ranges : List RangeMapping}
    (hrun : Run kernelPml4 (fun _ op => op.Valid) s0 history clients s)
    (h0 : Consistent kernelPml4 ⟨{kernelPml4}, ∅⟩ s0)
    (hrep : Represents (initialMaps ranges kernelPml4) ⟨{kernelPml4}, ∅⟩ s0) :
    Represents (history.foldl Event.apply (initialMaps ranges kernelPml4)) clients s := by
  refine Run.induct h0 (fun history clients s =>
    Represents (history.foldl Event.apply (initialMaps ranges kernelPml4)) clients s) hrep ?_ hrun
  intro history clients clients' s t event _ h _ hvalid heffect hrep
  rw [List.foldl_append]
  exact heffect.represents h hvalid hrep

/-- **Address-space refinement.** After any run of valid calls from the state `paging_init` left,
the spaces that exist are those of the abstract machine, and for each of them and every canonical
address `paging_get_physical` and `paging_is_mapped` return the abstract machine's answers, leaving
the state as it is. -/
theorem run_refines_pageMaps (hready : PmmReady boot)
    (hinit : (pagingInit kernelPhysicalBase kernelVirtualBase info).run boot
      = some (kernelPml4, s0))
    (hlayout : HigherHalfLayout boot.globals info)
    (hrun : Run kernelPml4 (fun _ op => op.Valid) s0 history clients s) :
    let maps := history.foldl Event.apply
      (initialMaps (initRanges boot.globals kernelPhysicalBase kernelVirtualBase info) kernelPml4)
    (∀ pml4, (maps.own pml4).isSome = true ↔ pml4 ∈ clients.live)
      ∧ ∀ pml4 ∈ clients.live, ∀ vaddr, IsCanonical vaddr →
        (pagingGetPhysical pml4 vaddr).run s
            = some (physicalIn (maps.lookup Page.IsKernel pml4 (pageOf vaddr)) vaddr, s)
          ∧ (pagingIsMapped pml4 vaddr).run s
            = some ((maps.lookup Page.IsKernel pml4 (pageOf vaddr)).isSome, s) := by
  have hpaging := pagingInit_initialised hready hinit
  have hrep := hrun.represents hpaging.consistent
    (hpaging.represents hlayout hready.layout.total_le)
  have htables := (hrun.consistent hpaging.consistent).tables
  refine ⟨hrep.live, fun pml4 hlive vaddr _ => ?_⟩
  rw [← hrep.leaf pml4 hlive, physicalIn_leafTarget, leafTarget_isSome]
  exact ⟨pagingGetPhysical_run htables hlive vaddr, pagingIsMapped_run htables hlive vaddr⟩

theorem run_refines_pageMaps_bootMemmap :
    ∃ boot kernelPml4 s0 pml4 clients s, PmmReady boot
      ∧ (pagingInit bootPhysicalBase bootVirtualBase bootSymbols.segmentInfo).run boot
          = some (kernelPml4, s0)
      ∧ Run kernelPml4 (fun _ op => op.Valid) s0 [.created pml4, .mapped pml4 0x400000#64 0x5000#64
          (pagePresent ||| pageWritable ||| pageUser ||| pageNoExecute)] clients s
      ∧ (pagingGetPhysical pml4 0x400123#64).run s = some (0x5123#64, s)
      ∧ (pagingIsMapped pml4 0x401000#64).run s = some (false, s) := by
  obtain ⟨boot, kernelPml4, s0, pml4, clients, s, hpmm, hinit, -, hlive, hrun⟩ :=
    exists_run_bootMemmap (fun _ op => op.Valid) (fun _ => trivial)
      fun _ _ _ _ => ⟨by decide, by decide, by decide, by decide, by decide⟩
  have hlayout := (bootSymbols_wellPlaced hpmm).higherHalf
  have hrefines := (run_refines_pageMaps hpmm.ready hinit hlayout hrun).2 pml4 hlive
  refine ⟨boot, kernelPml4, s0, pml4, clients, s, hpmm.ready, hinit, hrun, ?_, ?_⟩
  · have hpage : pageOf 0x400123#64 = pageOf 0x400000#64 := by decide
    rw [(hrefines 0x400123#64 (by decide)).1, hpage]
    simp only [List.foldl, Event.apply]
    rw [SharedMap.lookup_set_of_sees (SharedMap.isSome_own_create.mpr (Or.inl rfl)) (Or.inl rfl)]
    rfl
  · have hpage : pageOf 0x401000#64 ≠ pageOf 0x400000#64 := by decide
    rw [(hrefines 0x401000#64 (by decide)).2]
    simp only [List.foldl, Event.apply]
    rw [SharedMap.lookup_set_of_not_sees fun hsees => hpage hsees.1, SharedMap.lookup_create_self,
      if_neg (by decide)]
    rfl

end

end RainstormOs
