import RainstormOs.KernelEntry
import RainstormOs.Proof.KernelLayout
import Mathlib.Algebra.Order.BigOperators.Group.Finset

/-!
# From the boot loader to a running system

`memory_init` runs `pmm_init` on the memory map and then `paging_init`. What the one leaves is what
the other needs, so from any memory map the boot loader may hand over, the state after `memory_init`
satisfies the invariant that later calls keep. It returns if there is a place for the bitmap and a
frame for every table.
-/

namespace RainstormOs

open Trie (walk Reaches)

/-! ### The two managers in sequence -/

section

variable {memmap : List LimineMemmapEntry} {hhdmOffset : BitVec 64}
  {kernelPhysicalBase : PhysAddr} {kernelVirtualBase : VirtAddr} {info : KernelSegmentInfo}
  {symbols : LinkerSymbols} {boot s t : Machine} {pml4 : PhysAddr}

theorem PmmInitialised.ready (h : PmmInitialised memmap hhdmOffset s t) : PmmReady t where
  layout := h.layout
  bitmap f hf := by
    have hsize := h.layout.size_eq
    have htracked := h.layout.tracked
    have hlt := hf.2
    exact (h.bits f (by omega)).mpr (Or.inr hf)

theorem PagingInitialised.consistent {ranges : List RangeMapping}
    (h : PagingInitialised ranges s pml4 t) : Consistent pml4 ⟨{pml4}, ∅⟩ t where
  tables := h.tables
  snapshot := h.snapshot
  kernel := rfl
  nxe := h.nxe
  held f hf := absurd hf (Finset.notMem_empty f)

theorem pagingInit_initialised (h : PmmReady s)
    (hrun : (pagingInit kernelPhysicalBase kernelVirtualBase info).run s = some (pml4, t)) :
    PagingInitialised (initRanges s.globals kernelPhysicalBase kernelVirtualBase info) s pml4 t :=
  (wp_pagingInit h kernelPhysicalBase kernelVirtualBase info).of_run hrun

theorem pagingInit_returns (h : PmmReady s)
    (hframes : (tablePaths (initRanges s.globals kernelPhysicalBase kernelVirtualBase info)).card
      ≤ s.freeCount) :
    ∃ pml4 t, (pagingInit kernelPhysicalBase kernelVirtualBase info).run s = some (pml4, t)
      ∧ PagingInitialised (initRanges s.globals kernelPhysicalBase kernelVirtualBase info) s pml4
          t := by
  refine (wp_pagingInit h kernelPhysicalBase kernelVirtualBase info).returns ?_
  intro mid c hpanic
  cases c with
  | kpanic string => exact absurd (hpanic string rfl) (Nat.not_lt.mpr hframes)
  | _ => simp [exec]

/-- What `memory_init` leaves, with the state between the two initialisations. -/
structure MemoryInitialised (memmap : List LimineMemmapEntry) (hhdmOffset : BitVec 64)
    (kernelPhysicalBase : PhysAddr) (kernelVirtualBase : VirtAddr) (symbols : LinkerSymbols)
    (boot s : Machine) (pml4 : PhysAddr) (t : Machine) : Prop where
  pmm : PmmInitialised memmap hhdmOffset boot s
  paging : PagingInitialised
    (initRanges s.globals kernelPhysicalBase kernelVirtualBase symbols.segmentInfo) s pml4 t

theorem memoryInit_initialised (h : LimineMemmap memmap)
    (hrun : (memoryInit memmap hhdmOffset kernelPhysicalBase kernelVirtualBase symbols).run boot
      = some (pml4, t)) :
    ∃ s, MemoryInitialised memmap hhdmOffset kernelPhysicalBase kernelVirtualBase symbols boot s
      pml4 t := by
  have hwp : Prog.Wp exec (fun _ _ => True)
      (memoryInit memmap hhdmOffset kernelPhysicalBase kernelVirtualBase symbols) boot
      fun pml4 t => ∃ s, MemoryInitialised memmap hhdmOffset kernelPhysicalBase kernelVirtualBase
        symbols boot s pml4 t := by
    rw [memoryInit, Prog.wp_bind]
    refine (wp_pmmInit h hhdmOffset boot).imp (fun _ _ _ => trivial) fun _ s hpmm => ?_
    rw [Prog.wp_bind, wp_klogf, Prog.wp_bind]
    refine ⟨trivial, (wp_pagingInit hpmm.ready kernelPhysicalBase kernelVirtualBase
      symbols.segmentInfo).imp (fun _ _ _ => trivial) fun pml4 t hpaging => ?_⟩
    rw [Prog.wp_bind, wp_klogf]
    exact ⟨trivial, s, hpmm, hpaging⟩
  exact hwp.of_run hrun

theorem memoryInit_run (hpmm : (pmmInit memmap hhdmOffset).run boot = some ((), s))
    (hpaging : (pagingInit kernelPhysicalBase kernelVirtualBase symbols.segmentInfo).run s
      = some (pml4, t)) :
    (memoryInit memmap hhdmOffset kernelPhysicalBase kernelVirtualBase symbols).run boot
      = some (pml4, t) := by
  rw [memoryInit, Kernel.run_bind, hpmm]
  change Kernel.run (klogf _ _ _ >>= _) s = _
  rw [Kernel.run_bind]
  change Kernel.run (pagingInit _ _ _ >>= _) s = _
  rw [Kernel.run_bind, hpaging]
  rfl

/-- A layout whose pages lie below few last tables needs few frames. -/
theorem card_tablePaths_le (ranges : List RangeMapping) (paths : Finset (List Index))
    (hpaths : ∀ range ∈ ranges, ∀ page ∈ range.pages, page.path ∈ paths) :
    (tablePaths ranges).card ≤ 257 + 3 * paths.card := by
  have hsubset : tablePaths ranges ⊆ insert []
      (((Finset.range 256).image fun i => [BitVec.ofNat 9 (i + 256)])
        ∪ paths.biUnion fun path => {path.take 1, path.take 2, path}) := by
    refine Finset.insert_subset_insert _ (Finset.union_subset_union_right ?_)
    intro q hq
    obtain ⟨page, hpage, hq⟩ := Finset.mem_biUnion.mp hq
    obtain ⟨range, hrange, hpage⟩ := Finset.mem_biUnion.mp hpage
    exact Finset.mem_biUnion.mpr
      ⟨page.path, hpaths range (List.mem_toFinset.mp hrange) page hpage, hq⟩
  have hslots : ((Finset.range 256).image fun i => [(BitVec.ofNat 9 (i + 256) : Index)]).card
      ≤ 256 := Finset.card_image_le.trans (by rw [Finset.card_range])
  have hprefixes : (paths.biUnion fun path => {path.take 1, path.take 2, path}).card
      ≤ paths.card * 3 := Finset.card_biUnion_le_card_mul _ _ _ fun path _ => Finset.card_le_three
  have hunion := Finset.card_union_le
    ((Finset.range 256).image fun i => [(BitVec.ofNat 9 (i + 256) : Index)])
    (paths.biUnion fun path => {path.take 1, path.take 2, path})
  calc (tablePaths ranges).card
      ≤ _ := Finset.card_le_card hsubset
    _ ≤ _ := Finset.card_insert_le _ _
    _ ≤ 257 + 3 * paths.card := by omega

end

/-! ### A small machine -/

/-- Two megabytes of memory, with the kernel image at the end of it. -/
def bootMemmap : List LimineMemmapEntry :=
  [⟨0x1000#64, 0x17F000#64, limineMemmapUsable⟩,
    ⟨0x180000#64, 0x80000#64, limineMemmapExecutableAndModules⟩]

theorem bootMemmap_ok : LimineMemmap bootMemmap where
  end_le := by decide
  usable_aligned := by decide

def bootPhysicalBase : PhysAddr := 0x180000#64

def bootVirtualBase : VirtAddr := 0xFFFFFFFF80000000#64

def bootSymbols : LinkerSymbols where
  limineBegin := 0xFFFFFFFF80000000#64
  limineEnd := 0xFFFFFFFF800000C0#64
  textBegin := 0xFFFFFFFF80001000#64
  textEnd := 0xFFFFFFFF80003A10#64
  rodataBegin := 0xFFFFFFFF80004000#64
  rodataEnd := 0xFFFFFFFF80004F00#64
  dataBegin := 0xFFFFFFFF80005000#64
  dataEnd := 0xFFFFFFFF80008000#64

section

variable {hhdmOffset : BitVec 64} {boot s : Machine}

theorem bootMemmap_totalFrames (h : PmmInitialised bootMemmap hhdmOffset boot s) :
    s.globals.totalFrames = 512#64 := by
  rw [h.globals]
  change pageCount (highestAddr bootMemmap) = 512#64
  decide

theorem bootMemmap_hhdmOffset (h : PmmInitialised bootMemmap hhdmOffset boot s) :
    s.globals.hhdmOffset = hhdmOffset := by
  rw [h.globals]
  rfl

/-- The frames below the image are free, but for frame 0 and the one the bitmap is in. -/
theorem bootMemmap_freeCount (h : PmmInitialised bootMemmap hhdmOffset boot s) :
    382 ≤ s.freeCount := by
  have htotal := bootMemmap_totalFrames h
  have hsubset : Finset.Ico 2 384
      ⊆ (Finset.range s.globals.totalFrames.toNat).filter fun f => s.frameBit f = false := by
    intro f hf
    rw [Finset.mem_Ico] at hf
    rw [Finset.mem_filter, Finset.mem_range, htotal]
    change f < 512 ∧ _
    refine ⟨by omega, ?_⟩
    have hsize : s.globals.bitmapSize.toNat = 64 := by
      rw [h.layout.size_eq, htotal]
      rfl
    have husable : UsableFrame bootMemmap f := by
      refine ⟨_, List.mem_cons_self, rfl, ?_⟩
      change 4096 ≤ f * 4096 ∧ (f + 1) * 4096 ≤ 4096 + 0x17F000
      omega
    have hbitmap : ¬ s.globals.IsBitmapFrame f := by
      have hbase : s.globals.bitmapPhys = 0x1000#64 := by
        rw [h.globals, bitmapPhys_pmmInitGlobals]
        decide
      rw [Globals.IsBitmapFrame, hbase, hsize]
      change ¬ (1 ≤ f ∧ f < 1 + (64 + 4095) / 4096)
      omega
    rw [← Bool.not_eq_true, h.bits f (by omega)]
    tauto
  have hcard := Finset.card_le_card hsubset
  rwa [Nat.card_Ico] at hcard

theorem bootSymbols_segments : bootSymbols.segmentInfo.segments
    = [(0xFFFFFFFF80000000#64, 0xFFFFFFFF80001000#64),
      (0xFFFFFFFF80001000#64, 0xFFFFFFFF80004000#64),
      (0xFFFFFFFF80004000#64, 0xFFFFFFFF80005000#64),
      (0xFFFFFFFF80005000#64, 0xFFFFFFFF80008000#64)] := by decide

theorem bootSymbols_bounds : ∀ segment ∈ bootSymbols.segmentInfo.segments,
    0xFFFFFFFF80000000 ≤ segment.1.toNat ∧ segment.1.toNat ≤ segment.2.toNat
      ∧ segment.2.toNat ≤ 0xFFFFFFFF80008000 ∧ IsPageAligned segment.1
      ∧ IsPageAligned segment.2 := by
  rw [bootSymbols_segments]
  simp only [List.forall_mem_cons, List.not_mem_nil, false_imp_iff, implies_true, and_true]
  decide

theorem bootSymbols_inSegment {segment : VirtAddr × VirtAddr}
    (hsegment : segment ∈ bootSymbols.segmentInfo.segments) {vaddr : VirtAddr}
    (hin : InSegment segment vaddr) :
    0xFFFFFFFF80000000 ≤ vaddr.toNat ∧ vaddr.toNat < 0xFFFFFFFF80008000 := by
  have hbounds := bootSymbols_bounds segment hsegment
  unfold InSegment at hin
  omega

/-- The image ends at `0x188000` in physical memory. -/
theorem bootSymbols_target_lt {segment : VirtAddr × VirtAddr}
    (hsegment : segment ∈ bootSymbols.segmentInfo.segments) {vaddr : VirtAddr}
    (hin : InSegment segment vaddr) :
    (vaddr - bootVirtualBase + bootPhysicalBase).toNat < 0x188000 := by
  have hbounds := bootSymbols_inSegment hsegment hin
  rw [bootVirtualBase, bootPhysicalBase, BitVec.toNat_add, BitVec.toNat_sub]
  simp only [BitVec.toNat_ofNat]
  omega

/-- The image fits any window that stays clear of it. -/
theorem bootSymbols_request (h : PmmInitialised bootMemmap hhdmOffset boot s)
    (haligned : IsPageAligned hhdmOffset) (hhigh : IsHigherHalf hhdmOffset)
    (hclear : hhdmOffset.toNat + 0x200000 ≤ 0xFFFFFFFF80000000
      ∨ 0xFFFFFFFF80008000 ≤ hhdmOffset.toNat) :
    IsLayoutRequest s.globals bootPhysicalBase bootVirtualBase bootSymbols.segmentInfo := by
  have htotal : s.globals.totalFrames.toNat = 512 := by
    rw [bootMemmap_totalFrames h]
    rfl
  have hhdm := bootMemmap_hhdmOffset h
  refine ⟨?_, ?_, by decide, ?_, ?_, ?_, ?_, ?_⟩
  · rwa [hhdm]
  · rwa [hhdm]
  · intro segment hsegment
    have hbounds := bootSymbols_bounds segment hsegment
    unfold IsHigherHalf
    omega
  · exact fun segment hsegment => (bootSymbols_bounds segment hsegment).2.2.2
  · rw [bootSymbols_segments]
    simp only [List.pairwise_cons, List.forall_mem_cons, List.not_mem_nil, false_implies,
      implies_true, List.Pairwise.nil, and_true]
    unfold InSegment
    refine ⟨⟨?_, ?_, ?_⟩, ⟨?_, ?_⟩, ?_⟩
    all_goals
      intro vaddr hboth
      simp only [BitVec.toNat_ofNat] at hboth
      omega
  · intro segment hsegment vaddr hvaddr hwindow
    have hbounds := bootSymbols_inSegment hsegment hvaddr
    unfold Globals.InWindow at hwindow
    rw [hhdm, htotal] at hwindow
    omega
  · intro segment hsegment vaddr hvaddr
    exact (bootSymbols_target_lt hsegment hvaddr).trans (by decide)

/-- So does the window at the bottom of the higher half. -/
theorem bootSymbols_wellPlaced (h : PmmInitialised bootMemmap 0xFFFF800000000000#64 boot s) :
    WellPlaced s.globals bootPhysicalBase bootVirtualBase bootSymbols.segmentInfo := by
  refine ⟨bootSymbols_request h (by decide) (by decide) (Or.inl (by decide)), ?_⟩
  rw [bootMemmap_hhdmOffset h, bootMemmap_totalFrames h]
  decide

theorem path_pageOf_eq {vaddr : VirtAddr} {i3 i2 i1 : Index}
    (h3 : vaddr.toNat / 2 ^ 39 % 512 = i3.toNat) (h2 : vaddr.toNat / 2 ^ 30 % 512 = i2.toNat)
    (h1 : vaddr.toNat / 2 ^ 21 % 512 = i1.toNat) : (pageOf vaddr).path = [i3, i2, i1] := by
  have hindex : ∀ level (i : Index), vaddr.toNat / 2 ^ (12 + 9 * level) % 512 = i.toNat →
      tableIndex level vaddr = i := by
    intro level i hi
    apply BitVec.eq_of_toNat_eq
    rw [toNat_tableIndex, hi]
  rw [path_pageOf, hindex 3 i3 h3, hindex 2 i2 h2, hindex 1 i1 h1]

theorem bootSymbols_path {range : RangeMapping} {segment : VirtAddr × VirtAddr}
    (hsegment : segment ∈ bootSymbols.segmentInfo.segments)
    (hrange : range = segmentRange bootPhysicalBase bootVirtualBase segment.1 segment.2 range.flags)
    {page : Page} (hpage : page ∈ range.pages) : page.path = [511#9, 510#9, 0#9] := by
  obtain ⟨hlo, hle, hhi, hstart, hstop⟩ := bootSymbols_bounds segment hsegment
  have hhigh : IsHigherHalf segment.1 := by
    unfold IsHigherHalf
    omega
  rw [isPageAligned_iff] at hstart hstop
  have hcount : (pageCount range.size).toNat
      = (segment.2.toNat - segment.1.toNat + 4095) / 4096 := by
    rw [hrange]
    exact toNat_pageCount_segment hhigh hle
  have hfits : range.Fits := by
    refine ⟨by rw [hrange]; exact hhigh, ?_⟩
    rw [hcount, hrange]
    change segment.1.toNat + _ ≤ _
    omega
  rw [RangeMapping.pages] at hpage
  split at hpage
  · obtain ⟨i, hi, rfl⟩ := Finset.mem_image.mp hpage
    rw [Finset.mem_range] at hi
    have hval : (range.virtAddr + BitVec.ofNat 64 i * pageSize).toNat
        = segment.1.toNat + 4096 * i := by
      rw [hfits.toNat_add hi, hrange]
      rfl
    refine path_pageOf_eq ?_ ?_ ?_ <;> rw [hval] <;> simp only [BitVec.toNat_ofNat] <;> omega
  · exact absurd hpage (Finset.notMem_empty page)

/-- With the window at the bottom of the higher half, everything lies below two last tables. -/
theorem bootSymbols_card_tablePaths_le
    (h : PmmInitialised bootMemmap 0xFFFF800000000000#64 boot s) :
    (tablePaths (initRanges s.globals bootPhysicalBase bootVirtualBase
      bootSymbols.segmentInfo)).card ≤ 263 := by
  have htotal : s.globals.totalFrames.toNat = 512 := by
    rw [bootMemmap_totalFrames h]
    rfl
  have hcard := card_tablePaths_le
    (initRanges s.globals bootPhysicalBase bootVirtualBase bootSymbols.segmentInfo)
    {[511#9, 510#9, 0#9], [256#9, 0#9, 0#9]} ?_
  · have htwo : ({[511#9, 510#9, 0#9], [256#9, 0#9, 0#9]} : Finset (List Index)).card ≤ 2 :=
      Finset.card_le_two
    omega
  intro range hrange page hpage
  rw [Finset.mem_insert, Finset.mem_singleton]
  obtain rfl | ⟨segment, hsegment, hrange⟩ := mem_initRanges hrange
  · right
    rw [RangeMapping.pages] at hpage
    split at hpage
    · obtain ⟨i, hi, rfl⟩ := Finset.mem_image.mp hpage
      rw [Finset.mem_range, toNat_pageCount_window (by omega), htotal] at hi
      have hval : ((windowRange s.globals).virtAddr + BitVec.ofNat 64 i * pageSize).toNat
          = 0xFFFF800000000000 + 4096 * i := by
        change (s.globals.hhdmOffset + frameAddr i).toNat = _
        rw [bootMemmap_hhdmOffset h, BitVec.toNat_add, toNat_frameAddr (by omega)]
        simp only [BitVec.toNat_ofNat]
        omega
      refine path_pageOf_eq ?_ ?_ ?_ <;> rw [hval] <;> simp only [BitVec.toNat_ofNat] <;> omega
    · exact absurd hpage (Finset.notMem_empty page)
  · exact Or.inl (bootSymbols_path hsegment hrange hpage)

theorem bootSymbols_card_tablePaths
    (h : PmmInitialised bootMemmap 0xFFFF800000000000#64 boot s) :
    (tablePaths (initRanges s.globals bootPhysicalBase bootVirtualBase
      bootSymbols.segmentInfo)).card ≤ s.freeCount := by
  have hfree := bootMemmap_freeCount h
  have hcard := bootSymbols_card_tablePaths_le h
  omega

theorem memoryInit_bootMemmap :
    ∃ s pml4 t, MemoryInitialised bootMemmap 0xFFFF800000000000#64 bootPhysicalBase bootVirtualBase
        bootSymbols bareMachine s pml4 t
      ∧ (pagingInit bootPhysicalBase bootVirtualBase bootSymbols.segmentInfo).run s = some (pml4, t)
      ∧ (memoryInit bootMemmap 0xFFFF800000000000#64 bootPhysicalBase bootVirtualBase
          bootSymbols).run bareMachine = some (pml4, t) := by
  obtain ⟨s, hrun, hpmm⟩ :=
    pmmInit_returns bootMemmap_ok 0xFFFF800000000000#64 bareMachine (by decide)
  obtain ⟨pml4, t, hrun', hpaging⟩ :=
    pagingInit_returns hpmm.ready (bootSymbols_card_tablePaths hpmm)
  exact ⟨s, pml4, t, ⟨hpmm, hpaging⟩, hrun', memoryInit_run hrun hrun'⟩

theorem bootMemmap_frames_left {pml4 : PhysAddr} {t : Machine}
    (h : MemoryInitialised bootMemmap 0xFFFF800000000000#64 bootPhysicalBase bootVirtualBase
      bootSymbols bareMachine s pml4 t) : 119 ≤ t.freeCount := by
  have hcount := h.paging.count
  have hfree := bootMemmap_freeCount h.pmm
  have hpaths := bootSymbols_card_tablePaths_le h.pmm
  have hle := Finset.card_filter_le
    (tablePaths (initRanges s.globals bootPhysicalBase bootVirtualBase bootSymbols.segmentInfo))
    fun q => (walk t.child pml4 q).isSome
  rw [Machine.potential] at hcount
  omega

/-- The small machine boots, makes an address space and maps a page for users in it. -/
theorem exists_run_bootMemmap (rule : Machine → Op → Prop) (hcreate : ∀ t, rule t .create)
    (hmap : ∀ t pml4, t.globals.hhdmOffset = 0xFFFF800000000000#64 →
      t.globals.totalFrames = 512#64 → rule t (.map pml4 0x400000#64 0x5000#64
        (pagePresent ||| pageWritable ||| pageUser ||| pageNoExecute))) :
    ∃ boot kernelPml4 s0 pml4 clients s,
      PmmInitialised bootMemmap 0xFFFF800000000000#64 bareMachine boot
      ∧ (pagingInit bootPhysicalBase bootVirtualBase bootSymbols.segmentInfo).run boot
          = some (kernelPml4, s0)
      ∧ (memoryInit bootMemmap 0xFFFF800000000000#64 bootPhysicalBase bootVirtualBase
          bootSymbols).run bareMachine = some (kernelPml4, s0)
      ∧ pml4 ∈ clients.live
      ∧ Run kernelPml4 rule s0 [.created pml4, .mapped pml4 0x400000#64 0x5000#64
          (pagePresent ||| pageWritable ||| pageUser ||| pageNoExecute)] clients s := by
  obtain ⟨s, kernelPml4, s0, hinit, hpaging, hboot⟩ := memoryInit_bootMemmap
  have h0 := hinit.paging.consistent
  have hframes := bootMemmap_frames_left hinit
  obtain ⟨pml4, s1, hcall, hcount⟩ := h0.create_returns (by omega)
  have henabled : Op.create.Enabled kernelPml4 ⟨{kernelPml4}, ∅⟩ := trivial
  have hrun : Run kernelPml4 rule s0 ([] ++ [.created pml4]) _ s1 :=
    .step .init henabled (hcreate s0) (Op.run_create hcall)
  obtain ⟨entries, hglobals⟩ := hinit.paging.globals
  have hcreated := (h0.effect_create hcall).globals.trans hglobals
  have hhdm : s1.globals.hhdmOffset = 0xFFFF800000000000#64 := by
    rw [hcreated]
    exact bootMemmap_hhdmOffset hinit.pmm
  have htotal : s1.globals.totalFrames = 512#64 := by
    rw [hcreated]
    exact bootMemmap_totalFrames hinit.pmm
  have hvirt : IsPageAligned 0x400000#64 := by decide
  have hphys : IsPageAligned 0x5000#64 := by decide
  obtain ⟨s2, hcall', -⟩ := (hrun.consistent h0).map_returns (Set.mem_insert pml4 _) hvirt hphys
    (pagePresent ||| pageWritable ||| pageUser ||| pageNoExecute) (by omega)
  have hlive : (Op.map pml4 0x400000#64 0x5000#64
      (pagePresent ||| pageWritable ||| pageUser ||| pageNoExecute)).Enabled kernelPml4
        ⟨insert pml4 {kernelPml4}, ∅⟩ := Set.mem_insert pml4 _
  exact ⟨s, kernelPml4, s0, pml4, _, s2, hinit.pmm, hpaging, hboot, Set.mem_insert pml4 _,
    .step hrun hlive (hmap s1 pml4 hhdm htotal) (Op.run_map hcall')⟩

end

section

variable {kernelPhysicalBase : PhysAddr} {kernelVirtualBase : VirtAddr}
  {info : KernelSegmentInfo} {s : Machine}

/-- **The kernel's layout.** From any state of the allocator with a frame for every table, and for
any window and image in the higher half, `paging_init` returns and the active space translates
exactly the addresses of the window and of the four segments, each to its place and with its
permissions. -/
theorem pagingInit_kernelLayout (h : PmmReady s)
    (hplaced : WellPlaced s.globals kernelPhysicalBase kernelVirtualBase info)
    (hframes : (tablePaths (initRanges s.globals kernelPhysicalBase kernelVirtualBase info)).card
      ≤ s.freeCount) :
    ∃ pml4 t, (pagingInit kernelPhysicalBase kernelVirtualBase info).run s = some (pml4, t)
      ∧ t.cr3 = pml4
      ∧ KernelLayout s.globals kernelPhysicalBase kernelVirtualBase info t := by
  obtain ⟨pml4, t, hrun, hinit⟩ := pagingInit_returns h hframes
  exact ⟨pml4, t, hrun, hinit.cr3, hinit.kernelLayout hplaced h.layout.total_le⟩

theorem pagingInit_kernelLayout_bootMemmap :
    ∃ s, PmmReady s
      ∧ WellPlaced s.globals bootPhysicalBase bootVirtualBase bootSymbols.segmentInfo
      ∧ ∃ pml4 t, (pagingInit bootPhysicalBase bootVirtualBase bootSymbols.segmentInfo).run s
          = some (pml4, t)
        ∧ t.cr3 = pml4
        ∧ KernelLayout s.globals bootPhysicalBase bootVirtualBase bootSymbols.segmentInfo t := by
  obtain ⟨s, -, hpmm⟩ :=
    pmmInit_returns bootMemmap_ok 0xFFFF800000000000#64 bareMachine (by decide)
  have hplaced := bootSymbols_wellPlaced hpmm
  exact ⟨s, hpmm.ready, hplaced,
    pagingInit_kernelLayout hpmm.ready hplaced (bootSymbols_card_tablePaths hpmm)⟩

/-- A window that starts in the last page of the address space wraps around, and the second frame
lands at address 0. -/
theorem pagingInit_kernelLayout_wrapped_window :
    ∃ s, PmmReady s ∧ s.globals.hhdmOffset = 0xFFFFFFFFFFFFF000#64
      ∧ s.globals.totalFrames = 512#64
      ∧ IsLayoutRequest s.globals bootPhysicalBase bootVirtualBase bootSymbols.segmentInfo
      ∧ ∃ pml4 t, (pagingInit bootPhysicalBase bootVirtualBase bootSymbols.segmentInfo).run s
          = some (pml4, t)
        ∧ IsCanonical 0#64 ∧ ¬ IsHigherHalf 0#64 ∧ (t.hwWalk t.cr3 0#64).isSome = true := by
  obtain ⟨s, -, hpmm⟩ :=
    pmmInit_returns bootMemmap_ok 0xFFFFFFFFFFFFF000#64 bareMachine (by decide)
  have hhdm := bootMemmap_hhdmOffset hpmm
  have htotal : s.globals.totalFrames.toNat = 512 := by
    rw [bootMemmap_totalFrames hpmm]
    rfl
  have hrequest := bootSymbols_request hpmm (by decide) (by decide) (Or.inr (by decide))
  have hwindow : (windowRange s.globals).IsAligned :=
    ⟨hrequest.window_aligned, (by decide : IsPageAligned 0#64)⟩
  have hval : ∀ i, i < 512 → ((windowRange s.globals).virtAddr
      + BitVec.ofNat 64 i * pageSize).toNat = (0xFFFFFFFFFFFFF000 + 4096 * i) % 2 ^ 64 := by
    intro i hi
    change (s.globals.hhdmOffset + frameAddr i).toNat = _
    rw [hhdm, BitVec.toNat_add, toNat_frameAddr (by omega)]
    simp only [BitVec.toNat_ofNat]
    omega
  have hframes : (tablePaths (initRanges s.globals bootPhysicalBase bootVirtualBase
      bootSymbols.segmentInfo)).card ≤ s.freeCount := by
    have hfree := bootMemmap_freeCount hpmm
    have hcard := card_tablePaths_le
      (initRanges s.globals bootPhysicalBase bootVirtualBase bootSymbols.segmentInfo)
      {[511#9, 510#9, 0#9], [511#9, 511#9, 511#9], [0#9, 0#9, 0#9]} ?_
    · have hthree : ({[511#9, 510#9, 0#9], [511#9, 511#9, 511#9], [0#9, 0#9, 0#9]} :
          Finset (List Index)).card ≤ 3 := Finset.card_le_three
      omega
    intro range hrange page hpage
    rw [Finset.mem_insert, Finset.mem_insert, Finset.mem_singleton]
    obtain rfl | ⟨segment, hsegment, hrange⟩ := mem_initRanges hrange
    · rw [RangeMapping.pages, if_pos hwindow] at hpage
      obtain ⟨i, hi, rfl⟩ := Finset.mem_image.mp hpage
      rw [Finset.mem_range, toNat_pageCount_window (by omega), htotal] at hi
      -- The first page is the last of the address space, the others come from its beginning.
      by_cases hfirst : i = 0
      · right; left
        refine path_pageOf_eq ?_ ?_ ?_ <;> rw [hval i hi] <;> simp only [BitVec.toNat_ofNat] <;>
          omega
      · right; right
        refine path_pageOf_eq ?_ ?_ ?_ <;> rw [hval i hi] <;> simp only [BitVec.toNat_ofNat] <;>
          omega
    · exact Or.inl (bootSymbols_path hsegment hrange hpage)
  obtain ⟨pml4, t, hrun, hinit⟩ := pagingInit_returns hpmm.ready hframes
  refine ⟨s, hpmm.ready, hhdm, bootMemmap_totalFrames hpmm, hrequest, pml4, t, hrun, by decide,
    by decide, ?_⟩
  have hmem : pageOf 0#64 ∈ (windowRange s.globals).pages := by
    rw [RangeMapping.pages, if_pos hwindow, Finset.mem_image]
    refine ⟨1, Finset.mem_range.mpr ?_, BitVec.eq_of_toNat_eq ?_⟩
    · rw [toNat_pageCount_window (by omega), htotal]
      decide
    · rw [toNat_pageOf, toNat_pageOf, hval 1 (by decide)]
      rfl
  have hpresent : (t.leaf t.cr3 (pageOf 0#64)).getLsbD 0 = true := by
    rw [hinit.cr3, hinit.leaf]
    refine layoutOf_present (fun range hrange => (isKernelFlags_of_mem_initRanges hrange).present)
      ⟨windowRange s.globals, by simp [initRanges], hmem⟩
  obtain ⟨habsent, -⟩ | ⟨-, user, hwalk, -⟩ := hinit.readable.hwWalk_cases hinit.cr3 0#64
  · rw [hpresent] at habsent
    cases habsent
  · rw [hwalk]
    rfl

end

end RainstormOs
