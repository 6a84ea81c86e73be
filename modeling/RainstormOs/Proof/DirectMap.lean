import RainstormOs.Proof.Permissions
import RainstormOs.Proof.Walkers
import RainstormOs.Proof.Ownership

/-!
# The window onto physical memory

The paging code edits tables through the window that `paging_init` maps at the HHDM offset. The
window lies in the shared half, so every address space has it, and as long as nobody maps or unmaps
one of its pages or frees one of its tables it stays as it was made. Every access the two memory
managers make then goes through a mapped, writable page to the byte the code means, in the middle of
each call as well as between calls.

Neither restriction can be dropped. `pmm_free_frame` takes any address, also that of a table in use,
and the next table is made in the freed frame; and an address outside the canonical halves has the
table indices of a canonical one, so `paging_unmap` can clear a page of the window without being given
its address.
-/

namespace RainstormOs

open Trie (walk Reaches)

/-- The window is placed at a page, and apart from the image. -/
structure WindowPlaced (g : Globals) (info : KernelSegmentInfo) : Prop
    extends HigherHalfLayout g info where
  window_aligned : IsPageAligned g.hhdmOffset
  window_disjoint : ∀ segment ∈ info.segments, ∀ vaddr, InSegment segment vaddr →
    ¬ g.InWindow vaddr

theorem WellPlaced.windowPlaced {g : Globals} {kernelPhysicalBase : PhysAddr}
    {kernelVirtualBase : VirtAddr} {info : KernelSegmentInfo}
    (h : WellPlaced g kernelPhysicalBase kernelVirtualBase info) : WindowPlaced g info :=
  ⟨h.higherHalf, h.window_aligned, h.window_disjoint⟩

/-- The call does not map or unmap a page of the window, also not by an address that differs from
one of the window only above bit 47, and does not destroy the active space. -/
def Op.SparesWindow (s : Machine) : Op → Prop
  | .map _ virtAddr _ _ => ∀ vaddr, s.globals.InWindow vaddr → pageOf virtAddr ≠ pageOf vaddr
  | .unmap _ virtAddr => ∀ vaddr, s.globals.InWindow vaddr → pageOf virtAddr ≠ pageOf vaddr
  | .destroy pml4 => pml4 ≠ s.cr3
  | _ => True

/-- A physical address can be written through the window, in the active space. -/
def Machine.Reachable (s : Machine) (physAddr : PhysAddr) : Prop :=
  s.Translates (s.globals.hhdmPhysToVirt physAddr) physAddr true true

/-- What the window gives the memory managers in one state. -/
structure DirectMapped (memmap : List LimineMemmapEntry) (kernelPml4 : PhysAddr)
    (clients : Clients) (s : Machine) : Prop where
  active : s.cr3 ∈ clients.live
  frame : ∀ f, f < s.globals.totalFrames.toNat → ∀ k, k < 4096 →
    s.Reachable (frameAddr f + BitVec.ofNat 64 k)
  allocFrame : ∀ physAddr t, pmmAllocFrame.run s = some (physAddr, t) →
    ∀ k, k < 4096 → t.Reachable (physAddr + BitVec.ofNat 64 k)
  allocFrames : ∀ count physAddr t, (pmmAllocFrames count).run s = some (physAddr, t) →
    ∀ k, k < 4096 * count.toNat → t.Reachable (physAddr + BitVec.ofNat 64 k)
  /-- Every byte a further call loads or stores, in the state it does so. -/
  call : ∀ op : Op, op.Enabled kernelPml4 clients → ∀ mid c,
    Prog.Visits exec (op.prog clients) s mid c → ∀ vaddr, c.Touches vaddr →
    mid.Translates vaddr (mid.globals.hhdmVirtToPhys vaddr) true true
  isMapped : ∀ pml4 ∈ clients.live, ∀ virtAddr mid c,
    Prog.Visits exec (pagingIsMapped pml4 virtAddr) s mid c → ∀ vaddr, c.Touches vaddr →
    mid.Translates vaddr (mid.globals.hhdmVirtToPhys vaddr) true true
  getPhysical : ∀ pml4 ∈ clients.live, ∀ virtAddr mid c,
    Prog.Visits exec (pagingGetPhysical pml4 virtAddr) s mid c → ∀ vaddr, c.Touches vaddr →
    mid.Translates vaddr (mid.globals.hhdmVirtToPhys vaddr) true true
  memmap : ∀ entry ∈ memmap, ¬ entry.SkippedBySizePass → ∀ physAddr : PhysAddr,
    entry.base.toNat ≤ physAddr.toNat →
    physAddr.toNat < entry.base.toNat + entry.length.toNat → s.Reachable physAddr

/-! ### The window in the layout of `paging_init` -/

section

variable {g : Globals} {kernelPhysicalBase : PhysAddr} {kernelVirtualBase : VirtAddr}
  {info : KernelSegmentInfo} {vaddr : VirtAddr}

theorem WindowPlaced.isHigherHalf (h : WindowPlaced g info) (hin : g.InWindow vaddr) :
    IsHigherHalf vaddr :=
  Nat.le_trans h.window_high hin.1

theorem WindowPlaced.isAligned (h : WindowPlaced g info) : (windowRange g).IsAligned :=
  ⟨h.window_aligned, (by decide : IsPageAligned 0#64)⟩

/-- A segment has no page in common with the window, wherever in a page it ends. -/
theorem WindowPlaced.not_mem_pages (h : WindowPlaced g info)
    (htotal : g.totalFrames.toNat ≤ 2 ^ 40) {range : RangeMapping}
    (hrange : range ∈ initRanges g kernelPhysicalBase kernelVirtualBase info)
    (hne : range ≠ windowRange g) (hin : g.InWindow vaddr) : pageOf vaddr ∉ range.pages := by
  intro hmem
  by_cases haligned : range.IsAligned
  · have hfits := h.toHigherHalfLayout.fits htotal hrange haligned
    rw [hfits.pageOf_mem_iff haligned (Or.inr (h.isHigherHalf hin))] at hmem
    obtain rfl | ⟨segment, hsegment, hrange⟩ := mem_initRanges hrange
    · exact hne rfl
    obtain ⟨hhigh, hle⟩ := h.segment_high segment hsegment
    have hstart := (isPageAligned_iff _).mp haligned.1
    have hwindow := (isPageAligned_iff _).mp h.window_aligned
    rw [hrange] at hmem hstart
    obtain ⟨hlo, hhi⟩ := hmem
    change segment.1.toNat ≤ vaddr.toNat at hlo
    change vaddr.toNat < segment.1.toNat + 4096 * (pageCount (segment.2 - segment.1)).toNat at hhi
    change segment.1.toNat % 4096 = 0 at hstart
    rw [toNat_pageCount_segment hhigh hle] at hhi
    -- The first address of the page lies in both.
    have hpage : (frameAddr (frameOf vaddr)).toNat = vaddr.toNat / 4096 * 4096 :=
      toNat_frameAddr (frameOf_lt vaddr)
    obtain ⟨hfirst, hlast⟩ := hin
    refine h.window_disjoint segment hsegment (frameAddr (frameOf vaddr)) ⟨?_, ?_⟩ ⟨?_, ?_⟩ <;>
      rw [hpage] <;> omega
  · rw [RangeMapping.pages, if_neg haligned] at hmem
    exact absurd hmem (Finset.notMem_empty _)

theorem WindowPlaced.layoutOf_eq (h : WindowPlaced g info)
    (htotal : g.totalFrames.toNat ≤ 2 ^ 40) (hin : g.InWindow vaddr) :
    layoutOf (initRanges g kernelPhysicalBase kernelVirtualBase info) (pageOf vaddr)
      = (windowRange g).entryAt vaddr := by
  have hmem : windowRange g ∈ initRanges g kernelPhysicalBase kernelVirtualBase info := by
    simp [initRanges]
  have hfits := h.toHigherHalfLayout.fits htotal hmem h.isAligned
  refine layoutOf_of_mem hmem (fun leaf => ?_) ?_
  · exact hfits.apply_of_contains h.isAligned ((contains_windowRange_iff htotal).mpr hin)
  · intro range hrange hne
    exact h.not_mem_pages htotal hrange hne hin

/-- A tracked frame is seen through the window, and through no other address. -/
theorem WindowPlaced.inWindow_iff (h : WindowPlaced g info) :
    g.InWindow vaddr ↔ frameOf (g.hhdmVirtToPhys vaddr) < g.totalFrames.toNat := by
  have hend := h.window_end
  have hlt := vaddr.isLt
  have hoffset := g.hhdmOffset.isLt
  rw [Globals.InWindow, frameOf, Globals.hhdmVirtToPhys, BitVec.toNat_sub]
  omega

end

/-! ### Calls of `pmm_mark_allocated` -/

/-- The calls of a `Run`, and calls of `pmm_mark_allocated` with any address in between. -/
inductive MarkedRun (kernelPml4 : PhysAddr) (rule : Machine → Op → Prop) (s0 : Machine) :
    Clients → Machine → Prop where
  | init : MarkedRun kernelPml4 rule s0 ⟨{kernelPml4}, ∅⟩ s0
  | step {clients clients' : Clients} {s t : Machine} {op : Op} {event : Event}
      (hrun : MarkedRun kernelPml4 rule s0 clients s) (henabled : op.Enabled kernelPml4 clients)
      (hrule : rule s op) (hcall : (op.prog clients).run s = some ((event, clients'), t)) :
      MarkedRun kernelPml4 rule s0 clients' t
  | mark {clients : Clients} {s t : Machine} {physAddr : PhysAddr}
      (hrun : MarkedRun kernelPml4 rule s0 clients s)
      (hcall : (pmmMarkAllocated physAddr).run s = some ((), t)) :
      MarkedRun kernelPml4 rule s0 clients t

theorem Run.marked {kernelPml4 : PhysAddr} {rule : Machine → Op → Prop} {s0 s : Machine}
    {history : List Event} {clients : Clients} (h : Run kernelPml4 rule s0 history clients s) :
    MarkedRun kernelPml4 rule s0 clients s := by
  induction h with
  | init => exact .init
  | step _ henabled hrule hcall ih => exact .step ih henabled hrule hcall

section

variable {kernelPml4 : PhysAddr} {clients : Clients} {s t : Machine} {physAddr : PhysAddr}

theorem pmmMarkAllocated_eq (hlayout : s.globals.PmmLayout)
    (hcall : (pmmMarkAllocated physAddr).run s = some ((), t)) : t = s.afterMark physAddr := by
  have hwp : Prog.Wp exec (fun _ _ => True) (pmmMarkAllocated physAddr) s
      fun _ t => t = s.afterMark physAddr :=
    wp_pmmMarkAllocated hlayout.fits (fun _ _ => trivial) rfl
  exact hwp.of_run hcall

theorem PmmOnly.afterMark (hlayout : s.globals.PmmLayout) (physAddr : PhysAddr) :
    PmmOnly s (s.afterMark physAddr) := by
  rw [Machine.afterMark]
  split
  · next h => exact (BitmapOnly.markFrame hlayout.fits h.2).pmmOnly hlayout
  · exact PmmOnly.refl s

theorem frameBit_afterMark (hlayout : s.globals.PmmLayout) {f : Nat}
    (hf : f < s.globals.totalFrames.toNat) (hbit : s.frameBit f = true) :
    (s.afterMark physAddr).frameBit f = true := by
  have htotal := hlayout.total_le
  rw [Machine.afterMark]
  split
  · rw [Machine.frameBit_markFrame s (by omega) (by omega), hbit, Bool.true_or]
  · exact hbit

theorem Consistent.afterMark (h : Consistent kernelPml4 clients s) (physAddr : PhysAddr) :
    Consistent kernelPml4 clients (s.afterMark physAddr) := by
  have hlayout := h.tables.layout
  have honly := PmmOnly.afterMark hlayout physAddr
  have hsame := honly.sameTables h.tables.toForest
  have hchild := hsame.child h.tables.toForest
  have hforest := hsame.forest_of_mono h.tables.toForest fun f hf => frameBit_afterMark hlayout hf
  refine ⟨h.tables.of_child hforest hchild, ?_, h.kernel, honly.nxe.trans h.nxe, ?_⟩
  · refine h.snapshot.of_child honly.globals ?_
    intro root hroot i next hnext
    rw [hchild root i ⟨root, hroot, [], Nat.zero_le _, rfl⟩, hnext]
  · intro f hf
    obtain ⟨hlt, hbit, hbitmap, hout⟩ := h.held f hf
    rw [honly.globals]
    refine ⟨hlt, frameBit_afterMark hlayout hlt hbit, hbitmap, fun table hreach => hout table ?_⟩
    exact (reaches_iff_of_child hchild (Nat.le_refl 3)).mp hreach

theorem MarkedRun.consistent {rule : Machine → Op → Prop} {s0 : Machine}
    (hrun : MarkedRun kernelPml4 rule s0 clients s)
    (h0 : Consistent kernelPml4 ⟨{kernelPml4}, ∅⟩ s0) : Consistent kernelPml4 clients s := by
  induction hrun with
  | init => exact h0
  | step _ henabled _ hcall ih => exact (Op.effect ih henabled hcall).2
  | mark _ hcall ih =>
      rw [pmmMarkAllocated_eq ih.tables.layout hcall]
      exact ih.afterMark _

end

/-! ### The window over whole runs -/

/-- Every space has the window, as it was made. -/
structure Windowed (g : Globals) (clients : Clients) (s : Machine) : Prop where
  globals : s.globals = g
  active : s.cr3 ∈ clients.live
  leaf : ∀ pml4 ∈ clients.live, ∀ vaddr, g.InWindow vaddr →
    s.leaf pml4 (pageOf vaddr) = (windowRange g).entryAt vaddr

section

variable {kernelPml4 : PhysAddr} {clients clients' : Clients} {g : Globals}
  {info : KernelSegmentInfo} {s t : Machine} {event : Event} {vaddr : VirtAddr}

theorem Windowed.step (h : Windowed g clients s) (hplaced : WindowPlaced g info)
    (hconsistent : Consistent kernelPml4 clients s) (hspares : event.op.SparesWindow s)
    (heffect : Effect clients s event clients' t) : Windowed g clients' t := by
  refine ⟨heffect.globals.trans h.globals, ?_, ?_⟩
  · apply heffect.active h.active
    rintro rfl
    exact hspares rfl
  · intro pml4 hlive vaddr hin
    rcases heffect.live_cases hlive with hold | rfl
    · rw [← h.leaf pml4 hold vaddr hin]
      apply heffect.leaf_of_not_edits hconsistent hold
      have hin' : s.globals.InWindow vaddr := by rwa [h.globals]
      intro hedits
      cases event with
      | mapped _ virtAddr _ _ => exact hspares vaddr hin' hedits.1.symm
      | unmapped _ virtAddr => exact hspares vaddr hin' hedits.1.symm
      | _ => exact hedits
    · cases heffect with
      | created hcreated =>
          have hkernel : (pageOf vaddr).IsKernel :=
            (isKernel_pageOf_iff (Or.inr (hplaced.isHigherHalf hin))).mpr
              (hplaced.isHigherHalf hin)
          rw [hcreated.leaf_fresh hconsistent.tables hconsistent.snapshot hconsistent.kernel,
            if_pos hkernel]
          exact h.leaf kernelPml4 hconsistent.kernel vaddr hin

theorem Windowed.afterMark (h : Windowed g clients s) (hconsistent : Consistent kernelPml4 clients s)
    (physAddr : PhysAddr) : Windowed g clients (s.afterMark physAddr) := by
  have honly := PmmOnly.afterMark hconsistent.tables.layout physAddr
  refine ⟨honly.globals.trans h.globals, ?_, ?_⟩
  · rw [honly.cr3]
    exact h.active
  · intro pml4 hlive vaddr hin
    rw [(honly.sameTables hconsistent.tables.toForest).leaf hconsistent.tables.toForest hlive]
    exact h.leaf pml4 hlive vaddr hin

/-- Inside a call as well, the window translates. -/
theorem Windowed.translates (h : Windowed g clients s) (hplaced : WindowPlaced g info)
    (htotal : g.totalFrames.toNat ≤ 2 ^ 40) (hreadable : Readable clients.live t)
    (hevolves : Evolves clients.live s t) (hin : g.InWindow vaddr) :
    t.Translates vaddr (vaddr - g.hhdmOffset) true true := by
  have hactive : t.cr3 ∈ clients.live := by
    rw [hevolves.cr3]
    exact h.active
  have hleaf : t.leaf t.cr3 (pageOf vaddr) = (windowRange g).entryAt vaddr := by
    rw [hevolves.leaf t.cr3 hactive, h.leaf t.cr3 hactive vaddr hin]
  have hflags : IsKernelFlags (windowRange g).flags := by
    constructor <;> simp only [windowRange] <;> decide
  exact (hreadable.translates hactive hplaced.isAligned hflags
    (windowRange_target_lt htotal hin) hleaf).window

/-- A plain command of a call accesses the bytes it means to. -/
theorem Windowed.translates_of_tracked (h : Windowed g clients s) (hplaced : WindowPlaced g info)
    (htotal : g.totalFrames.toNat ≤ 2 ^ 40) (hreadable : Readable clients.live t)
    (hevolves : Evolves clients.live s t) {c : Cmd} (hc : c.Tracked s.globals)
    (htouches : c.Touches vaddr) :
    t.Translates vaddr (t.globals.hhdmVirtToPhys vaddr) true true := by
  rw [hevolves.globals, h.globals, Globals.hhdmVirtToPhys]
  apply h.translates hplaced htotal hreadable hevolves
  rw [hplaced.inWindow_iff, ← h.globals]
  exact hc.touches vaddr htouches

theorem Windowed.reachable (h : Windowed g clients s) (hplaced : WindowPlaced g info)
    (hconsistent : Consistent kernelPml4 clients s) {physAddr : PhysAddr}
    (hphys : physAddr.toNat < 4096 * g.totalFrames.toNat) : s.Reachable physAddr := by
  have htotal : g.totalFrames.toNat ≤ 2 ^ 40 := by
    rw [← h.globals]
    exact hconsistent.tables.layout.total_le
  have hin : g.InWindow (g.hhdmPhysToVirt physAddr) := by
    rw [hplaced.inWindow_iff, hhdmVirtToPhys_physToVirt, frameOf]
    omega
  have htranslates := h.translates hplaced htotal hconsistent.readable (Evolves.refl _ s) hin
  rw [Machine.Reachable, h.globals]
  have hback : g.hhdmPhysToVirt physAddr - g.hhdmOffset = physAddr :=
    hhdmVirtToPhys_physToVirt g physAddr
  rwa [hback] at htranslates

/-! ### Frames the allocator hands out -/

theorem pmmAllocFrame_lt (hlayout : s.globals.PmmLayout) {physAddr : PhysAddr}
    (hrun : pmmAllocFrame.run s = some (physAddr, t)) {k : Nat} (hk : k < 4096) :
    (physAddr + BitVec.ofNat 64 k).toNat < 4096 * s.globals.totalFrames.toNat := by
  have htotal := hlayout.total_le
  have hwp : Prog.Wp exec (fun _ _ => True) pmmAllocFrame s fun physAddr _ =>
      (physAddr + BitVec.ofNat 64 k).toNat < 4096 * s.globals.totalFrames.toNat := by
    apply wp_pmmAllocFrame hlayout.fits (fun _ _ => trivial) (fun _ => trivial)
    intro f hfree _
    have hlt := hfree.1
    rw [BitVec.toNat_add, toNat_frameAddr (by omega), BitVec.toNat_ofNat]
    omega
  exact hwp.of_run hrun

theorem pmmAllocFrames_lt (hlayout : s.globals.PmmLayout) {count : BitVec 64}
    {physAddr : PhysAddr} (hrun : (pmmAllocFrames count).run s = some (physAddr, t)) {k : Nat}
    (hk : k < 4096 * count.toNat) :
    (physAddr + BitVec.ofNat 64 k).toNat < 4096 * s.globals.totalFrames.toNat := by
  have htotal := hlayout.total_le
  have hwp : Prog.Wp exec (fun _ _ => True) (pmmAllocFrames count) s fun physAddr _ =>
      (physAddr + BitVec.ofNat 64 k).toNat < 4096 * s.globals.totalFrames.toNat := by
    apply wp_pmmAllocFrames hlayout.fits (fun _ _ _ _ => trivial) (fun _ _ => trivial)
    · intro hzero
      rw [hzero] at hk
      exact absurd hk (Nat.not_lt_zero k)
    · intro _ start hwindow _
      have hlast := (hwindow (start + (count.toNat - 1)) (by omega) (by omega)).1
      rw [BitVec.toNat_add, toNat_frameAddr (by omega), BitVec.toNat_ofNat]
      omega
  exact hwp.of_run hrun

end

section

variable {memmap : List LimineMemmapEntry} {hhdmOffset : BitVec 64}
  {kernelPhysicalBase : PhysAddr} {kernelVirtualBase : VirtAddr} {symbols : LinkerSymbols}
  {boot mid s0 s : Machine} {kernelPml4 : PhysAddr} {clients : Clients}

theorem MemoryInitialised.windowPlaced
    (hinit : MemoryInitialised memmap hhdmOffset kernelPhysicalBase kernelVirtualBase symbols boot
      mid kernelPml4 s0)
    (hplaced : WindowPlaced (pmmInitGlobals memmap hhdmOffset boot.globals) symbols.segmentInfo) :
    WindowPlaced s0.globals symbols.segmentInfo := by
  obtain ⟨entries, hglobals⟩ := hinit.paging.globals
  rw [hglobals, hinit.pmm.globals]
  exact ⟨⟨hplaced.window_high, hplaced.window_end, hplaced.segment_high⟩, hplaced.window_aligned,
    hplaced.window_disjoint⟩

theorem MemoryInitialised.totalFrames_eq
    (hinit : MemoryInitialised memmap hhdmOffset kernelPhysicalBase kernelVirtualBase symbols boot
      mid kernelPml4 s0) :
    s0.globals.totalFrames = pageCount (highestAddr memmap) := by
  obtain ⟨entries, hglobals⟩ := hinit.paging.globals
  rw [hglobals, hinit.pmm.globals]
  rfl

theorem MemoryInitialised.windowed_init
    (hinit : MemoryInitialised memmap hhdmOffset kernelPhysicalBase kernelVirtualBase symbols boot
      mid kernelPml4 s0)
    (hplaced : WindowPlaced (pmmInitGlobals memmap hhdmOffset boot.globals) symbols.segmentInfo) :
    Windowed s0.globals ⟨{kernelPml4}, ∅⟩ s0 where
  globals := rfl
  active := hinit.paging.cr3
  leaf pml4 hlive vaddr hin := by
    obtain ⟨entries, hglobals⟩ := hinit.paging.globals
    obtain rfl : pml4 = kernelPml4 := hlive
    rw [hglobals] at hin ⊢
    rw [hinit.paging.leaf]
    rw [← hinit.pmm.globals] at hplaced
    exact hplaced.layoutOf_eq hinit.pmm.layout.total_le hin

theorem MemoryInitialised.windowed
    (hinit : MemoryInitialised memmap hhdmOffset kernelPhysicalBase kernelVirtualBase symbols boot
      mid kernelPml4 s0)
    (hplaced : WindowPlaced (pmmInitGlobals memmap hhdmOffset boot.globals) symbols.segmentInfo)
    (hrun : MarkedRun kernelPml4 (fun t op => op.SparesWindow t) s0 clients s) :
    Windowed s0.globals clients s := by
  induction hrun with
  | init => exact hinit.windowed_init hplaced
  | step hrun henabled hspares hcall ih =>
      have hconsistent := hrun.consistent hinit.paging.consistent
      have heffect := (Op.effect hconsistent henabled hcall).1
      rw [← Op.event_op hcall] at hspares
      exact ih.step (hinit.windowPlaced hplaced) hconsistent hspares heffect
  | mark hrun hcall ih =>
      have hconsistent := hrun.consistent hinit.paging.consistent
      rw [pmmMarkAllocated_eq hconsistent.tables.layout hcall]
      exact ih.afterMark hconsistent _

/-- **The paging code can always reach its tables.** After `memory_init` has run on a memory map as
the boot loader gives it, with the window apart from the image, and after any calls, those of
`pmm_mark_allocated` among them, that free only frames clients hold, map and unmap no address with the
table indices of a page of the window and do not destroy the active space: in the active space every
tracked frame is mapped writable through the window, so is every frame an
allocation can return and every entry of the memory map that the size pass counts, and every byte that
a further call of the memory managers loads or stores, at the moment it does so, is the byte the code
means. -/
theorem run_directMapped (h : LimineMemmap memmap)
    (hplaced : WindowPlaced (pmmInitGlobals memmap hhdmOffset boot.globals) symbols.segmentInfo)
    (hboot : (memoryInit memmap hhdmOffset kernelPhysicalBase kernelVirtualBase symbols).run boot
      = some (kernelPml4, s0))
    (hrun : MarkedRun kernelPml4 (fun t op => op.SparesWindow t) s0 clients s) :
    DirectMapped memmap kernelPml4 clients s := by
  obtain ⟨mid, hinit⟩ := memoryInit_initialised h hboot
  have hplaced0 := hinit.windowPlaced hplaced
  have hconsistent := hrun.consistent hinit.paging.consistent
  have hwindowed := hinit.windowed hplaced hrun
  have htotal : s0.globals.totalFrames.toNat ≤ 2 ^ 40 := hinit.paging.tables.layout.total_le
  have hlayout := hconsistent.tables.layout
  -- A client call is one more step of the run, so the window is there after it, too.
  have hclient : ∀ (call : PmmCall) (held : Finset Nat) (t : Machine),
      call.Allowed clients.held → (call.prog clients.held).run s = some (held, t) →
      ∀ physAddr : PhysAddr, physAddr.toNat < 4096 * s.globals.totalFrames.toNat →
      t.Reachable physAddr := by
    intro call held t hallowed hcall physAddr hphys
    have henabled : (Op.pmm call).Enabled kernelPml4 clients := hallowed
    have hop : ((Op.pmm call).prog clients).run s
        = some ((.pmm call, { clients with held := held }), t) := by
      rw [Op.prog, Kernel.run_bind, hcall]
      rfl
    have hnext := hrun.step henabled trivial hop
    rw [hwindowed.globals] at hphys
    exact (hinit.windowed hplaced hnext).reachable hplaced0
      (hnext.consistent hinit.paging.consistent) hphys
  have hquery : ∀ {α : Type} {prog : Kernel α},
      Prog.Wp exec (fun mid c => mid = s ∧ c.Tracked s.globals) prog s (fun _ _ => True) →
      ∀ mid c, Prog.Visits exec prog s mid c → ∀ vaddr, c.Touches vaddr →
      mid.Translates vaddr (mid.globals.hhdmVirtToPhys vaddr) true true := by
    intro α prog hwp mid c hvisit vaddr htouches
    obtain ⟨rfl, hc⟩ := hwp.of_visits hvisit
    exact hwindowed.translates_of_tracked hplaced0 htotal hconsistent.readable
      (Evolves.refl _ mid) hc htouches
  refine ⟨hwindowed.active, ?_, ?_, ?_, ?_, ?_, ?_, ?_⟩
  · intro f hf k hk
    apply hwindowed.reachable hplaced0 hconsistent
    rw [hwindowed.globals] at hf
    rw [BitVec.toNat_add, toNat_frameAddr (by omega), BitVec.toNat_ofNat]
    omega
  · intro physAddr t hcall k hk
    have hprog : (PmmCall.allocFrame.prog clients.held).run s
        = some (clients.held ∪ coveredFrames physAddr 1, t) := by
      rw [PmmCall.prog, Kernel.run_bind, hcall]
      rfl
    exact hclient .allocFrame _ t trivial hprog _ (pmmAllocFrame_lt hlayout hcall hk)
  · intro count physAddr t hcall k hk
    have hprog : ((PmmCall.allocFrames count).prog clients.held).run s
        = some (clients.held ∪ coveredFrames physAddr count.toNat, t) := by
      rw [PmmCall.prog, Kernel.run_bind, hcall]
      rfl
    exact hclient (.allocFrames count) _ t trivial hprog _ (pmmAllocFrames_lt hlayout hcall hk)
  · intro op henabled mid c hvisit vaddr htouches
    have hwithin := (Op.wp_prog hconsistent henabled).of_visits hvisit
    cases hwithin with
    | plain hreadable hevolves hc =>
        exact hwindowed.translates_of_tracked hplaced0 htotal hreadable hevolves hc htouches
    | flush _ _ => exact htouches.elim
    | load _ _ => exact htouches.elim
    | stop => exact htouches.elim
  · intro pml4 hlive virtAddr
    exact hquery (wp_pagingIsMapped (hconsistent.tables.isPageAligned hlive)
      (hconsistent.tables.readsTables hlive fun _ hc => ⟨rfl, hc⟩) trivial)
  · intro pml4 hlive virtAddr
    exact hquery (wp_pagingGetPhysical (hconsistent.tables.isPageAligned hlive)
      (hconsistent.tables.readsTables hlive fun _ hc => ⟨rfl, hc⟩) trivial)
  · intro entry hentry hcounts physAddr _ hend
    apply hwindowed.reachable hplaced0 hconsistent
    have hcovered := h.totalFrames_isLeast.1 entry hentry hcounts
    rw [hinit.totalFrames_eq]
    omega

theorem run_directMapped_bootMemmap :
    WindowPlaced (pmmInitGlobals bootMemmap 0xFFFF800000000000#64 bareMachine.globals)
        bootSymbols.segmentInfo
      ∧ ∃ kernelPml4 s0 pml4 clients s,
        (memoryInit bootMemmap 0xFFFF800000000000#64 bootPhysicalBase bootVirtualBase
          bootSymbols).run bareMachine = some (kernelPml4, s0)
        ∧ Run kernelPml4 (fun t op => op.SparesWindow t) s0 [.created pml4, .mapped pml4
            0x400000#64 0x5000#64 (pagePresent ||| pageWritable ||| pageUser ||| pageNoExecute)]
            clients s
        ∧ DirectMapped bootMemmap kernelPml4 clients s := by
  -- The window starts far above the page that is mapped.
  have hspares : ∀ (t : Machine) (pml4 : PhysAddr),
      t.globals.hhdmOffset = 0xFFFF800000000000#64 → t.globals.totalFrames = 512#64 →
      (Op.map pml4 0x400000#64 0x5000#64
        (pagePresent ||| pageWritable ||| pageUser ||| pageNoExecute)).SparesWindow t := by
    intro t pml4 hhdm htotal vaddr hin heq
    obtain ⟨hlo, hhi⟩ := hin
    have hnum := congrArg BitVec.toNat heq
    rw [toNat_pageOf, toNat_pageOf] at hnum
    rw [hhdm] at hlo hhi
    rw [htotal] at hhi
    simp only [BitVec.toNat_ofNat] at hlo hhi hnum
    omega
  obtain ⟨boot, kernelPml4, s0, pml4, clients, s, hpmm, -, hboot, -, hrun⟩ :=
    exists_run_bootMemmap (fun t op => op.SparesWindow t) (fun _ => trivial) hspares
  have hplaced : WindowPlaced (pmmInitGlobals bootMemmap 0xFFFF800000000000#64 bareMachine.globals)
      bootSymbols.segmentInfo := by
    rw [← hpmm.globals]
    exact (bootSymbols_wellPlaced hpmm).windowPlaced
  exact ⟨hplaced, kernelPml4, s0, pml4, clients, s, hboot, hrun,
    run_directMapped bootMemmap_ok hplaced hboot hrun.marked⟩

end

/-! ### Where the window is lost -/

section

variable {kernelPml4 : PhysAddr} {clients : Clients} {s t : Machine}

/-- An absent entry on the way ends the processor's walk. -/
theorem Machine.not_translates_of_absent {s : Machine} {vaddr : VirtAddr} {next physAddr : PhysAddr}
    (hroot : s.cr3 &&& hwAddrMask = s.cr3)
    (hupper : s.child s.cr3 (vaddr.extractLsb' 39 9) = some next)
    (habsent : (s.entry next (vaddr.extractLsb' 30 9)).getLsbD 0 = false) (writable noExecute : Bool) :
    ¬ s.Translates vaddr physAddr writable noExecute := by
  rintro ⟨found, hwalk, -⟩
  obtain ⟨hpresent, rfl⟩ := Machine.child_eq_some_iff.mp hupper
  rw [Machine.hwWalk, hroot] at hwalk
  cases hnx : s.hwEntry s.cr3 (vaddr.extractLsb' 39 9) with
  | none =>
      rw [hnx] at hwalk
      cases hwalk
  | some entry =>
      have hentry : entry = s.entry s.cr3 (vaddr.extractLsb' 39 9) := by
        rw [Machine.hwEntry] at hnx
        split at hnx
        · exact (Option.some.inj hnx).symm
        · cases hnx
      rw [hnx, hentry] at hwalk
      have hnone : s.hwEntry (s.entry s.cr3 (vaddr.extractLsb' 39 9) &&& hwAddrMask)
          (vaddr.extractLsb' 30 9) = none := hwEntry_of_absent habsent
      rw [Option.bind_eq_bind, Option.bind_some, hnone] at hwalk
      cases hwalk

/-- Clients can take every frame there is. -/
theorem Run.exists_exhausted {rule : Machine → Op → Prop} {s0 : Machine} {history : List Event}
    (h0 : Consistent kernelPml4 ⟨{kernelPml4}, ∅⟩ s0)
    (hrule : ∀ mid, rule mid (.pmm .allocFrame))
    (hrun : Run kernelPml4 rule s0 history clients s) :
    ∃ history' held t, Run kernelPml4 rule s0 history' { clients with held := held } t
      ∧ PmmOnly s t ∧ ∀ f, ¬ t.IsFree f := by
  generalize hcount : s.freeCount = count
  induction count generalizing history clients s with
  | zero =>
      refine ⟨history, clients.held, s, hrun, PmmOnly.refl s, fun f hfree => ?_⟩
      have hmem : f ∈ (Finset.range s.globals.totalFrames.toNat).filter
          fun f' => s.frameBit f' = false := by
        rw [Finset.mem_filter, Finset.mem_range]
        exact hfree
      exact absurd hcount (Nat.pos_iff_ne_zero.mp (Finset.card_pos.mpr ⟨f, hmem⟩))
  | succ count ih =>
      have hlayout := (hrun.consistent h0).tables.layout
      have htotal := hlayout.total_le
      obtain ⟨f, hfree⟩ := Machine.exists_isFree (by omega : 0 < s.freeCount)
      obtain ⟨physAddr, mid, hcall⟩ := pmmAllocFrame_returns hlayout hfree
      have hwp : Prog.Wp exec (fun _ _ => True) pmmAllocFrame s fun _ t =>
          ∃ f, s.IsFree f ∧ t = s.markFrame f :=
        wp_pmmAllocFrame hlayout.fits (fun _ _ => trivial) (fun _ => trivial)
          fun f hfree _ => ⟨f, hfree, rfl⟩
      obtain ⟨f, hfree, rfl⟩ := hwp.of_run hcall
      have hlt := hfree.1
      have honly := (BitmapOnly.markFrame hlayout.fits hlt).pmmOnly hlayout
      have hdecrease : (s.markFrame f).freeCount + 1 = s.freeCount := by
        apply Machine.freeCount_of_taken honly.globals hfree
        intro f' hf'
        rw [Machine.frameBit_markFrame s (by omega) (by omega), Bool.or_eq_true, decide_eq_true_eq]
      have hop : ((Op.pmm .allocFrame).prog clients).run s = some ((.pmm .allocFrame,
          { clients with held := clients.held ∪ coveredFrames physAddr 1 }), s.markFrame f) := by
        rw [Op.prog, PmmCall.prog, Kernel.run_bind, Kernel.run_bind, hcall]
        rfl
      have henabled : (Op.pmm .allocFrame).Enabled kernelPml4 clients := trivial
      obtain ⟨history', held, t, hrun', honly', hfull⟩ :=
        ih (hrun.step henabled (hrule s) hop) (by omega)
      exact ⟨history', held, t, hrun', honly.trans honly', hfull⟩

/-- With no frame left, freeing the table of a shared slot and making a new space cuts off the lower
half of what is below the slot, in the space that is active. -/
theorem Consistent.exists_table_lost (h : Consistent kernelPml4 clients s)
    (hactive : s.cr3 = kernelPml4) (hfull : ∀ f, ¬ s.IsFree f) {vaddr : VirtAddr}
    (hslot : vaddr.extractLsb' 39 9 ∈ kernelSlots) (hlower : vaddr.extractLsb' 30 9 ∉ kernelSlots) :
    ∃ table mid pml4 t, (pmmFreeFrame table).run s = some (.freed, mid)
      ∧ pagingCreatePml4.run mid = some (pml4, t) ∧ t.globals = s.globals
      ∧ t.cr3 = s.cr3
      ∧ ∀ physAddr writable noExecute, ¬ t.Translates vaddr physAddr writable noExecute := by
  have hlayout := h.tables.layout
  have htotal := hlayout.total_le
  obtain ⟨table, htable⟩ := h.tables.slots _ hslot
  have hchild := htable kernelPml4 h.kernel
  have hreach : Reaches s.child clients.live 3 table :=
    ⟨kernelPml4, h.kernel, [vaddr.extractLsb' 39 9], by simp, by rw [walk, hchild]; rfl⟩
  have hframe := h.tables.frame table hreach
  have hroot := h.tables.frame kernelPml4 ⟨kernelPml4, h.kernel, [], Nat.zero_le _, rfl⟩
  have hne : frameOf kernelPml4 ≠ frameOf table := by
    intro heq
    have hsame : kernelPml4 = table := by
      rw [← frameAddr_frameOf hroot.aligned, heq, frameAddr_frameOf hframe.aligned]
    rw [← hsame] at hchild
    exact h.tables.child_ne_root h.kernel ⟨kernelPml4, h.kernel, [], Nat.zero_le _, rfl⟩ hchild
  -- The free clears the bit of the table, and no other.
  have honly := (BitmapOnly.afterFree hlayout.fits table).pmmOnly hlayout
  have hbits : ∀ f, f < 2 ^ 64 →
      (s.afterFree table).frameBit f = (s.frameBit f && !decide (f = frameOf table)) :=
    fun f hf => Machine.frameBit_afterFree hframe.aligned hframe.tracked hf
  have hready : PmmReady (s.afterFree table) := by
    refine ⟨by rw [honly.globals]; exact hlayout, fun f hf => ?_⟩
    rw [honly.globals] at hf
    have htracked := hlayout.tracked
    have hlast := hf.2
    rw [hbits f (by omega), h.tables.bitmap f hf, Bool.true_and, Bool.not_eq_true',
      decide_eq_false_iff_not]
    rintro rfl
    exact hframe.not_bitmap hf
  have honlyFree : ∀ f, (s.afterFree table).IsFree f ↔ f = frameOf table := by
    intro f
    rw [Machine.IsFree, honly.globals]
    constructor
    · rintro ⟨hlt, hbit⟩
      by_contra hother
      rw [hbits f (by omega), decide_eq_false hother, Bool.not_false, Bool.and_true] at hbit
      exact hfull f ⟨hlt, hbit⟩
    · rintro rfl
      refine ⟨hframe.tracked, ?_⟩
      rw [hbits _ (by have := hframe.tracked; omega), decide_eq_true rfl, Bool.not_true,
        Bool.and_false]
  have hfreeRun : (pmmFreeFrame table).run s = some (.freed, s.afterFree table) := by
    have hbranch : s.freeBranch table = .freed := by
      rw [Machine.freeBranch_of_tracked hframe.aligned hframe.tracked, hframe.allocated]
      rfl
    refine Kernel.run_eq (wp_pmmFreeFrame hlayout.fits ?_ ⟨hbranch, rfl⟩)
    exact fun c hc => ne_kpanic_of_plain (hc.tracked hlayout).plain
  have hcreate : Prog.Wp exec (fun _ c => ∀ string, c ≠ .kpanic string) pagingCreatePml4
      (s.afterFree table) fun _ t => Created (s.afterFree table) (frameOf table) t := by
    refine wp_pagingCreatePml4 hready ?_ ?_ ?_ ?_
    · exact fun c hc => ne_kpanic_of_plain (hc.tracked hready.layout).plain
    · exact fun hnone => absurd ((honlyFree _).mpr rfl) (hnone _)
    · exact fun _ _ c _ _ hc => ne_kpanic_of_plain hc.plain
    · intro f t hcreated
      obtain rfl := (honlyFree f).mp hcreated.free
      exact hcreated
  obtain ⟨pml4, t, hrun, hcreated⟩ := Kernel.returns hcreate
  have hcr3 : t.cr3 = s.cr3 := hcreated.taken.cr3.trans honly.cr3
  refine ⟨table, s.afterFree table, pml4, t, hfreeRun, hrun,
    hcreated.taken.globals.trans honly.globals, hcr3, ?_⟩
  -- The root still points to the table, which holds the entries of a root now.
  have hentry : t.entry kernelPml4 (vaddr.extractLsb' 39 9)
      = s.entry kernelPml4 (vaddr.extractLsb' 39 9) := by
    apply Machine.entry_congr hroot.aligned
    intro x hx
    have hmark := (BitmapOnly.markFrame hready.layout.fits
      (by rw [honly.globals]; exact hframe.tracked : frameOf table < _)).pmmOnly hready.layout
    rw [hcreated.taken.mem x (by rwa [hx]), hmark.mem x, honly.mem x]
    · rw [hx]
      exact hroot.not_bitmap
    · rw [honly.globals, hx]
      exact hroot.not_bitmap
  intro physAddr writable noExecute
  apply Machine.not_translates_of_absent
  · rw [hcr3, hactive]
    exact h.readable.root kernelPml4 h.kernel
  · rw [hcr3, hactive, Machine.child_congr hentry]
    exact hchild
  · have hzero := hcreated.lower _ hlower
    rw [frameAddr_frameOf hframe.aligned] at hzero
    rw [hzero]
    rfl

/-- Whatever address of a page `paging_unmap` is given, the page is gone in the active space. -/
theorem Consistent.unmap_cuts_off (h : Consistent kernelPml4 clients s)
    (hactive : s.cr3 = kernelPml4) {virtAddr vaddr : VirtAddr} (hvirt : IsPageAligned virtAddr)
    (hpage : pageOf vaddr = pageOf virtAddr) :
    ∃ t, (pagingUnmap kernelPml4 virtAddr).run s = some ((), t) ∧ t.globals = s.globals
      ∧ t.cr3 = s.cr3
      ∧ ∀ physAddr writable noExecute, ¬ t.Translates vaddr physAddr writable noExecute := by
  obtain ⟨t, hrun, -⟩ := run_pagingUnmap s (h.tables.isPageAligned h.kernel) hvirt
  have heffect := h.effect_unmap h.kernel hrun
  have hafter := heffect.consistent h Event.noConfusion
  have hout : t.cr3 = s.cr3 ∧ (t.leaf kernelPml4 (pageOf virtAddr)).getLsbD 0 = false := by
    cases heffect with
    | unmapped hlive hedited =>
        refine ⟨hedited.cr3, ?_⟩
        rw [hedited.leaf_of_sees hlive hlive ⟨rfl, Or.inl rfl⟩]
        rfl
    | unmapAbsent _ habsent => exact ⟨rfl, habsent⟩
    | unmapRefused hmisaligned => exact absurd hvirt hmisaligned
  refine ⟨t, hrun, heffect.globals, hout.1, ?_⟩
  rintro physAddr writable noExecute ⟨found, hwalk, -⟩
  rw [hout.1, hactive] at hwalk
  obtain ⟨-, hnone⟩ | ⟨hpresent, -⟩ := hafter.readable.hwWalk_cases h.kernel vaddr
  · rw [hnone] at hwalk
    cases hwalk
  · rw [hpage, hout.2] at hpresent
    cases hpresent

end

/-- Two ways to lose the window on the small machine, both without a map or unmap at an address of
it. Once clients have taken every frame, the PDPT of the window is freed, and the next PML4 is made in
its frame; the kernel's PML4 cannot be reached any more. And an address below the higher half, outside
the canonical ones, has the table indices of the first page of the window. -/
theorem run_directMapped_lost :
    LimineMemmap bootMemmap
      ∧ WindowPlaced (pmmInitGlobals bootMemmap 0xFFFF800000000000#64 bareMachine.globals)
        bootSymbols.segmentInfo
      ∧ ∃ kernelPml4 s0,
        (memoryInit bootMemmap 0xFFFF800000000000#64 bootPhysicalBase bootVirtualBase
          bootSymbols).run bareMachine = some (kernelPml4, s0)
        ∧ (∃ history clients s table mid pml4 t,
            Run kernelPml4 (fun t op => op.SparesWindow t) s0 history clients s
            ∧ (pmmFreeFrame table).run s = some (.freed, mid)
            ∧ pagingCreatePml4.run mid = some (pml4, t)
            ∧ t.cr3 = kernelPml4 ∧ ¬ t.Reachable kernelPml4)
        ∧ ∃ t, (pagingUnmap kernelPml4 0x0000800000000000#64).run s0 = some ((), t)
          ∧ t.cr3 = kernelPml4 ∧ ¬ t.Reachable 0#64 := by
  obtain ⟨boot, kernelPml4, s0, hinit, -, hboot⟩ := memoryInit_bootMemmap
  have hplaced : WindowPlaced (pmmInitGlobals bootMemmap 0xFFFF800000000000#64 bareMachine.globals)
      bootSymbols.segmentInfo := by
    rw [← hinit.pmm.globals]
    exact (bootSymbols_wellPlaced hinit.pmm).windowPlaced
  have h0 := hinit.paging.consistent
  have hcr3 : s0.cr3 = kernelPml4 := hinit.paging.cr3
  obtain ⟨entries, hglobals⟩ := hinit.paging.globals
  have hhdm : s0.globals.hhdmOffset = 0xFFFF800000000000#64 := by
    rw [hglobals]
    exact bootMemmap_hhdmOffset hinit.pmm
  have htotal : s0.globals.totalFrames = 512#64 := by
    rw [hglobals]
    exact bootMemmap_totalFrames hinit.pmm
  refine ⟨bootMemmap_ok, hplaced, kernelPml4, s0, hboot, ?_, ?_⟩
  · have hstart : Run kernelPml4 (fun t op => op.SparesWindow t) s0 [] ⟨{kernelPml4}, ∅⟩ s0 := .init
    obtain ⟨history, held, s, hrun, honly, hfull⟩ :=
      hstart.exists_exhausted h0 fun _ => trivial
    have hconsistent := hrun.consistent h0
    have hroot := hconsistent.tables.frame kernelPml4
      ⟨kernelPml4, hconsistent.kernel, [], Nat.zero_le _, rfl⟩
    have htracked := hroot.tracked
    have hvalue : (s.globals.hhdmPhysToVirt kernelPml4).toNat
        = 0xFFFF800000000000 + kernelPml4.toNat := by
      rw [honly.globals, htotal, frameOf] at htracked
      rw [honly.globals, Globals.hhdmPhysToVirt, hhdm, BitVec.toNat_add]
      simp only [BitVec.toNat_ofNat] at htracked ⊢
      omega
    have hsmall : kernelPml4.toNat < 2 ^ 21 := by
      rw [honly.globals, htotal, frameOf] at htracked
      simp only [BitVec.toNat_ofNat] at htracked
      omega
    have hslot : (s.globals.hhdmPhysToVirt kernelPml4).extractLsb' 39 9 ∈ kernelSlots := by
      change 256 ≤ (BitVec.extractLsb' 39 9 _).toNat
      rw [BitVec.extractLsb'_toNat, hvalue, Nat.shiftRight_eq_div_pow]
      omega
    have hlower : (s.globals.hhdmPhysToVirt kernelPml4).extractLsb' 30 9 ∉ kernelSlots := by
      change ¬ 256 ≤ (BitVec.extractLsb' 30 9 _).toNat
      rw [BitVec.extractLsb'_toNat, hvalue, Nat.shiftRight_eq_div_pow]
      omega
    obtain ⟨table, mid, pml4, t, hfree, hcreate, hsame, hactive, hlost⟩ :=
      hconsistent.exists_table_lost (honly.cr3.trans hcr3) hfull hslot hlower
    refine ⟨history, _, s, table, mid, pml4, t, hrun, hfree, hcreate,
      hactive.trans (honly.cr3.trans hcr3), ?_⟩
    rw [Machine.Reachable, hsame]
    exact hlost _ _ _
  · have hvirt : IsPageAligned 0x0000800000000000#64 := by decide
    have hpage : pageOf (s0.globals.hhdmPhysToVirt 0#64) = pageOf 0x0000800000000000#64 := by
      rw [Globals.hhdmPhysToVirt, hhdm]
      decide
    obtain ⟨t, hunmap, hsame, hactive, hlost⟩ := h0.unmap_cuts_off hcr3 hvirt hpage
    refine ⟨t, hunmap, hactive.trans hcr3, ?_⟩
    rw [Machine.Reachable, hsame]
    exact hlost _ _ _

end RainstormOs
