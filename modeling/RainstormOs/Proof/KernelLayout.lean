import RainstormOs.Proof.System

/-!
# The kernel's own layout

`paging_init` is asked for a window onto physical memory and for the four parts of the kernel image.
Where these lie in the higher half without running past the end of the address space, the layout it
leaves has nothing in the lower half. Where they are also disjoint, every address can be read off:
it is mapped exactly if one of them contains it, to the place and with the permissions of that one.
-/

namespace RainstormOs

open Trie (walk Reaches)

/-! ### The request -/

def InSegment (segment : VirtAddr × VirtAddr) (vaddr : VirtAddr) : Prop :=
  segment.1.toNat ≤ vaddr.toNat ∧ vaddr.toNat < segment.2.toNat

instance (segment : VirtAddr × VirtAddr) (vaddr : VirtAddr) :
    Decidable (InSegment segment vaddr) := inferInstanceAs (Decidable (_ ∧ _))

/-- The window `[g_hhdm_offset, g_hhdm_offset + pmm_get_total_size())`. -/
def Globals.InWindow (g : Globals) (vaddr : VirtAddr) : Prop :=
  g.hhdmOffset.toNat ≤ vaddr.toNat
    ∧ vaddr.toNat < g.hhdmOffset.toNat + 4096 * g.totalFrames.toNat

def KernelSegmentInfo.segments (info : KernelSegmentInfo) : List (VirtAddr × VirtAddr) :=
  [(info.limineStart, info.limineEnd), (info.textStart, info.textEnd),
    (info.rodataStart, info.rodataEnd), (info.dataStart, info.dataEnd)]

/-- Window and image lie in the higher half and end before the address space does. -/
structure HigherHalfLayout (g : Globals) (info : KernelSegmentInfo) : Prop where
  window_high : IsHigherHalf g.hhdmOffset
  window_end : g.hhdmOffset.toNat + 4096 * g.totalFrames.toNat ≤ 2 ^ 64
  segment_high : ∀ segment ∈ info.segments,
    IsHigherHalf segment.1 ∧ segment.1.toNat ≤ segment.2.toNat

/-- What `paging_init` is called with: everything is page-aligned, the segments are disjoint from
each other and from the window, and backed by addresses an entry can hold. -/
structure IsLayoutRequest (g : Globals) (kernelPhysicalBase : PhysAddr)
    (kernelVirtualBase : VirtAddr) (info : KernelSegmentInfo) : Prop where
  window_high : IsHigherHalf g.hhdmOffset
  window_aligned : IsPageAligned g.hhdmOffset
  base_aligned : IsPageAligned kernelPhysicalBase ∧ IsPageAligned kernelVirtualBase
  segment_high : ∀ segment ∈ info.segments,
    IsHigherHalf segment.1 ∧ segment.1.toNat ≤ segment.2.toNat
  segment_aligned : ∀ segment ∈ info.segments,
    IsPageAligned segment.1 ∧ IsPageAligned segment.2
  disjoint : info.segments.Pairwise fun a b => ∀ vaddr, ¬ (InSegment a vaddr ∧ InSegment b vaddr)
  window_disjoint : ∀ segment ∈ info.segments, ∀ vaddr, InSegment segment vaddr →
    ¬ g.InWindow vaddr
  target_lt : ∀ segment ∈ info.segments, ∀ vaddr, InSegment segment vaddr →
    (vaddr - kernelVirtualBase + kernelPhysicalBase).toNat < 2 ^ 52

/-- Moreover the window ends before the address space does. -/
structure WellPlaced (g : Globals) (kernelPhysicalBase : PhysAddr) (kernelVirtualBase : VirtAddr)
    (info : KernelSegmentInfo) : Prop
    extends IsLayoutRequest g kernelPhysicalBase kernelVirtualBase info where
  window_end : g.hhdmOffset.toNat + 4096 * g.totalFrames.toNat ≤ 2 ^ 64

theorem WellPlaced.higherHalf {g : Globals} {kernelPhysicalBase : PhysAddr}
    {kernelVirtualBase : VirtAddr} {info : KernelSegmentInfo}
    (h : WellPlaced g kernelPhysicalBase kernelVirtualBase info) : HigherHalfLayout g info :=
  ⟨h.window_high, h.window_end, h.segment_high⟩

/-! ### One range -/

theorem toNat_add_pages {vaddr : VirtAddr} {i : Nat} (hlt : vaddr.toNat + 4096 * i < 2 ^ 64) :
    (vaddr + BitVec.ofNat 64 i * pageSize).toNat = vaddr.toNat + 4096 * i := by
  have hoffset : (BitVec.ofNat 64 i * pageSize).toNat = i * 4096 := toNat_frameAddr (by omega)
  rw [BitVec.toNat_add, hoffset]
  omega

theorem toNat_pageOf (vaddr : VirtAddr) : (pageOf vaddr).toNat = vaddr.toNat / 4096 % 2 ^ 36 := by
  rw [pageOf, BitVec.extractLsb'_toNat, Nat.shiftRight_eq_div_pow]

theorem isKernel_pageOf_iff {vaddr : VirtAddr} (hcanonical : IsCanonical vaddr) :
    (pageOf vaddr).IsKernel ↔ IsHigherHalf vaddr := by
  have := vaddr.isLt
  rw [Page.IsKernel, toNat_pageOf]
  unfold IsHigherHalf
  unfold IsCanonical at hcanonical
  omega

namespace RangeMapping

def Contains (range : RangeMapping) (vaddr : VirtAddr) : Prop :=
  range.virtAddr.toNat ≤ vaddr.toNat
    ∧ vaddr.toNat < range.virtAddr.toNat + 4096 * (pageCount range.size).toNat

/-- The range lies in the higher half and does not wrap around. -/
structure Fits (range : RangeMapping) : Prop where
  high : IsHigherHalf range.virtAddr
  end_le : range.virtAddr.toNat + 4096 * (pageCount range.size).toNat ≤ 2 ^ 64

def entryAt (range : RangeMapping) (vaddr : VirtAddr) : BitVec 64 :=
  (range.physAddr + (frameAddr (frameOf vaddr) - range.virtAddr)) ||| range.flags

variable {range : RangeMapping} {leaf : Page → BitVec 64} {page : Page} {vaddr : VirtAddr}

theorem mapFirst_of_forall_ne {count : Nat}
    (hne : ∀ i, i < count → page ≠ pageOf (range.virtAddr + BitVec.ofNat 64 i * pageSize)) :
    range.mapFirst leaf count page = leaf page := by
  induction count with
  | zero => rfl
  | succ count ih =>
      rw [mapFirst, Function.update_of_ne (hne count (Nat.lt_succ_self _))]
      exact ih fun i hi => hne i (by omega)

theorem apply_of_not_mem (hpage : page ∉ range.pages) : range.apply leaf page = leaf page := by
  rw [apply]
  split
  · next haligned =>
      refine mapFirst_of_forall_ne fun i hi heq => hpage ?_
      rw [pages, if_pos haligned, Finset.mem_image]
      exact ⟨i, Finset.mem_range.mpr hi, heq.symm⟩
  · rfl

theorem Fits.toNat_add (h : range.Fits) {i : Nat} (hi : i < (pageCount range.size).toNat) :
    (range.virtAddr + BitVec.ofNat 64 i * pageSize).toNat
      = range.virtAddr.toNat + 4096 * i := by
  have hend := h.end_le
  exact toNat_add_pages (by omega)

theorem Fits.isKernel (h : range.Fits) (hpage : page ∈ range.pages) : page.IsKernel := by
  rw [pages] at hpage
  split at hpage
  · obtain ⟨i, hi, rfl⟩ := Finset.mem_image.mp hpage
    have hval := h.toNat_add (Finset.mem_range.mp hi)
    have hhigh : 2 ^ 64 - 2 ^ 47 ≤ range.virtAddr.toNat := h.high
    have hhigher : IsHigherHalf (range.virtAddr + BitVec.ofNat 64 i * pageSize) := by
      unfold IsHigherHalf
      omega
    exact (isKernel_pageOf_iff (Or.inr hhigher)).mpr hhigher
  · exact absurd hpage (Finset.notMem_empty page)

theorem Fits.pageOf_mem_iff (h : range.Fits) (haligned : range.IsAligned)
    (hcanonical : IsCanonical vaddr) : pageOf vaddr ∈ range.pages ↔ range.Contains vaddr := by
  have hhigh : 2 ^ 64 - 2 ^ 47 ≤ range.virtAddr.toNat := h.high
  have hend := h.end_le
  have hstart := (isPageAligned_iff _).mp haligned.1
  rw [pages, if_pos haligned, Finset.mem_image]
  constructor
  · rintro ⟨i, hi, heq⟩
    have hi := Finset.mem_range.mp hi
    have hnum := congrArg BitVec.toNat heq
    rw [toNat_pageOf, toNat_pageOf, h.toNat_add hi] at hnum
    unfold IsCanonical at hcanonical
    have hlt := vaddr.isLt
    constructor <;> omega
  · rintro ⟨hlo, hhi⟩
    have hi : (vaddr.toNat - range.virtAddr.toNat) / 4096 < (pageCount range.size).toNat := by omega
    refine ⟨_, Finset.mem_range.mpr hi, BitVec.eq_of_toNat_eq ?_⟩
    rw [toNat_pageOf, toNat_pageOf, h.toNat_add hi]
    congr 1
    omega

theorem Fits.apply_of_contains (h : range.Fits) (haligned : range.IsAligned)
    (hcontains : range.Contains vaddr) : range.apply leaf (pageOf vaddr) = range.entryAt vaddr := by
  obtain ⟨hlo, hhi⟩ := hcontains
  have hhigh : 2 ^ 64 - 2 ^ 47 ≤ range.virtAddr.toNat := h.high
  have hend := h.end_le
  have hstart := (isPageAligned_iff _).mp haligned.1
  rw [apply, if_pos haligned]
  -- The round of the loop that maps this page is the only one to do so.
  have hround : ∀ count, count ≤ (pageCount range.size).toNat →
      (vaddr.toNat - range.virtAddr.toNat) / 4096 < count →
      range.mapFirst leaf count (pageOf vaddr) = range.entryAt vaddr := by
    intro count hcount hi
    induction count with
    | zero => exact absurd hi (Nat.not_lt_zero _)
    | succ count ih =>
        have hval := h.toNat_add (show count < (pageCount range.size).toNat by omega)
        by_cases hlast : (vaddr.toNat - range.virtAddr.toNat) / 4096 = count
        · have hpage : pageOf vaddr = pageOf (range.virtAddr + BitVec.ofNat 64 count * pageSize) := by
            apply BitVec.eq_of_toNat_eq
            rw [toNat_pageOf, toNat_pageOf, hval]
            congr 1
            omega
          have hoffset : BitVec.ofNat 64 count * pageSize
              = frameAddr (frameOf vaddr) - range.virtAddr := by
            rw [eq_sub_iff_add_eq']
            apply BitVec.eq_of_toNat_eq
            rw [hval, toNat_frameAddr (frameOf_lt vaddr), frameOf]
            omega
          rw [mapFirst, hpage, Function.update_self, entryAt, hoffset]
        · rw [mapFirst, Function.update_of_ne]
          · exact ih (by omega) (by omega)
          · intro heq
            have hnum := congrArg BitVec.toNat heq
            rw [toNat_pageOf, toNat_pageOf, hval] at hnum
            have hlt := vaddr.isLt
            omega
  exact hround _ (Nat.le_refl _) (by omega)

theorem mapFirst_present (hflags : range.flags.getLsbD 0 = true) {count i : Nat} (hi : i < count)
    (hpage : pageOf (range.virtAddr + BitVec.ofNat 64 i * pageSize) = page) :
    (range.mapFirst leaf count page).getLsbD 0 = true := by
  induction count with
  | zero => exact absurd hi (Nat.not_lt_zero i)
  | succ count ih =>
      rw [mapFirst, Function.update_apply]
      split
      · rw [BitVec.getLsbD_or, hflags, Bool.or_true]
      · next hne =>
          refine ih (Nat.lt_of_le_of_ne (Nat.le_of_lt_succ hi) ?_)
          rintro rfl
          exact hne hpage.symm

theorem mapFirst_getLsbD (haligned : range.IsAligned) {k : Nat} (hk : k < 12)
    (hflags : range.flags.getLsbD k = false) (hleaf : (leaf page).getLsbD k = false)
    (count : Nat) : (range.mapFirst leaf count page).getLsbD k = false := by
  induction count with
  | zero => exact hleaf
  | succ count ih =>
      rw [mapFirst, Function.update_apply]
      split
      · have hphys := (isPageAligned_iff _).mp haligned.2
        have htarget : IsPageAligned (range.physAddr + BitVec.ofNat 64 count * pageSize) := by
          rw [isPageAligned_iff, BitVec.toNat_add, BitVec.toNat_mul]
          change (_ + _ * 4096 % 2 ^ 64) % 2 ^ 64 % 4096 = 0
          omega
        rw [BitVec.getLsbD_or, getLsbD_of_isPageAligned htarget hk, hflags, Bool.false_or]
      · exact ih

end RangeMapping

/-! ### Several ranges -/

/-- Whatever else overlaps it, a page of one of the ranges ends up mapped. -/
theorem layoutOf_present {ranges : List RangeMapping}
    (hflags : ∀ range ∈ ranges, range.flags.getLsbD 0 = true) {page : Page}
    (hpage : ∃ range ∈ ranges, page ∈ range.pages) :
    (layoutOf ranges page).getLsbD 0 = true := by
  induction ranges using List.reverseRecOn with
  | nil =>
      obtain ⟨range, hrange, -⟩ := hpage
      cases hrange
  | append_singleton ranges last ih =>
      rw [layoutOf, List.foldl_append]
      change (last.apply (layoutOf ranges) page).getLsbD 0 = true
      by_cases hlast : page ∈ last.pages
      · rw [RangeMapping.pages] at hlast
        split at hlast
        · next haligned =>
            obtain ⟨i, hi, heq⟩ := Finset.mem_image.mp hlast
            rw [RangeMapping.apply, if_pos haligned]
            exact RangeMapping.mapFirst_present (hflags last (by simp)) (Finset.mem_range.mp hi) heq
        · exact absurd hlast (Finset.notMem_empty page)
      · rw [RangeMapping.apply_of_not_mem hlast]
        refine ih (fun range hrange => hflags range (by simp [hrange])) ?_
        obtain ⟨range, hrange, hmem⟩ := hpage
        rw [List.mem_append, List.mem_singleton] at hrange
        obtain hrange | rfl := hrange
        · exact ⟨range, hrange, hmem⟩
        · exact absurd hmem hlast

theorem layoutOf_getLsbD {ranges : List RangeMapping} {k : Nat} (hk : k < 12)
    (hflags : ∀ range ∈ ranges, range.flags.getLsbD k = false) (page : Page) :
    (layoutOf ranges page).getLsbD k = false := by
  induction ranges using List.reverseRecOn with
  | nil => exact BitVec.getLsbD_zero
  | append_singleton ranges last ih =>
      have hrest := ih fun range hrange => hflags range (by simp [hrange])
      rw [layoutOf, List.foldl_append]
      change (last.apply (layoutOf ranges) page).getLsbD k = false
      rw [RangeMapping.apply]
      split
      · next haligned =>
          exact RangeMapping.mapFirst_getLsbD haligned hk (hflags last (by simp)) hrest _
      · exact hrest

theorem layoutOf_of_forall_not_mem {ranges : List RangeMapping} {page : Page}
    (hout : ∀ range ∈ ranges, page ∉ range.pages) : layoutOf ranges page = 0#64 := by
  induction ranges using List.reverseRecOn with
  | nil => rfl
  | append_singleton ranges last ih =>
      rw [layoutOf, List.foldl_append]
      change last.apply (layoutOf ranges) page = 0#64
      rw [RangeMapping.apply_of_not_mem (hout last (by simp))]
      exact ih fun range hrange => hout range (by simp [hrange])

theorem layoutOf_of_mem {ranges : List RangeMapping} {range : RangeMapping} {page : Page}
    {word : BitVec 64} (hmem : range ∈ ranges) (hword : ∀ leaf, range.apply leaf page = word)
    (hother : ∀ range' ∈ ranges, range' ≠ range → page ∉ range'.pages) :
    layoutOf ranges page = word := by
  induction ranges using List.reverseRecOn with
  | nil => cases hmem
  | append_singleton ranges last ih =>
      rw [layoutOf, List.foldl_append]
      change last.apply (layoutOf ranges) page = word
      by_cases heq : last = range
      · rw [heq, hword]
      · rw [RangeMapping.apply_of_not_mem (hother last (by simp) heq)]
        refine ih ?_ fun range' hrange' => hother range' (by simp [hrange'])
        rw [List.mem_append, List.mem_singleton] at hmem
        exact hmem.resolve_right fun h => heq h.symm

/-! ### The five ranges of `paging_init` -/

section

variable {g : Globals} {kernelPhysicalBase : PhysAddr} {kernelVirtualBase : VirtAddr}
  {info : KernelSegmentInfo} {range : RangeMapping} {vaddr : VirtAddr}

theorem mem_initRanges (hrange : range ∈ initRanges g kernelPhysicalBase kernelVirtualBase info) :
    range = windowRange g
      ∨ ∃ segment ∈ info.segments, range
          = segmentRange kernelPhysicalBase kernelVirtualBase segment.1 segment.2 range.flags := by
  simp only [initRanges, List.mem_cons, List.not_mem_nil, or_false] at hrange
  obtain rfl | rfl | rfl | rfl | rfl := hrange
  · exact Or.inl rfl
  · exact Or.inr ⟨(info.limineStart, info.limineEnd), by simp [KernelSegmentInfo.segments], rfl⟩
  · exact Or.inr ⟨(info.textStart, info.textEnd), by simp [KernelSegmentInfo.segments], rfl⟩
  · exact Or.inr ⟨(info.rodataStart, info.rodataEnd), by simp [KernelSegmentInfo.segments], rfl⟩
  · exact Or.inr ⟨(info.dataStart, info.dataEnd), by simp [KernelSegmentInfo.segments], rfl⟩

theorem exists_segmentRange_mem (g : Globals) (kernelPhysicalBase : PhysAddr)
    (kernelVirtualBase : VirtAddr) {segment : VirtAddr × VirtAddr}
    (hsegment : segment ∈ info.segments) :
    ∃ flags, segmentRange kernelPhysicalBase kernelVirtualBase segment.1 segment.2 flags
      ∈ initRanges g kernelPhysicalBase kernelVirtualBase info := by
  simp only [KernelSegmentInfo.segments, List.mem_cons, List.not_mem_nil, or_false] at hsegment
  obtain rfl | rfl | rfl | rfl := hsegment
  · exact ⟨pageGlobal ||| pageNoExecute ||| pagePresent, by simp [initRanges]⟩
  · exact ⟨pageGlobal ||| pagePresent, by simp [initRanges]⟩
  · exact ⟨pageGlobal ||| pageNoExecute ||| pagePresent, by simp [initRanges]⟩
  · exact ⟨pageGlobal ||| pageNoExecute ||| pageWritable ||| pagePresent, by simp [initRanges]⟩

/-- No range of `paging_init` is open to users or both writable and executable. -/
structure IsKernelFlags (flags : BitVec 64) : Prop where
  plain : flags &&& physAddrMask = 0#64
  present : flags.getLsbD 0 = true
  user : flags.getLsbD 2 = false
  global : flags.getLsbD 8 = true
  exclusive : flags.getLsbD 1 = false ∨ flags.getLsbD 63 = true

theorem isKernelFlags_of_mem_initRanges
    (hrange : range ∈ initRanges g kernelPhysicalBase kernelVirtualBase info) :
    IsKernelFlags range.flags := by
  simp only [initRanges, List.mem_cons, List.not_mem_nil, or_false] at hrange
  obtain rfl | rfl | rfl | rfl | rfl := hrange
  all_goals constructor <;> simp only [windowRange, segmentRange] <;> decide

theorem toNat_pageCount_window (htotal : g.totalFrames.toNat ≤ 2 ^ 40) :
    (pageCount (windowRange g).size).toNat = g.totalFrames.toNat := by
  have hsize : (windowRange g).size.toNat = g.totalFrames.toNat * 4096 :=
    toNat_mul_pageSize (by omega)
  rw [toNat_pageCount (by omega), hsize]
  omega

theorem contains_windowRange_iff (htotal : g.totalFrames.toNat ≤ 2 ^ 40) :
    (windowRange g).Contains vaddr ↔ g.InWindow vaddr := by
  rw [RangeMapping.Contains, toNat_pageCount_window htotal]
  rfl

theorem windowRange_target_lt (htotal : g.totalFrames.toNat ≤ 2 ^ 40) (hin : g.InWindow vaddr) :
    ((windowRange g).physAddr + (vaddr - (windowRange g).virtAddr)).toNat < 2 ^ 52 := by
  obtain ⟨hlo, hhi⟩ := hin
  have hlt := vaddr.isLt
  change (0#64 + (vaddr - g.hhdmOffset)).toNat < 2 ^ 52
  rw [BitVec.zero_add, BitVec.toNat_sub]
  omega

theorem toNat_pageCount_segment {segment : VirtAddr × VirtAddr} (hhigh : IsHigherHalf segment.1)
    (hle : segment.1.toNat ≤ segment.2.toNat) :
    (pageCount (segment.2 - segment.1)).toNat
      = (segment.2.toNat - segment.1.toNat + 4095) / 4096 := by
  have hlt := segment.2.isLt
  unfold IsHigherHalf at hhigh
  have hsize : (segment.2 - segment.1).toNat = segment.2.toNat - segment.1.toNat := by
    rw [BitVec.toNat_sub]
    omega
  rw [toNat_pageCount (by omega), hsize]

theorem contains_segmentRange_iff {segment : VirtAddr × VirtAddr} {flags : BitVec 64}
    (hhigh : IsHigherHalf segment.1) (hle : segment.1.toNat ≤ segment.2.toNat)
    (haligned : IsPageAligned segment.1 ∧ IsPageAligned segment.2) :
    (segmentRange kernelPhysicalBase kernelVirtualBase segment.1 segment.2 flags).Contains vaddr
      ↔ InSegment segment vaddr := by
  rw [isPageAligned_iff, isPageAligned_iff] at haligned
  change segment.1.toNat ≤ vaddr.toNat
      ∧ vaddr.toNat < segment.1.toNat + 4096 * (pageCount (segment.2 - segment.1)).toNat ↔ _
  rw [toNat_pageCount_segment hhigh hle, InSegment]
  omega

theorem HigherHalfLayout.fits (h : HigherHalfLayout g info)
    (htotal : g.totalFrames.toNat ≤ 2 ^ 40)
    (hrange : range ∈ initRanges g kernelPhysicalBase kernelVirtualBase info)
    (haligned : range.IsAligned) : range.Fits := by
  obtain rfl | ⟨segment, hsegment, hrange⟩ := mem_initRanges hrange
  · refine ⟨h.window_high, ?_⟩
    rw [toNat_pageCount_window htotal]
    exact h.window_end
  · obtain ⟨hhigh, hle⟩ := h.segment_high segment hsegment
    have hstart := (isPageAligned_iff _).mp haligned.1
    have hlt := segment.2.isLt
    rw [hrange] at hstart ⊢
    refine ⟨hhigh, ?_⟩
    change segment.1.toNat % 4096 = 0 at hstart
    change segment.1.toNat + 4096 * (pageCount (segment.2 - segment.1)).toNat ≤ 2 ^ 64
    rw [toNat_pageCount_segment hhigh hle]
    omega

/-- **Nothing in the lower half is mapped.** -/
theorem HigherHalfLayout.layoutOf_eq_zero (h : HigherHalfLayout g info)
    (htotal : g.totalFrames.toNat ≤ 2 ^ 40) {page : Page} (hpage : ¬ page.IsKernel) :
    layoutOf (initRanges g kernelPhysicalBase kernelVirtualBase info) page = 0#64 := by
  refine layoutOf_of_forall_not_mem fun range hrange hmem => hpage ?_
  by_cases haligned : range.IsAligned
  · exact (h.fits htotal hrange haligned).isKernel hmem
  · rw [RangeMapping.pages, if_neg haligned] at hmem
    exact absurd hmem (Finset.notMem_empty page)

namespace WellPlaced

theorem isAligned (h : WellPlaced g kernelPhysicalBase kernelVirtualBase info)
    (hrange : range ∈ initRanges g kernelPhysicalBase kernelVirtualBase info) :
    range.IsAligned := by
  obtain rfl | ⟨segment, hsegment, hrange⟩ := mem_initRanges hrange
  · exact ⟨h.window_aligned, (by decide : IsPageAligned 0#64)⟩
  · rw [hrange]
    refine ⟨(h.segment_aligned segment hsegment).1, ?_⟩
    have hstart := (isPageAligned_iff _).mp (h.segment_aligned segment hsegment).1
    have hbase := (isPageAligned_iff _).mp h.base_aligned.1
    have hbase' := (isPageAligned_iff _).mp h.base_aligned.2
    change IsPageAligned (segment.1 - kernelVirtualBase + kernelPhysicalBase)
    rw [isPageAligned_iff, BitVec.toNat_add, BitVec.toNat_sub]
    omega

theorem pairwise (h : WellPlaced g kernelPhysicalBase kernelVirtualBase info)
    (htotal : g.totalFrames.toNat ≤ 2 ^ 40) :
    (initRanges g kernelPhysicalBase kernelVirtualBase info).Pairwise
      fun a b => ∀ vaddr, ¬ (a.Contains vaddr ∧ b.Contains vaddr) := by
  have hsegment : ∀ segment ∈ info.segments, ∀ flags vaddr,
      (segmentRange kernelPhysicalBase kernelVirtualBase segment.1 segment.2 flags).Contains vaddr
        ↔ InSegment segment vaddr := fun segment hmem flags vaddr =>
    contains_segmentRange_iff (h.segment_high segment hmem).1 (h.segment_high segment hmem).2
      (h.segment_aligned segment hmem)
  have hwindow := h.window_disjoint
  have hdisjoint := h.disjoint
  simp only [KernelSegmentInfo.segments, List.forall_mem_cons, List.pairwise_cons,
    List.not_mem_nil, false_implies, implies_true, List.Pairwise.nil, and_true]
    at hsegment hwindow hdisjoint
  simp only [initRanges, List.pairwise_cons, List.forall_mem_cons, List.not_mem_nil, false_implies,
    implies_true, List.Pairwise.nil, and_true, contains_windowRange_iff htotal, hsegment]
  refine ⟨⟨?_, ?_, ?_, ?_⟩, hdisjoint⟩
  · exact fun vaddr hboth => hwindow.1 vaddr hboth.2 hboth.1
  · exact fun vaddr hboth => hwindow.2.1 vaddr hboth.2 hboth.1
  · exact fun vaddr hboth => hwindow.2.2.1 vaddr hboth.2 hboth.1
  · exact fun vaddr hboth => hwindow.2.2.2 vaddr hboth.2 hboth.1

theorem layoutOf_eq_entryAt (h : WellPlaced g kernelPhysicalBase kernelVirtualBase info)
    (htotal : g.totalFrames.toNat ≤ 2 ^ 40)
    (hrange : range ∈ initRanges g kernelPhysicalBase kernelVirtualBase info)
    (hcontains : range.Contains vaddr) :
    layoutOf (initRanges g kernelPhysicalBase kernelVirtualBase info) (pageOf vaddr)
      = range.entryAt vaddr := by
  have hfits := h.higherHalf.fits htotal hrange (h.isAligned hrange)
  have hhigh : IsHigherHalf vaddr := by
    have hstart : 2 ^ 64 - 2 ^ 47 ≤ range.virtAddr.toNat := hfits.high
    exact Nat.le_trans hstart hcontains.1
  refine layoutOf_of_mem hrange (fun leaf => hfits.apply_of_contains (h.isAligned hrange) hcontains)
    fun range' hrange' hne hmem => ?_
  rw [(h.higherHalf.fits htotal hrange' (h.isAligned hrange')).pageOf_mem_iff (h.isAligned hrange')
    (Or.inr hhigh)] at hmem
  have hsymm : Std.Symm fun a b : RangeMapping =>
      ∀ vaddr, ¬ (a.Contains vaddr ∧ b.Contains vaddr) :=
    ⟨fun a b hab vaddr hboth => hab vaddr hboth.symm⟩
  exact (h.pairwise htotal).forall hrange' hrange hne vaddr ⟨hmem, hcontains⟩

theorem layoutOf_eq_zero_of_not_contains
    (h : WellPlaced g kernelPhysicalBase kernelVirtualBase info)
    (htotal : g.totalFrames.toNat ≤ 2 ^ 40) (hcanonical : IsCanonical vaddr)
    (hout : ∀ range ∈ initRanges g kernelPhysicalBase kernelVirtualBase info,
      ¬ range.Contains vaddr) :
    layoutOf (initRanges g kernelPhysicalBase kernelVirtualBase info) (pageOf vaddr) = 0#64 := by
  refine layoutOf_of_forall_not_mem fun range hrange hmem => hout range hrange ?_
  exact ((h.higherHalf.fits htotal hrange (h.isAligned hrange)).pageOf_mem_iff (h.isAligned hrange)
    hcanonical).mp hmem

theorem exists_contains_iff (h : WellPlaced g kernelPhysicalBase kernelVirtualBase info)
    (htotal : g.totalFrames.toNat ≤ 2 ^ 40) :
    (∃ range ∈ initRanges g kernelPhysicalBase kernelVirtualBase info, range.Contains vaddr) ↔
      g.InWindow vaddr ∨ ∃ segment ∈ info.segments, InSegment segment vaddr := by
  have hiff : ∀ segment ∈ info.segments, ∀ flags,
      (segmentRange kernelPhysicalBase kernelVirtualBase segment.1 segment.2 flags).Contains vaddr
        ↔ InSegment segment vaddr := fun segment hmem flags =>
    contains_segmentRange_iff (h.segment_high segment hmem).1 (h.segment_high segment hmem).2
      (h.segment_aligned segment hmem)
  constructor
  · rintro ⟨range, hrange, hcontains⟩
    obtain rfl | ⟨segment, hsegment, hrange⟩ := mem_initRanges hrange
    · exact Or.inl ((contains_windowRange_iff htotal).mp hcontains)
    · rw [hrange, hiff segment hsegment] at hcontains
      exact Or.inr ⟨segment, hsegment, hcontains⟩
  · rintro (hin | ⟨segment, hsegment, hin⟩)
    · exact ⟨windowRange g, by simp [initRanges], (contains_windowRange_iff htotal).mpr hin⟩
    · obtain ⟨flags, hrange⟩ := exists_segmentRange_mem g kernelPhysicalBase kernelVirtualBase
        hsegment
      exact ⟨_, hrange, (hiff segment hsegment flags).mpr hin⟩

theorem range_target_lt (h : WellPlaced g kernelPhysicalBase kernelVirtualBase info)
    (htotal : g.totalFrames.toNat ≤ 2 ^ 40)
    (hrange : range ∈ initRanges g kernelPhysicalBase kernelVirtualBase info)
    (hcontains : range.Contains vaddr) :
    (range.physAddr + (vaddr - range.virtAddr)).toNat < 2 ^ 52 := by
  obtain rfl | ⟨segment, hsegment, hrange⟩ := mem_initRanges hrange
  · exact windowRange_target_lt htotal ((contains_windowRange_iff htotal).mp hcontains)
  · obtain ⟨hhigh, hle⟩ := h.segment_high segment hsegment
    have htarget := h.target_lt segment hsegment vaddr
    rw [hrange, contains_segmentRange_iff hhigh hle (h.segment_aligned segment hsegment)]
      at hcontains
    have heq : range.physAddr + (vaddr - range.virtAddr)
        = vaddr - kernelVirtualBase + kernelPhysicalBase := by
      rw [hrange]
      change segment.1 - kernelVirtualBase + kernelPhysicalBase + (vaddr - segment.1) = _
      grind
    rw [heq]
    exact htarget hcontains

end WellPlaced

end

/-! ### Translation in the finished layout -/

theorem frameAddr_frameOf_add (vaddr : VirtAddr) :
    frameAddr (frameOf vaddr) + BitVec.ofNat 64 (vaddr.toNat % 4096) = vaddr := by
  apply BitVec.eq_of_toNat_eq
  have hlt := vaddr.isLt
  rw [BitVec.toNat_add, toNat_frameAddr (frameOf_lt vaddr), BitVec.toNat_ofNat, frameOf]
  omega

/-- The target of a page is aligned and small if that of one of its addresses is small. -/
theorem RangeMapping.target_and_physAddrMask {range : RangeMapping} {vaddr : VirtAddr}
    (haligned : range.IsAligned)
    (htarget : (range.physAddr + (vaddr - range.virtAddr)).toNat < 2 ^ 52) :
    (range.physAddr + (frameAddr (frameOf vaddr) - range.virtAddr)) &&& physAddrMask
      = range.physAddr + (frameAddr (frameOf vaddr) - range.virtAddr) := by
  have hvirt := (isPageAligned_iff _).mp haligned.1
  have hphys := (isPageAligned_iff _).mp haligned.2
  have hpage := (isPageAligned_iff _).mp (isPageAligned_frameAddr (frameOf_lt vaddr))
  have hbase : IsPageAligned (range.physAddr + (frameAddr (frameOf vaddr) - range.virtAddr)) := by
    rw [isPageAligned_iff, BitVec.toNat_add, BitVec.toNat_sub]
    omega
  have hoffset : (BitVec.ofNat 64 (vaddr.toNat % 4096)).toNat < 4096 := by
    rw [BitVec.toNat_ofNat]
    omega
  have hsplit : range.physAddr + (vaddr - range.virtAddr)
      = range.physAddr + (frameAddr (frameOf vaddr) - range.virtAddr)
        + BitVec.ofNat 64 (vaddr.toNat % 4096) := by
    have hself := frameAddr_frameOf_add vaddr
    grind
  rw [hsplit, toNat_add_of_aligned hbase hoffset] at htarget
  exact and_physAddrMask_eq_self_iff.mpr ⟨hbase, by omega⟩

/-- The address translates, with these permissions, in the space that is active. -/
def Machine.Translates (s : Machine) (vaddr : VirtAddr) (physAddr : PhysAddr)
    (writable noExecute : Bool) : Prop :=
  ∃ found, s.hwWalk s.cr3 vaddr = some found ∧ found.physOf vaddr = physAddr
    ∧ found.writable = writable ∧ found.noExecute = noExecute

theorem Readable.translates {live : Set PhysAddr} {s : Machine} (h : Readable live s)
    (hactive : s.cr3 ∈ live) {range : RangeMapping} {vaddr : VirtAddr}
    (haligned : range.IsAligned) (hflags : IsKernelFlags range.flags)
    (htarget : (range.physAddr + (vaddr - range.virtAddr)).toNat < 2 ^ 52)
    (hleaf : s.leaf s.cr3 (pageOf vaddr) = range.entryAt vaddr) :
    s.Translates vaddr (range.physAddr + (vaddr - range.virtAddr)) (range.flags.getLsbD 1)
      (range.flags.getLsbD 63) := by
  have haddr := RangeMapping.target_and_physAddrMask haligned htarget
  have hpresent : (s.leaf s.cr3 (pageOf vaddr)).getLsbD 0 = true := by
    rw [hleaf, RangeMapping.entryAt,
      getLsbD_or_flags haddr hflags.plain (by decide) (Or.inl (by decide))]
    exact hflags.present
  obtain ⟨habsent, -⟩ | ⟨-, user, hwalk, -⟩ := h.hwWalk_cases hactive vaddr
  · rw [hpresent] at habsent
    cases habsent
  · rw [hleaf, RangeMapping.entryAt, leafPage_or haddr hflags.plain] at hwalk
    refine ⟨_, hwalk, ?_, rfl, rfl⟩
    have hself := frameAddr_frameOf_add vaddr
    change range.physAddr + (frameAddr (frameOf vaddr) - range.virtAddr)
        + BitVec.ofNat 64 (vaddr.toNat % 4096) = _
    grind

theorem Machine.Translates.window {s : Machine} {g : Globals} {vaddr : VirtAddr}
    (h : s.Translates vaddr ((windowRange g).physAddr + (vaddr - (windowRange g).virtAddr))
      ((windowRange g).flags.getLsbD 1) ((windowRange g).flags.getLsbD 63)) :
    s.Translates vaddr (vaddr - g.hhdmOffset) true true := by
  obtain ⟨found, hfound, hphys, hwrite, hexec⟩ := h
  refine ⟨found, hfound, hphys.trans (BitVec.zero_add _), hwrite.trans ?_, hexec.trans ?_⟩
  · simp only [windowRange]
    decide
  · simp only [windowRange]
    decide

/-- The layout `paging_init` is there to build. -/
structure KernelLayout (g : Globals) (kernelPhysicalBase : PhysAddr) (kernelVirtualBase : VirtAddr)
    (info : KernelSegmentInfo) (t : Machine) : Prop where
  mapped_iff : ∀ vaddr, IsCanonical vaddr → ((t.hwWalk t.cr3 vaddr).isSome = true ↔
    g.InWindow vaddr ∨ ∃ segment ∈ info.segments, InSegment segment vaddr)
  window : ∀ vaddr, g.InWindow vaddr → t.Translates vaddr (vaddr - g.hhdmOffset) true true
  limine : ∀ vaddr, InSegment (info.limineStart, info.limineEnd) vaddr →
    t.Translates vaddr (vaddr - kernelVirtualBase + kernelPhysicalBase) false true
  text : ∀ vaddr, InSegment (info.textStart, info.textEnd) vaddr →
    t.Translates vaddr (vaddr - kernelVirtualBase + kernelPhysicalBase) false false
  rodata : ∀ vaddr, InSegment (info.rodataStart, info.rodataEnd) vaddr →
    t.Translates vaddr (vaddr - kernelVirtualBase + kernelPhysicalBase) false true
  data : ∀ vaddr, InSegment (info.dataStart, info.dataEnd) vaddr →
    t.Translates vaddr (vaddr - kernelVirtualBase + kernelPhysicalBase) true true
  exclusive : ∀ vaddr found, IsCanonical vaddr → t.hwWalk t.cr3 vaddr = some found →
    ¬ (found.writable = true ∧ found.noExecute = false)
  lower : ∀ vaddr, vaddr.toNat < 2 ^ 47 → t.hwWalk t.cr3 vaddr = none

section

variable {kernelPhysicalBase : PhysAddr} {kernelVirtualBase : VirtAddr}
  {info : KernelSegmentInfo} {s t : Machine} {pml4 : PhysAddr}

theorem PagingInitialised.readable {ranges : List RangeMapping}
    (h : PagingInitialised ranges s pml4 t) : Readable {pml4} t :=
  h.tables.readable h.nxe

theorem PagingInitialised.translates
    (h : PagingInitialised (initRanges s.globals kernelPhysicalBase kernelVirtualBase info) s pml4 t)
    (hplaced : WellPlaced s.globals kernelPhysicalBase kernelVirtualBase info)
    (htotal : s.globals.totalFrames.toNat ≤ 2 ^ 40) {range : RangeMapping} {vaddr : VirtAddr}
    (hrange : range ∈ initRanges s.globals kernelPhysicalBase kernelVirtualBase info)
    (hcontains : range.Contains vaddr) :
    t.Translates vaddr (range.physAddr + (vaddr - range.virtAddr)) (range.flags.getLsbD 1)
      (range.flags.getLsbD 63) := by
  refine h.readable.translates h.cr3 (hplaced.isAligned hrange)
    (isKernelFlags_of_mem_initRanges hrange) (hplaced.range_target_lt htotal hrange hcontains) ?_
  rw [h.cr3, h.leaf]
  exact hplaced.layoutOf_eq_entryAt htotal hrange hcontains

theorem PagingInitialised.hwWalk_eq_none {ranges : List RangeMapping}
    (h : PagingInitialised ranges s pml4 t) {vaddr : VirtAddr}
    (hzero : layoutOf ranges (pageOf vaddr) = 0#64) : t.hwWalk t.cr3 vaddr = none := by
  obtain ⟨-, hwalk⟩ | ⟨hpresent, -⟩ := h.readable.hwWalk_cases rfl vaddr
  · rw [h.cr3]
    exact hwalk
  · rw [h.leaf, hzero, BitVec.getLsbD_zero] at hpresent
    cases hpresent

theorem WellPlaced.segment_translates
    (hplaced : WellPlaced s.globals kernelPhysicalBase kernelVirtualBase info)
    (h : PagingInitialised (initRanges s.globals kernelPhysicalBase kernelVirtualBase info) s pml4 t)
    (htotal : s.globals.totalFrames.toNat ≤ 2 ^ 40) (flags : BitVec 64)
    {segment : VirtAddr × VirtAddr} (hsegment : segment ∈ info.segments)
    (hrange : segmentRange kernelPhysicalBase kernelVirtualBase segment.1 segment.2 flags
      ∈ initRanges s.globals kernelPhysicalBase kernelVirtualBase info) {vaddr : VirtAddr}
    (hin : InSegment segment vaddr) :
    t.Translates vaddr (vaddr - kernelVirtualBase + kernelPhysicalBase) (flags.getLsbD 1)
      (flags.getLsbD 63) := by
  obtain ⟨hhigh, hle⟩ := hplaced.segment_high segment hsegment
  have htranslates := h.translates hplaced htotal hrange
    ((contains_segmentRange_iff hhigh hle (hplaced.segment_aligned segment hsegment)).mpr hin)
  have heq : vaddr - kernelVirtualBase + kernelPhysicalBase
      = segment.1 - kernelVirtualBase + kernelPhysicalBase + (vaddr - segment.1) := by
    grind
  rw [heq]
  exact htranslates

theorem PagingInitialised.kernelLayout
    (h : PagingInitialised (initRanges s.globals kernelPhysicalBase kernelVirtualBase info) s pml4 t)
    (hplaced : WellPlaced s.globals kernelPhysicalBase kernelVirtualBase info)
    (htotal : s.globals.totalFrames.toNat ≤ 2 ^ 40) :
    KernelLayout s.globals kernelPhysicalBase kernelVirtualBase info t := by
  have hunmapped : ∀ vaddr, IsCanonical vaddr →
      ¬ (∃ range ∈ initRanges s.globals kernelPhysicalBase kernelVirtualBase info,
        range.Contains vaddr) → t.hwWalk t.cr3 vaddr = none := by
    intro vaddr hcanonical hout
    refine h.hwWalk_eq_none (hplaced.layoutOf_eq_zero_of_not_contains htotal hcanonical ?_)
    exact fun range hrange hcontains => hout ⟨range, hrange, hcontains⟩
  refine ⟨?_, ?_, ?_, ?_, ?_, ?_, ?_, ?_⟩
  · intro vaddr hcanonical
    rw [← hplaced.exists_contains_iff htotal]
    constructor
    · intro hsome
      by_contra hout
      rw [hunmapped vaddr hcanonical hout] at hsome
      cases hsome
    · rintro ⟨range, hrange, hcontains⟩
      obtain ⟨found, hfound, -⟩ := h.translates hplaced htotal hrange hcontains
      rw [hfound]
      rfl
  · intro vaddr hin
    have hmem : windowRange s.globals
        ∈ initRanges s.globals kernelPhysicalBase kernelVirtualBase info := by simp [initRanges]
    exact (h.translates hplaced htotal hmem ((contains_windowRange_iff htotal).mpr hin)).window
  · exact fun vaddr => hplaced.segment_translates h htotal
      (pageGlobal ||| pageNoExecute ||| pagePresent) (by simp [KernelSegmentInfo.segments])
      (by simp [initRanges])
  · exact fun vaddr => hplaced.segment_translates h htotal (pageGlobal ||| pagePresent)
      (by simp [KernelSegmentInfo.segments]) (by simp [initRanges])
  · exact fun vaddr => hplaced.segment_translates h htotal
      (pageGlobal ||| pageNoExecute ||| pagePresent) (by simp [KernelSegmentInfo.segments])
      (by simp [initRanges])
  · exact fun vaddr => hplaced.segment_translates h htotal
      (pageGlobal ||| pageNoExecute ||| pageWritable ||| pagePresent)
      (by simp [KernelSegmentInfo.segments]) (by simp [initRanges])
  · rintro vaddr found hcanonical hfound ⟨hwrite, hexec⟩
    by_cases hin : ∃ range ∈ initRanges s.globals kernelPhysicalBase kernelVirtualBase info,
        range.Contains vaddr
    · obtain ⟨range, hrange, hcontains⟩ := hin
      obtain ⟨found', hfound', -, hwrite', hexec'⟩ :=
        h.translates hplaced htotal hrange hcontains
      obtain rfl : found = found' := Option.some.inj (hfound.symm.trans hfound')
      have hexclusive := (isKernelFlags_of_mem_initRanges hrange).exclusive
      rw [← hwrite', ← hexec', hwrite, hexec] at hexclusive
      simp at hexclusive
    · rw [hunmapped vaddr hcanonical hin] at hfound
      cases hfound
  · intro vaddr hlow
    refine h.hwWalk_eq_none (hplaced.higherHalf.layoutOf_eq_zero htotal ?_)
    rw [isKernel_pageOf_iff (Or.inl hlow)]
    unfold IsHigherHalf
    omega

end

end RainstormOs
