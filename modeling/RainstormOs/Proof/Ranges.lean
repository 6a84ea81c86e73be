import RainstormOs.Proof.AddressSpaces

/-!
# Mapping and unmapping ranges

`paging_map_range` and `paging_unmap_range` go through the pages of a range one by one. What every
round keeps is said once for both: the invariant, and the last-level entries of all pages that no
round so far has had. On top of that a mapped page has the entry of the last round that came to it,
and an unmapped one is absent whichever rounds come later.

The index of a page wraps at 48 bits of address, so nothing here supposes that the rounds go through
different pages. That they do is a fact about ranges inside one canonical half.
-/

namespace RainstormOs

open Trie (walk Reaches)

def rangePage (virtAddr : VirtAddr) (i : Nat) : Page :=
  pageOf (virtAddr + BitVec.ofNat 64 i * pageSize)

/-- Between `s` and `t` the first `count` pages of a range have been edited, and nothing else. -/
structure EditsRange (kernelPml4 : PhysAddr) (clients : Clients) (pml4 : PhysAddr)
    (virtAddr : VirtAddr) (count : Nat) (s t : Machine) : Prop where
  consistent : Consistent kernelPml4 clients t
  globals : t.globals = s.globals
  cr3 : t.cr3 = s.cr3
  leaf : ∀ q ∈ clients.live, ∀ page,
    (∀ i, i < count → ¬ SeesEdit pml4 (rangePage virtAddr i) q page) →
      t.leaf q page = s.leaf q page

/-- How many tables are missing on the paths of a range's pages. -/
def Machine.missingTables (s : Machine) (pml4 : PhysAddr) (range : RangeMapping) : Nat :=
  ((tablePaths [range]).filter fun q => ¬ (walk s.child pml4 q).isSome).card

/-- After `count` rounds of mapping: a page has the entry of the last round that came to it. -/
structure MapsRange (kernelPml4 : PhysAddr) (clients : Clients) (pml4 : PhysAddr)
    (range : RangeMapping) (count : Nat) (s t : Machine) : Prop
    extends EditsRange kernelPml4 clients pml4 range.virtAddr count s t where
  entry : ∀ i, i < count →
    (∀ j, i < j → j < count → rangePage range.virtAddr j ≠ rangePage range.virtAddr i) →
      t.leaf pml4 (rangePage range.virtAddr i)
        = (range.physAddr + BitVec.ofNat 64 i * pageSize) ||| range.flags
  count : t.potential pml4 (tablePaths [range]) = s.potential pml4 (tablePaths [range])

structure UnmapsRange (kernelPml4 : PhysAddr) (clients : Clients) (pml4 : PhysAddr)
    (virtAddr : VirtAddr) (count : Nat) (s t : Machine) : Prop
    extends EditsRange kernelPml4 clients pml4 virtAddr count s t where
  absent : ∀ i, i < count → (t.leaf pml4 (rangePage virtAddr i)).getLsbD 0 = false

section

variable {kernelPml4 pml4 : PhysAddr} {clients : Clients} {virtAddr : VirtAddr} {count : Nat}
  {s t u : Machine} {range : RangeMapping}

/-! ### One round -/

theorem EditsRange.refl (h : Consistent kernelPml4 clients s) :
    EditsRange kernelPml4 clients pml4 virtAddr 0 s s :=
  ⟨h, rfl, rfl, fun _ _ _ _ => rfl⟩

theorem EditsRange.succ (h : EditsRange kernelPml4 clients pml4 virtAddr count s t) :
    EditsRange kernelPml4 clients pml4 virtAddr (count + 1) s t :=
  ⟨h.consistent, h.globals, h.cr3, fun q hq page hnot =>
    h.leaf q hq page fun i hi => hnot i (Nat.lt_succ_of_lt hi)⟩

theorem EditsRange.edited (h : EditsRange kernelPml4 clients pml4 virtAddr count s t)
    (hlive : pml4 ∈ clients.live) {word : BitVec 64}
    (hedited : Edited clients.live pml4 (rangePage virtAddr count) word t u) :
    EditsRange kernelPml4 clients pml4 virtAddr (count + 1) s u := by
  refine ⟨hedited.consistent h.consistent hlive, hedited.globals.trans h.globals,
    hedited.cr3.trans h.cr3, ?_⟩
  intro q hq page hnot
  rw [hedited.leaf_of_not_sees hlive hq (hnot count (Nat.lt_succ_self count))]
  exact h.leaf q hq page fun i hi => hnot i (Nat.lt_succ_of_lt hi)

theorem MapsRange.edited (h : MapsRange kernelPml4 clients pml4 range count s t)
    (hlive : pml4 ∈ clients.live)
    (hedited : Edited clients.live pml4 (rangePage range.virtAddr count)
      ((range.physAddr + BitVec.ofNat 64 count * pageSize) ||| range.flags) t u)
    (hpaths : ∀ q, q <+: (rangePage range.virtAddr count).path → q ∈ tablePaths [range]) :
    MapsRange kernelPml4 clients pml4 range (count + 1) s u := by
  refine ⟨h.toEditsRange.edited hlive hedited, ?_, ?_⟩
  · intro i hi hlast
    obtain rfl | hlt := Nat.eq_or_lt_of_le (Nat.le_of_lt_succ hi)
    · exact hedited.leaf_of_sees hlive hlive ⟨rfl, Or.inl rfl⟩
    · rw [hedited.leaf_of_not_sees hlive hlive fun hsees =>
        hlast count hlt (Nat.lt_succ_self count) hsees.1.symm]
      exact h.entry i hlt fun j hij hj => hlast j hij (Nat.lt_succ_of_lt hj)
  · rw [hedited.count hlive (fun q hq => length_le_of_mem_tablePaths hq) hpaths, h.count]

theorem UnmapsRange.edited (h : UnmapsRange kernelPml4 clients pml4 virtAddr count s t)
    (hlive : pml4 ∈ clients.live)
    (hedited : Edited clients.live pml4 (rangePage virtAddr count) 0#64 t u) :
    UnmapsRange kernelPml4 clients pml4 virtAddr (count + 1) s u := by
  refine ⟨h.toEditsRange.edited hlive hedited, ?_⟩
  intro i hi
  by_cases hsame : rangePage virtAddr i = rangePage virtAddr count
  · rw [hsame, hedited.leaf_of_sees hlive hlive ⟨rfl, Or.inl rfl⟩, BitVec.getLsbD_zero]
  · rw [hedited.leaf_of_not_sees hlive hlive fun hsees => hsame hsees.1]
    refine h.absent i (Nat.lt_of_le_of_ne (Nat.le_of_lt_succ hi) ?_)
    rintro rfl
    exact hsame rfl

theorem UnmapsRange.unmapAbsent (h : UnmapsRange kernelPml4 clients pml4 virtAddr count s t)
    (habsent : (t.leaf pml4 (rangePage virtAddr count)).getLsbD 0 = false) :
    UnmapsRange kernelPml4 clients pml4 virtAddr (count + 1) s t := by
  refine ⟨h.toEditsRange.succ, ?_⟩
  intro i hi
  obtain rfl | hlt := Nat.eq_or_lt_of_le (Nat.le_of_lt_succ hi)
  · exact habsent
  · exact h.absent i hlt

/-! ### The two loops -/

theorem rangePage_mem_pages (haligned : range.IsAligned) {i : Nat}
    (hi : i < (pageCount range.size).toNat) : rangePage range.virtAddr i ∈ range.pages := by
  rw [RangeMapping.pages, if_pos haligned]
  exact Finset.mem_image_of_mem _ (Finset.mem_range.mpr hi)

/-- The allocator gives out before the tables are complete only if there were too few frames. -/
theorem Machine.freeCount_lt_missingTables
    (h : s.potential pml4 (tablePaths [range]) < (tablePaths [range]).card) :
    s.freeCount < s.missingTables pml4 range := by
  have hsplit := Finset.card_filter_add_card_filter_not (s := tablePaths [range])
    fun q => (walk s.child pml4 q).isSome = true
  rw [Machine.potential] at h
  rw [Machine.missingTables]
  omega

theorem Consistent.isPageAligned (h : Consistent kernelPml4 clients s)
    (hlive : pml4 ∈ clients.live) : IsPageAligned pml4 :=
  h.tables.isPageAligned hlive

/-- **`paging_map_range`** on aligned arguments maps every page of the range, and panics only without
a frame for every missing table. -/
theorem Consistent.wp_pagingMapRange (h : Consistent kernelPml4 clients s)
    (hlive : pml4 ∈ clients.live) (haligned : range.IsAligned) :
    Prog.Wp exec (fun _ c => ∀ string, c = .kpanic string → s.freeCount < s.missingTables pml4 range)
      (pagingMapRange pml4 range.virtAddr range.physAddr range.size range.flags) s fun _ t =>
        MapsRange kernelPml4 clients pml4 range (pageCount range.size).toNat s t := by
  have hplain : ∀ {c : Cmd}, ¬ c.IsControl → ∀ string, c = .kpanic string →
      s.freeCount < s.missingTables pml4 range :=
    fun hc string heq => absurd heq (ne_kpanic_of_plain hc string)
  rw [pagingMapRange, if_neg (not_not_intro (h.isPageAligned hlive)),
    if_neg (not_not_intro haligned.1), if_neg (not_not_intro haligned.2)]
  apply Prog.wp_forAcc fun i _ t => MapsRange kernelPml4 clients pml4 range i s t
  · exact ⟨EditsRange.refl h, fun i hi => absurd hi (Nat.not_lt_zero i), rfl⟩
  · intro i _ t _ hi ht
    rw [Nat.zero_add] at hi
    have hpaths : ∀ q, q <+: (rangePage range.virtAddr i).path → q ∈ tablePaths [range] :=
      fun q hq => path_mem_tablePaths (List.mem_singleton_self range)
        (rangePage_mem_pages haligned hi) hq
    refine wp_pagingMap_aligned ht.consistent.tables hlive (isPageAligned_add_pages haligned.1 i)
      (isPageAligned_add_pages haligned.2 i) ?_ ?_ ?_ ?_
    · exact fun _ c _ _ hc => hplain hc.plain
    · rintro v hgrows ⟨hfull, q, hq, hnone⟩ string -
      apply Machine.freeCount_lt_missingTables
      rw [← ht.count, ← hgrows.count _ (fun q hq => length_le_of_mem_tablePaths hq) hpaths]
      exact Machine.potential_lt hfull (hpaths q hq) hnone
    · exact fun _ _ => hplain id
    · exact fun v hmapped => ht.edited hlive hmapped.edited hpaths
  · intro _ t ht
    rwa [Nat.zero_add] at ht

/-- **`paging_unmap_range`** on an aligned address unmaps every page of the range. -/
theorem Consistent.wp_pagingUnmapRange (h : Consistent kernelPml4 clients s)
    (hlive : pml4 ∈ clients.live) (hvirt : IsPageAligned virtAddr) (size : BitVec 64) :
    Prog.Wp exec (fun _ c => ∀ string, c ≠ .kpanic string)
      (pagingUnmapRange pml4 virtAddr size) s fun _ t =>
        UnmapsRange kernelPml4 clients pml4 virtAddr (pageCount size).toNat s t := by
  rw [pagingUnmapRange, if_neg (not_not_intro (h.isPageAligned hlive)),
    if_neg (not_not_intro hvirt)]
  apply Prog.wp_forAcc fun i _ t => UnmapsRange kernelPml4 clients pml4 virtAddr i s t
  · exact ⟨EditsRange.refl h, fun i hi => absurd hi (Nat.not_lt_zero i)⟩
  · intro i _ t _ _ ht
    have haligned := isPageAligned_add_pages hvirt i
    refine wp_pagingUnmap ht.consistent.tables hlive ?_ ?_ ?_ ?_ ?_
    · exact fun c hc => ne_kpanic_of_plain hc.plain
    · exact fun _ _ => ne_kpanic_of_plain id
    · exact fun hmisaligned => absurd haligned hmisaligned
    · exact fun _ habsent => ht.unmapAbsent habsent
    · exact fun _ v hedited => ht.edited hlive hedited
  · intro _ t ht
    rwa [Nat.zero_add] at ht

end

/-! ### Refused calls -/

/-- A misaligned argument is only logged. -/
theorem wp_pagingMapRange_refused {pml4 : PhysAddr} {range : RangeMapping}
    (h : ¬ (IsPageAligned pml4 ∧ range.IsAligned)) (s : Machine) :
    Prog.Wp exec (fun _ c => ∀ string, c ≠ .kpanic string)
      (pagingMapRange pml4 range.virtAddr range.physAddr range.size range.flags) s
      fun _ t => t = s := by
  have hlog : ∀ message args, Prog.Wp exec (fun _ c => ∀ string, c ≠ .kpanic string)
      (klogf .error message args) s fun _ t => t = s :=
    fun _ _ => wp_klogf.mpr ⟨ne_kpanic_of_plain id, rfl⟩
  rw [pagingMapRange]
  split
  · exact hlog _ _
  · next hpml4 =>
      split
      · exact hlog _ _
      · next hvirt =>
          rw [if_pos fun hphys => h ⟨not_not.mp hpml4, not_not.mp hvirt, hphys⟩]
          exact hlog _ _

theorem pagingMapRange_refused {pml4 : PhysAddr} {range : RangeMapping}
    (h : ¬ (IsPageAligned pml4 ∧ range.IsAligned)) (s : Machine) :
    (pagingMapRange pml4 range.virtAddr range.physAddr range.size range.flags).run s
      = some ((), s) := by
  obtain ⟨⟨⟩, t, hrun, rfl⟩ := Kernel.returns (wp_pagingMapRange_refused h s)
  exact hrun

theorem pagingUnmapRange_refused {pml4 : PhysAddr} {virtAddr : VirtAddr}
    (h : ¬ (IsPageAligned pml4 ∧ IsPageAligned virtAddr)) (size : BitVec 64) (s : Machine) :
    (pagingUnmapRange pml4 virtAddr size).run s = some ((), s) := by
  rw [pagingUnmapRange]
  split
  · rfl
  · next hpml4 =>
      rw [if_pos fun hvirt => h ⟨not_not.mp hpml4, hvirt⟩]
      rfl

/-! ### Frames are enough -/

section

variable {kernelPml4 pml4 : PhysAddr} {clients : Clients} {s t : Machine} {range : RangeMapping}

theorem RangeMapping.card_pages_le (range : RangeMapping) :
    range.pages.card ≤ (pageCount range.size).toNat := by
  rw [RangeMapping.pages]
  split
  · exact Finset.card_image_le.trans (Finset.card_range _).le
  · exact Nat.zero_le _

/-- Three tables for each page are always enough: the PML4 and those of the shared slots exist. -/
theorem Consistent.missingTables_le (h : Consistent kernelPml4 clients s)
    (hlive : pml4 ∈ clients.live) :
    s.missingTables pml4 range ≤ (pageCount range.size).toNat * 3 := by
  have hsubset : ((tablePaths [range]).filter fun q => ¬ (walk s.child pml4 q).isSome)
      ⊆ range.pages.biUnion fun page => {page.path.take 1, page.path.take 2, page.path} := by
    intro q hq
    rw [Finset.mem_filter, tablePaths, Finset.mem_insert, Finset.mem_union, Finset.mem_image] at hq
    obtain ⟨rfl | ⟨i, hi, rfl⟩ | hpage, hmissing⟩ := hq
    · exact absurd rfl hmissing
    · have hslot : (BitVec.ofNat 9 (i + 256) : Index) ∈ kernelSlots := by
        have hlt := Finset.mem_range.mp hi
        change 256 ≤ (BitVec.ofNat 9 (i + 256)).toNat
        rw [BitVec.toNat_ofNat]
        omega
      obtain ⟨table, htable⟩ := h.tables.slots _ hslot
      rw [walk, htable pml4 hlive] at hmissing
      exact absurd rfl hmissing
    · simpa using hpage
  calc s.missingTables pml4 range
      ≤ (range.pages.biUnion fun page => {page.path.take 1, page.path.take 2, page.path}).card :=
        Finset.card_le_card hsubset
    _ ≤ range.pages.card * 3 :=
        Finset.card_biUnion_le_card_mul _ _ _ fun _ _ => Finset.card_le_three
    _ ≤ (pageCount range.size).toNat * 3 := Nat.mul_le_mul_right 3 range.card_pages_le

theorem Consistent.mapRange_returns (h : Consistent kernelPml4 clients s)
    (hlive : pml4 ∈ clients.live) (haligned : range.IsAligned)
    (hframes : s.missingTables pml4 range ≤ s.freeCount) :
    ∃ t, (pagingMapRange pml4 range.virtAddr range.physAddr range.size range.flags).run s
        = some ((), t)
      ∧ MapsRange kernelPml4 clients pml4 range (pageCount range.size).toNat s t := by
  have hwp : Prog.Wp exec (fun _ c => ∀ string, c ≠ .kpanic string)
      (pagingMapRange pml4 range.virtAddr range.physAddr range.size range.flags) s fun _ t =>
        MapsRange kernelPml4 clients pml4 range (pageCount range.size).toNat s t := by
    apply (h.wp_pagingMapRange hlive haligned).imp
    · exact fun _ c hc string heq => absurd (hc string heq) (Nat.not_lt.mpr hframes)
    · exact fun _ _ hmaps => hmaps
  obtain ⟨⟨⟩, t, hrun, hmaps⟩ := Kernel.returns hwp
  exact ⟨t, hrun, hmaps⟩

theorem Consistent.unmapRange_returns (h : Consistent kernelPml4 clients s)
    (hlive : pml4 ∈ clients.live) {virtAddr : VirtAddr} (hvirt : IsPageAligned virtAddr)
    (size : BitVec 64) :
    ∃ t, (pagingUnmapRange pml4 virtAddr size).run s = some ((), t)
      ∧ UnmapsRange kernelPml4 clients pml4 virtAddr (pageCount size).toNat s t := by
  obtain ⟨⟨⟩, t, hrun, hunmaps⟩ := Kernel.returns (h.wp_pagingUnmapRange hlive hvirt size)
  exact ⟨t, hrun, hunmaps⟩

end

/-! ### Ranges inside one canonical half -/

def roundUp (size : Nat) : Nat := (size + 4095) / 4096 * 4096

namespace RangeMapping

/-- The arguments the call is meant for: pages of one half, frames that have addresses. -/
structure IsValid (range : RangeMapping) : Prop where
  aligned : range.IsAligned
  half : range.virtAddr.toNat + roundUp range.size.toNat ≤ 2 ^ 47
    ∨ IsHigherHalf range.virtAddr ∧ range.virtAddr.toNat + roundUp range.size.toNat ≤ 2 ^ 64
  phys_end : range.physAddr.toNat + range.size.toNat ≤ 2 ^ 52
  flags : IsPageFlags range.flags

/-- The spaces that a range mapped in `pml4` shows in. -/
def ShowsIn (range : RangeMapping) (pml4 q : PhysAddr) : Prop :=
  q = pml4 ∨ IsHigherHalf range.virtAddr

/-- The page of the address has a byte in the range. -/
def Meets (range : RangeMapping) (vaddr : VirtAddr) : Prop :=
  ∃ k, k < range.size.toNat ∧ frameOf (range.virtAddr + BitVec.ofNat 64 k) = frameOf vaddr

end RangeMapping

/-- Canonical addresses have the same page index only on the same page. -/
theorem pageOf_eq_iff_frameOf_eq {vaddr vaddr' : VirtAddr} (h : IsCanonical vaddr)
    (h' : IsCanonical vaddr') : pageOf vaddr = pageOf vaddr' ↔ frameOf vaddr = frameOf vaddr' := by
  have hlt := vaddr.isLt
  have hlt' := vaddr'.isLt
  unfold IsCanonical at h h'
  rw [← BitVec.toNat_inj, toNat_pageOf, toNat_pageOf, frameOf, frameOf]
  omega

section

variable {range : RangeMapping} {vaddr : VirtAddr}

theorem RangeMapping.IsValid.size_le (h : range.IsValid) : roundUp range.size.toNat ≤ 2 ^ 47 := by
  have hhalf := h.half
  have hlt := range.virtAddr.isLt
  unfold IsHigherHalf at hhalf
  omega

theorem RangeMapping.IsValid.toNat_pageCount (h : range.IsValid) :
    4096 * (pageCount range.size).toNat = roundUp range.size.toNat := by
  have hsize := h.size_le
  unfold roundUp at hsize ⊢
  rw [RainstormOs.toNat_pageCount (by omega), Nat.mul_comm]

theorem RangeMapping.IsValid.toNat_add (h : range.IsValid) {k : Nat}
    (hk : k < roundUp range.size.toNat) :
    (range.virtAddr + BitVec.ofNat 64 k).toNat = range.virtAddr.toNat + k := by
  have hhalf := h.half
  rw [BitVec.toNat_add, BitVec.toNat_ofNat]
  omega

theorem RangeMapping.IsValid.isCanonical (h : range.IsValid) {k : Nat}
    (hk : k < roundUp range.size.toNat) : IsCanonical (range.virtAddr + BitVec.ofNat 64 k) := by
  have hhalf := h.half
  unfold IsHigherHalf at hhalf
  rw [IsCanonical, h.toNat_add hk]
  omega

theorem le_roundUp (size : Nat) : size ≤ roundUp size := by
  unfold roundUp
  omega

theorem RangeMapping.IsValid.rangePage_eq (h : range.IsValid) {k : Nat}
    (hk : k < roundUp range.size.toNat) :
    rangePage range.virtAddr (k / 4096) = pageOf (range.virtAddr + BitVec.ofNat 64 k) := by
  have haligned := (isPageAligned_iff _).mp h.aligned.1
  have hhalf := h.half
  apply BitVec.eq_of_toNat_eq
  rw [rangePage, toNat_pageOf, toNat_pageOf, toNat_add_pages (by omega), h.toNat_add hk]
  omega

theorem RangeMapping.IsValid.rangePage_inj (h : range.IsValid) {i j : Nat}
    (hi : i < (pageCount range.size).toNat) (hj : j < (pageCount range.size).toNat)
    (heq : rangePage range.virtAddr i = rangePage range.virtAddr j) : i = j := by
  have hcount := h.toNat_pageCount
  have hsize := h.size_le
  have hhalf := h.half
  have hnum := congrArg BitVec.toNat heq
  rw [rangePage, rangePage, toNat_pageOf, toNat_pageOf, toNat_add_pages (by omega),
    toNat_add_pages (by omega)] at hnum
  omega

theorem RangeMapping.IsValid.isKernel_rangePage_iff (h : range.IsValid) {i : Nat}
    (hi : i < (pageCount range.size).toNat) :
    (rangePage range.virtAddr i).IsKernel ↔ IsHigherHalf range.virtAddr := by
  have hcount := h.toNat_pageCount
  have hhalf := h.half
  have hlt := range.virtAddr.isLt
  unfold IsHigherHalf at hhalf ⊢
  rw [Page.IsKernel, rangePage, toNat_pageOf, toNat_add_pages (by omega)]
  omega

theorem RangeMapping.IsValid.meets_iff (h : range.IsValid) (hcanonical : IsCanonical vaddr) :
    range.Meets vaddr ↔ ∃ i, i < (pageCount range.size).toNat
      ∧ rangePage range.virtAddr i = pageOf vaddr := by
  have hcount := h.toNat_pageCount
  have hle := le_roundUp range.size.toNat
  constructor
  · rintro ⟨k, hk, hframe⟩
    refine ⟨k / 4096, by omega, ?_⟩
    rw [h.rangePage_eq (by omega), pageOf_eq_iff_frameOf_eq (h.isCanonical (by omega)) hcanonical]
    exact hframe
  · rintro ⟨i, hi, hpage⟩
    have hfirst : 4096 * i < range.size.toNat := by
      unfold roundUp at hcount
      omega
    refine ⟨4096 * i, hfirst, ?_⟩
    rw [← pageOf_eq_iff_frameOf_eq (h.isCanonical (by omega)) hcanonical, ← h.rangePage_eq (by omega),
      Nat.mul_div_cancel_left i (by decide)]
    exact hpage

end

/-! ### Exact ranges -/

def Machine.translate (s : Machine) (pml4 : PhysAddr) (vaddr : VirtAddr) : Option PhysAddr :=
  (s.hwWalk pml4 vaddr).map fun found => found.physOf vaddr

/-- The kernel's own query agrees with the processor, in every space. -/
def QueriesAgree (live : Set PhysAddr) (s : Machine) : Prop :=
  ∀ q ∈ live, ∀ vaddr, (pagingGetPhysical q vaddr).run s
    = some ((s.translate q vaddr).getD pmmInvalidAddress, s)

/-- The range is mapped byte for byte, and every page that does not meet it is as it was. -/
structure RangeMapped (live : Set PhysAddr) (pml4 : PhysAddr) (range : RangeMapping)
    (s t : Machine) : Prop where
  mapped : ∀ q ∈ live, range.ShowsIn pml4 q → ∀ k, k < range.size.toNat →
    t.translate q (range.virtAddr + BitVec.ofNat 64 k) = some (range.physAddr + BitVec.ofNat 64 k)
  kept : ∀ q ∈ live, ∀ vaddr, IsCanonical vaddr → ¬ (range.ShowsIn pml4 q ∧ range.Meets vaddr) →
    t.translate q vaddr = s.translate q vaddr
  queries : QueriesAgree live t

/-- The pages that meet the range are unmapped, and every other page is as it was. -/
structure RangeUnmapped (live : Set PhysAddr) (pml4 : PhysAddr) (range : RangeMapping)
    (s t : Machine) : Prop where
  unmapped : ∀ q ∈ live, range.ShowsIn pml4 q → ∀ vaddr, IsCanonical vaddr → range.Meets vaddr →
    t.translate q vaddr = none
  kept : ∀ q ∈ live, ∀ vaddr, IsCanonical vaddr → ¬ (range.ShowsIn pml4 q ∧ range.Meets vaddr) →
    t.translate q vaddr = s.translate q vaddr
  queries : QueriesAgree live t

section

variable {kernelPml4 pml4 : PhysAddr} {clients : Clients} {s t u : Machine} {range : RangeMapping}
  {vaddr : VirtAddr}

theorem Consistent.translate_eq (h : Consistent kernelPml4 clients s) (hlive : pml4 ∈ clients.live)
    (vaddr : VirtAddr) :
    s.translate pml4 vaddr = (leafTarget (s.leaf pml4 (pageOf vaddr))).map fun physAddr =>
      physAddr + BitVec.ofNat 64 (vaddr.toNat % 4096) := by
  rw [Machine.translate, leafTarget]
  obtain ⟨habsent, hwalk⟩ | ⟨hpresent, user, hwalk, -⟩ := h.readable.hwWalk_cases hlive vaddr
  · rw [hwalk, habsent]
    rfl
  · rw [hwalk, hpresent]
    rfl

theorem pageOffset_eq (vaddr : VirtAddr) :
    pageOffset vaddr = BitVec.ofNat 64 (vaddr.toNat % 4096) := by
  have hmask : BitField.IsMask 0xFFF#64 0 12 := by decide
  apply BitVec.eq_of_toNat_eq
  rw [pageOffset, BitField.toNat_and_of_isMask hmask, BitVec.toNat_ofNat]
  omega

theorem Consistent.queriesAgree (h : Consistent kernelPml4 clients s) :
    QueriesAgree clients.live s := by
  intro q hq vaddr
  rw [pagingGetPhysical_run h.tables hq, ← physicalIn_leafTarget, h.translate_eq hq]
  cases leafTarget (s.leaf q (pageOf vaddr)) with
  | none => rfl
  | some physAddr =>
      rw [physicalIn, pageOffset_eq]
      rfl

theorem EditsRange.translate_eq
    (h : EditsRange kernelPml4 clients pml4 range.virtAddr (pageCount range.size).toNat s t)
    (hs : Consistent kernelPml4 clients s) (hvalid : range.IsValid) {q : PhysAddr}
    (hq : q ∈ clients.live) (hcanonical : IsCanonical vaddr)
    (hnot : ¬ (range.ShowsIn pml4 q ∧ range.Meets vaddr)) :
    t.translate q vaddr = s.translate q vaddr := by
  rw [h.consistent.translate_eq hq, hs.translate_eq hq, h.leaf q hq]
  rintro i hi ⟨hpage, hsees⟩
  exact hnot ⟨hsees.imp_right (hvalid.isKernel_rangePage_iff hi).mp,
    (hvalid.meets_iff hcanonical).mpr ⟨i, hi, hpage.symm⟩⟩

theorem Consistent.leaf_rangePage (h : Consistent kernelPml4 clients s)
    (hlive : pml4 ∈ clients.live) (hvalid : range.IsValid) {q : PhysAddr} (hq : q ∈ clients.live)
    (hshows : range.ShowsIn pml4 q) {i : Nat} (hi : i < (pageCount range.size).toNat) :
    s.leaf q (rangePage range.virtAddr i) = s.leaf pml4 (rangePage range.virtAddr i) := by
  obtain rfl | hhigh := hshows
  · rfl
  · exact h.tables.leaf_of_isKernel hq hlive ((hvalid.isKernel_rangePage_iff hi).mpr hhigh)

theorem ofNat_pages_add (k : Nat) :
    BitVec.ofNat 64 (k / 4096) * pageSize + BitVec.ofNat 64 (k % 4096) = BitVec.ofNat 64 k := by
  have hpage : pageSize = BitVec.ofNat 64 4096 := rfl
  rw [hpage, ← BitVec.ofNat_mul, ← BitVec.ofNat_add, Nat.div_add_mod']

theorem RangeMapping.IsValid.target_and_physAddrMask (h : range.IsValid) {k : Nat}
    (hk : k < roundUp range.size.toNat) :
    (range.physAddr + BitVec.ofNat 64 (k / 4096) * pageSize) &&& physAddrMask
      = range.physAddr + BitVec.ofNat 64 (k / 4096) * pageSize := by
  have hend := h.phys_end
  have hphys := (isPageAligned_iff _).mp h.aligned.2
  unfold roundUp at hk
  refine and_physAddrMask_eq_self_iff.mpr ⟨isPageAligned_add_pages h.aligned.2 _, ?_⟩
  rw [toNat_add_pages (by omega)]
  omega

/-- Up to the end of its last page, the processor finds a mapped range with the flags asked for. -/
theorem MapsRange.hwWalk
    (h : MapsRange kernelPml4 clients pml4 range (pageCount range.size).toNat s t)
    (hlive : pml4 ∈ clients.live) (hvalid : range.IsValid) {q : PhysAddr} (hq : q ∈ clients.live)
    (hshows : range.ShowsIn pml4 q) {k : Nat} (hk : k < roundUp range.size.toNat) :
    ∃ found, t.hwWalk q (range.virtAddr + BitVec.ofNat 64 k) = some found
      ∧ found.physOf (range.virtAddr + BitVec.ofNat 64 k) = range.physAddr + BitVec.ofNat 64 k
      ∧ found.writable = range.flags.getLsbD 1 := by
  have hcount := hvalid.toNat_pageCount
  have hround : k / 4096 < (pageCount range.size).toNat := by omega
  have haddr := hvalid.target_and_physAddrMask hk
  have hleaf : t.leaf q (pageOf (range.virtAddr + BitVec.ofNat 64 k))
      = (range.physAddr + BitVec.ofNat 64 (k / 4096) * pageSize) ||| range.flags := by
    rw [← hvalid.rangePage_eq hk, h.consistent.leaf_rangePage hlive hvalid hq hshows hround]
    exact h.entry (k / 4096) hround fun j hij hj heq =>
      absurd (hvalid.rangePage_inj hj hround heq) (by omega)
  obtain ⟨habsent, -⟩ | ⟨-, user, hwalk, -⟩ :=
    h.consistent.readable.hwWalk_cases hq (range.virtAddr + BitVec.ofNat 64 k)
  · rw [hleaf, getLsbD_or_flags haddr hvalid.flags.plain (by decide) (Or.inl (by decide)),
      hvalid.flags.2] at habsent
    cases habsent
  · rw [hleaf, leafPage_or haddr hvalid.flags.plain] at hwalk
    refine ⟨_, hwalk, ?_, rfl⟩
    have hoffset : (range.virtAddr + BitVec.ofNat 64 k).toNat % 4096 = k % 4096 := by
      have haligned := (isPageAligned_iff _).mp hvalid.aligned.1
      rw [hvalid.toNat_add hk]
      omega
    change range.physAddr + BitVec.ofNat 64 (k / 4096) * pageSize
      + BitVec.ofNat 64 ((range.virtAddr + BitVec.ofNat 64 k).toNat % 4096) = _
    rw [hoffset, BitVec.add_assoc, ofNat_pages_add]

theorem MapsRange.rangeMapped
    (h : MapsRange kernelPml4 clients pml4 range (pageCount range.size).toNat s t)
    (hs : Consistent kernelPml4 clients s) (hlive : pml4 ∈ clients.live) (hvalid : range.IsValid) :
    RangeMapped clients.live pml4 range s t where
  mapped q hq hshows k hk := by
    obtain ⟨found, hfound, hphys, -⟩ :=
      h.hwWalk hlive hvalid hq hshows (hk.trans_le (le_roundUp _))
    rw [Machine.translate, hfound, Option.map_some, hphys]
  kept q hq vaddr hcanonical hnot := h.toEditsRange.translate_eq hs hvalid hq hcanonical hnot
  queries := h.consistent.queriesAgree

theorem UnmapsRange.rangeUnmapped
    (h : UnmapsRange kernelPml4 clients pml4 range.virtAddr (pageCount range.size).toNat t u)
    (ht : Consistent kernelPml4 clients t) (hmapped : RangeMapped clients.live pml4 range s t)
    (hlive : pml4 ∈ clients.live) (hvalid : range.IsValid) :
    RangeUnmapped clients.live pml4 range s u where
  unmapped q hq hshows vaddr hcanonical hmeets := by
    obtain ⟨i, hi, hpage⟩ := (hvalid.meets_iff hcanonical).mp hmeets
    rw [h.consistent.translate_eq hq, ← hpage,
      h.consistent.leaf_rangePage hlive hvalid hq hshows hi, leafTarget, h.absent i hi]
    rfl
  kept q hq vaddr hcanonical hnot := by
    rw [← hmapped.kept q hq vaddr hcanonical hnot]
    exact h.toEditsRange.translate_eq ht hvalid hq hcanonical hnot
  queries := h.consistent.queriesAgree

end

/-! ### Range calls in any run -/

section

variable {kernelPhysicalBase : PhysAddr} {kernelVirtualBase : VirtAddr} {info : KernelSegmentInfo}
  {boot s0 s : Machine} {kernelPml4 pml4 : PhysAddr} {history : List Event} {clients : Clients}

/-- **Exact ranges.** In every state reached after `paging_init`, a valid range for whose missing
tables there are frames is mapped exactly, and unmapping it again leaves exactly its pages unmapped;
a call with a misaligned argument leaves the machine as it is. -/
theorem run_mapRange_exact (hready : PmmReady boot)
    (hinit : (pagingInit kernelPhysicalBase kernelVirtualBase info).run boot
      = some (kernelPml4, s0))
    (hrun : Run kernelPml4 (fun _ _ => True) s0 history clients s) :
    (∀ pml4 ∈ clients.live, ∀ range : RangeMapping, range.IsValid →
      s.missingTables pml4 range ≤ s.freeCount →
      ∃ t, (pagingMapRange pml4 range.virtAddr range.physAddr range.size range.flags).run s
          = some ((), t)
        ∧ RangeMapped clients.live pml4 range s t
        ∧ ∃ u, (pagingUnmapRange pml4 range.virtAddr range.size).run t = some ((), u)
          ∧ RangeUnmapped clients.live pml4 range s u)
      ∧ (∀ (pml4 : PhysAddr) (range : RangeMapping),
        ¬ (IsPageAligned pml4 ∧ IsPageAligned range.virtAddr ∧ IsPageAligned range.physAddr) →
        (pagingMapRange pml4 range.virtAddr range.physAddr range.size range.flags).run s
          = some ((), s))
      ∧ ∀ (pml4 : PhysAddr) (virtAddr : VirtAddr) (size : BitVec 64),
        ¬ (IsPageAligned pml4 ∧ IsPageAligned virtAddr) →
        (pagingUnmapRange pml4 virtAddr size).run s = some ((), s) := by
  have h := hrun.consistent (pagingInit_initialised hready hinit).consistent
  refine ⟨?_, fun _ _ hrefused => pagingMapRange_refused hrefused s,
    fun _ _ size hrefused => pagingUnmapRange_refused hrefused size s⟩
  intro pml4 hlive range hvalid hframes
  obtain ⟨t, hmap, hmaps⟩ := h.mapRange_returns hlive hvalid.aligned hframes
  obtain ⟨u, hunmap, hunmaps⟩ :=
    hmaps.consistent.unmapRange_returns hlive hvalid.aligned.1 range.size
  have hmapped := hmaps.rangeMapped h hlive hvalid
  exact ⟨t, hmap, hmapped, u, hunmap, hunmaps.rangeUnmapped hmaps.consistent hmapped hlive hvalid⟩

def smallRange : RangeMapping := ⟨0x400000#64, 0x5000#64, 0x1001#64, pagePresent ||| pageWritable⟩

theorem smallRange_isValid : smallRange.IsValid where
  aligned := by decide
  half := Or.inl (by decide)
  phys_end := by decide
  flags := by decide

theorem bootMemmap_missingTables_le {pml4 : PhysAddr} {range : RangeMapping} {t : Machine}
    (h : MemoryInitialised bootMemmap 0xFFFF800000000000#64 bootPhysicalBase bootVirtualBase
      bootSymbols bareMachine s pml4 t) (hcount : (pageCount range.size).toNat ≤ 2) :
    t.missingTables pml4 range ≤ t.freeCount := by
  have hframes := bootMemmap_frames_left h
  have hmissing : t.missingTables pml4 range ≤ (pageCount range.size).toNat * 3 :=
    h.paging.consistent.missingTables_le rfl
  omega

theorem run_mapRange_exact_bootMemmap :
    ∃ boot kernelPml4 s0 t u, PmmReady boot
      ∧ (pagingInit bootPhysicalBase bootVirtualBase bootSymbols.segmentInfo).run boot
          = some (kernelPml4, s0)
      ∧ (pagingMapRange kernelPml4 0x400000#64 0x5000#64 0x1001#64
          (pagePresent ||| pageWritable)).run s0 = some ((), t)
      ∧ t.translate kernelPml4 0x401000#64 = some 0x6000#64
      ∧ (pagingUnmapRange kernelPml4 0x400000#64 0x1001#64).run t = some ((), u)
      ∧ u.translate kernelPml4 0x401FFF#64 = none := by
  obtain ⟨boot, kernelPml4, s0, hinit, hpaging, -⟩ := memoryInit_bootMemmap
  have hready := hinit.pmm.ready
  obtain ⟨t, hmap, hmapped, u, hunmap, hunmapped⟩ := (run_mapRange_exact hready hpaging .init).1
    kernelPml4 rfl smallRange smallRange_isValid (bootMemmap_missingTables_le hinit (by decide))
  have hmeets : smallRange.Meets 0x401FFF#64 := ⟨0x1000, by decide, by decide⟩
  exact ⟨boot, kernelPml4, s0, t, u, hready, hpaging, hmap,
    hmapped.mapped kernelPml4 rfl (Or.inl rfl) 0x1000 (by decide), hunmap,
    hunmapped.unmapped kernelPml4 rfl (Or.inl rfl) _ (by decide) hmeets⟩

end

/-! ### The kernel half -/

def KernelHalfKept (live : Set PhysAddr) (s t : Machine) : Prop :=
  ∀ q ∈ live, ∀ vaddr, IsHigherHalf vaddr → ∃ physAddr,
    (pagingGetPhysical q vaddr).run s = some (physAddr, s)
      ∧ (pagingGetPhysical q vaddr).run t = some (physAddr, t)

section

variable {kernelPhysicalBase : PhysAddr} {kernelVirtualBase : VirtAddr} {info : KernelSegmentInfo}
  {boot s0 s t : Machine} {kernelPml4 pml4 : PhysAddr} {history : List Event} {clients : Clients}
  {virtAddr : VirtAddr}

theorem KernelHalfKept.refl (h : Consistent kernelPml4 clients s) :
    KernelHalfKept clients.live s s :=
  fun _ hq vaddr _ =>
    ⟨_, pagingGetPhysical_run h.tables hq vaddr, pagingGetPhysical_run h.tables hq vaddr⟩

/-- Rounds that stay below `2 ^ 47` come to no page of the kernel half. -/
theorem EditsRange.kernelHalfKept {count : Nat}
    (h : EditsRange kernelPml4 clients pml4 virtAddr count s t)
    (hs : Consistent kernelPml4 clients s) (hlow : virtAddr.toNat + 4096 * count ≤ 2 ^ 47) :
    KernelHalfKept clients.live s t := by
  intro q hq vaddr hhigh
  have hsame : t.leaf q (pageOf vaddr) = s.leaf q (pageOf vaddr) := by
    apply h.leaf q hq
    rintro i hi ⟨hpage, -⟩
    have hnum := congrArg BitVec.toNat hpage
    have hlt := vaddr.isLt
    rw [rangePage, toNat_pageOf, toNat_pageOf, toNat_add_pages (by omega)] at hnum
    unfold IsHigherHalf at hhigh
    omega
  refine ⟨_, pagingGetPhysical_run hs.tables hq vaddr, ?_⟩
  rw [pagingGetPhysical_run h.consistent.tables hq, hsame]

/-- **Lower-half ranges leave the kernel half alone**, in every space and whatever the flags, as long
as their last page is below `2 ^ 47`. -/
theorem run_range_kernelHalfKept (hready : PmmReady boot)
    (hinit : (pagingInit kernelPhysicalBase kernelVirtualBase info).run boot
      = some (kernelPml4, s0))
    (hrun : Run kernelPml4 (fun _ _ => True) s0 history clients s) (hlive : pml4 ∈ clients.live)
    {size : BitVec 64} (hlow : virtAddr.toNat + 4096 * (pageCount size).toNat ≤ 2 ^ 47) :
    (∀ physAddr flags t, (pagingMapRange pml4 virtAddr physAddr size flags).run s = some ((), t) →
        KernelHalfKept clients.live s t)
      ∧ ∀ t, (pagingUnmapRange pml4 virtAddr size).run s = some ((), t) →
        KernelHalfKept clients.live s t := by
  have h := hrun.consistent (pagingInit_initialised hready hinit).consistent
  constructor
  · intro physAddr flags t hcall
    by_cases haligned : (⟨virtAddr, physAddr, size, flags⟩ : RangeMapping).IsAligned
    · exact ((h.wp_pagingMapRange hlive haligned).of_run hcall).kernelHalfKept h hlow
    · have hsame : (pagingMapRange pml4 virtAddr physAddr size flags).run s = some ((), s) :=
        pagingMapRange_refused (fun hboth => haligned hboth.2) s
      cases Option.some.inj (hcall.symm.trans hsame)
      exact KernelHalfKept.refl h
  · intro t hcall
    by_cases hvirt : IsPageAligned virtAddr
    · exact ((h.wp_pagingUnmapRange hlive hvirt size).of_run hcall).kernelHalfKept h hlow
    · have hsame : (pagingUnmapRange pml4 virtAddr size).run s = some ((), s) :=
        pagingUnmapRange_refused (fun hboth => hvirt hboth.2) size s
      cases Option.some.inj (hcall.symm.trans hsame)
      exact KernelHalfKept.refl h

theorem run_range_kernelHalfKept_bootMemmap :
    ∃ boot kernelPml4 s0 t, PmmReady boot
      ∧ (pagingInit bootPhysicalBase bootVirtualBase bootSymbols.segmentInfo).run boot
          = some (kernelPml4, s0)
      ∧ (pagingMapRange kernelPml4 0x400000#64 0x5000#64 0x1001#64
          (pagePresent ||| pageWritable)).run s0 = some ((), t)
      ∧ KernelHalfKept {kernelPml4} s0 t := by
  obtain ⟨boot, kernelPml4, s0, hinit, hpaging, -⟩ := memoryInit_bootMemmap
  have hready := hinit.pmm.ready
  obtain ⟨t, hmap, -⟩ := hinit.paging.consistent.mapRange_returns rfl smallRange_isValid.aligned
    (bootMemmap_missingTables_le hinit (by decide))
  exact ⟨boot, kernelPml4, s0, t, hready, hpaging, hmap,
    (run_range_kernelHalfKept hready hpaging .init rfl (by decide)).1 _ _ _ hmap⟩

/-- The last page of the lower half and the one after it. -/
def crossingRange : RangeMapping :=
  ⟨0x7FFFFFFFF000#64, 0x5000#64, 0x2000#64, pagePresent ||| pageWritable⟩

/-- Two pages from the end of the lower half: the index of the second wraps to the first page of the
higher half, where the window is. -/
theorem pagingMapRange_crosses_halves :
    ∃ boot kernelPml4 s0 t, PmmReady boot
      ∧ (pagingInit bootPhysicalBase bootVirtualBase bootSymbols.segmentInfo).run boot
          = some (kernelPml4, s0)
      ∧ Run kernelPml4 (fun _ _ => True) s0 [] ⟨{kernelPml4}, ∅⟩ s0
      ∧ IsPageAligned 0x7FFFFFFFF000#64 ∧ (0x7FFFFFFFF000#64).toNat < 2 ^ 47
      ∧ IsPageAligned 0x5000#64
      ∧ (pagingMapRange kernelPml4 0x7FFFFFFFF000#64 0x5000#64 0x2000#64
          (pagePresent ||| pageWritable)).run s0 = some ((), t)
      ∧ IsHigherHalf 0xFFFF800000000000#64
      ∧ (pagingGetPhysical kernelPml4 0xFFFF800000000000#64).run s0 = some (0#64, s0)
      ∧ (pagingGetPhysical kernelPml4 0xFFFF800000000000#64).run t = some (0x6000#64, t) := by
  obtain ⟨boot, kernelPml4, s0, hinit, hpaging, -⟩ := memoryInit_bootMemmap
  have h := hinit.paging.consistent
  have haligned : crossingRange.IsAligned := by decide
  obtain ⟨t, hmap, hmaps⟩ := h.mapRange_returns rfl haligned
    (bootMemmap_missingTables_le hinit (by decide))
  have htotal := bootMemmap_totalFrames hinit.pmm
  have hhdm := bootMemmap_hhdmOffset hinit.pmm
  have hbefore : s0.leaf kernelPml4 (pageOf 0xFFFF800000000000#64)
      = pageWritable ||| pageGlobal ||| pageNoExecute ||| pagePresent := by
    have hle : boot.globals.totalFrames.toNat ≤ 2 ^ 40 := hinit.pmm.layout.total_le
    have hin : boot.globals.InWindow 0xFFFF800000000000#64 := by
      rw [Globals.InWindow, htotal, hhdm]
      decide
    rw [hinit.paging.leaf, (bootSymbols_wellPlaced hinit.pmm).layoutOf_eq_entryAt hle
      List.mem_cons_self ((contains_windowRange_iff hle).mpr hin)]
    simp only [RangeMapping.entryAt, windowRange, hhdm]
    decide
  have hafter : t.leaf kernelPml4 (pageOf 0xFFFF800000000000#64) = 0x6003#64 := by
    refine hmaps.entry 1 (by decide) fun j hj hj' => absurd hj' ?_
    change ¬ j < 2
    omega
  refine ⟨boot, kernelPml4, s0, t, hinit.pmm.ready, hpaging, .init, by decide, by decide,
    by decide, hmap, by decide, ?_, ?_⟩
  · rw [pagingGetPhysical_run h.tables rfl, hbefore]
    rfl
  · rw [pagingGetPhysical_run hmaps.consistent.tables rfl, hafter]
    rfl

end

end RainstormOs
