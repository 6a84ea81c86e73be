import RainstormOs.Proof.Spaces
import Mathlib.Data.Finset.Union

/-!
# What `paging_init` builds

The first PML4 gets a table for each of the 256 shared slots, then five ranges are mapped into it,
then the shared slots are saved. The layout is described the way it is made, as a fold of single
updates over the page map: a later range wins over an earlier one, and addresses wrap as the
machine's do. What the layout looks like when the ranges are disjoint is a separate matter.

Frames are accounted for exactly. The tables that will exist are on the paths of the mapped pages,
and the code panics only if there are fewer free frames than such paths.
-/

namespace RainstormOs

open Trie (walk Reaches)

/-! ### The layout -/

/-- A call of `paging_map_range`. -/
structure RangeMapping where
  virtAddr : VirtAddr
  physAddr : PhysAddr
  size : BitVec 64
  flags : BitVec 64
deriving DecidableEq

/-- The page map after the first `count` pages of a range have been mapped. -/
def RangeMapping.mapFirst (range : RangeMapping) (leaf : Page → BitVec 64) :
    Nat → Page → BitVec 64
  | 0 => leaf
  | count + 1 =>
      Function.update (range.mapFirst leaf count)
        (pageOf (range.virtAddr + BitVec.ofNat 64 count * pageSize))
        ((range.physAddr + BitVec.ofNat 64 count * pageSize) ||| range.flags)

def RangeMapping.IsAligned (range : RangeMapping) : Prop :=
  IsPageAligned range.virtAddr ∧ IsPageAligned range.physAddr

instance (range : RangeMapping) : Decidable range.IsAligned :=
  inferInstanceAs (Decidable (_ ∧ _))

def RangeMapping.apply (range : RangeMapping) (leaf : Page → BitVec 64) : Page → BitVec 64 :=
  if range.IsAligned then range.mapFirst leaf (pageCount range.size).toNat else leaf

def RangeMapping.pages (range : RangeMapping) : Finset Page :=
  if range.IsAligned then
    (Finset.range (pageCount range.size).toNat).image fun i =>
      pageOf (range.virtAddr + BitVec.ofNat 64 i * pageSize)
  else ∅

def segmentRange (kernelPhysicalBase : PhysAddr) (kernelVirtualBase start stop : VirtAddr)
    (flags : BitVec 64) : RangeMapping :=
  ⟨start, (start - kernelVirtualBase) + kernelPhysicalBase, stop - start, flags⟩

/-- The window onto all tracked frames. -/
def windowRange (g : Globals) : RangeMapping :=
  ⟨g.hhdmOffset, 0#64, g.totalFrames * pageSize,
    pageWritable ||| pageGlobal ||| pageNoExecute ||| pagePresent⟩

def initRanges (g : Globals) (kernelPhysicalBase : PhysAddr) (kernelVirtualBase : VirtAddr)
    (info : KernelSegmentInfo) : List RangeMapping :=
  [windowRange g,
    segmentRange kernelPhysicalBase kernelVirtualBase info.limineStart info.limineEnd
      (pageGlobal ||| pageNoExecute ||| pagePresent),
    segmentRange kernelPhysicalBase kernelVirtualBase info.textStart info.textEnd
      (pageGlobal ||| pagePresent),
    segmentRange kernelPhysicalBase kernelVirtualBase info.rodataStart info.rodataEnd
      (pageGlobal ||| pageNoExecute ||| pagePresent),
    segmentRange kernelPhysicalBase kernelVirtualBase info.dataStart info.dataEnd
      (pageGlobal ||| pageNoExecute ||| pageWritable ||| pagePresent)]

def layoutOf (ranges : List RangeMapping) : Page → BitVec 64 :=
  ranges.foldl (fun leaf range => range.apply leaf) fun _ => 0#64

/-- The paths of all tables that exist once the ranges are mapped. -/
def tablePaths (ranges : List RangeMapping) : Finset (List Index) :=
  insert [] (((Finset.range 256).image fun i => [BitVec.ofNat 9 (i + 256)])
    ∪ (ranges.toFinset.biUnion RangeMapping.pages).biUnion fun page =>
        {page.path.take 1, page.path.take 2, page.path})

theorem nil_mem_tablePaths (ranges : List RangeMapping) : [] ∈ tablePaths ranges :=
  Finset.mem_insert_self _ _

theorem slot_mem_tablePaths (ranges : List RangeMapping) {i : Index} (hi : i ∈ kernelSlots) :
    [i] ∈ tablePaths ranges := by
  have hhigh : 256 ≤ i.toNat := hi
  have hmax := i.isLt
  refine Finset.mem_insert_of_mem (Finset.mem_union_left _ (Finset.mem_image.mpr
    ⟨i.toNat - 256, Finset.mem_range.mpr (by omega), ?_⟩))
  rw [Nat.sub_add_cancel hhigh]
  simp

theorem path_mem_tablePaths {ranges : List RangeMapping} {range : RangeMapping}
    (hrange : range ∈ ranges) {page : Page} (hpage : page ∈ range.pages) {q : List Index}
    (hpre : q <+: page.path) : q ∈ tablePaths ranges := by
  cases hq : q with
  | nil => exact nil_mem_tablePaths ranges
  | cons i rest =>
      rw [← hq]
      have hlength := hpre.length_le
      rw [page.length_path, hq, List.length_cons] at hlength
      refine Finset.mem_insert_of_mem (Finset.mem_union_right _ (Finset.mem_biUnion.mpr
        ⟨page, Finset.mem_biUnion.mpr ⟨range, List.mem_toFinset.mpr hrange, hpage⟩, ?_⟩))
      rw [List.prefix_iff_eq_take.mp hpre, hq, List.length_cons]
      have hcases : rest.length = 0 ∨ rest.length = 1 ∨ rest.length = 2 := by omega
      obtain h | h | h := hcases <;> rw [h] <;> simp [Page.path]

theorem length_le_of_mem_tablePaths {ranges : List RangeMapping} {q : List Index}
    (hq : q ∈ tablePaths ranges) : q.length ≤ 3 := by
  rw [tablePaths, Finset.mem_insert, Finset.mem_union, Finset.mem_image, Finset.mem_biUnion] at hq
  obtain rfl | ⟨i, -, rfl⟩ | ⟨page, -, hpage⟩ := hq
  · simp
  · simp
  · simp only [Finset.mem_insert, Finset.mem_singleton] at hpage
    obtain rfl | rfl | rfl := hpage <;> simp [Page.path]

/-! ### The shared slots -/

section

variable {guar : Machine → Cmd → Prop} {s t : Machine} {pml4 : PhysAddr}

/-- The shared slots below `n` have empty tables, the other entries of the PML4 are zero. -/
structure SlotsFilled (s : Machine) (pml4 : PhysAddr) (n : Nat) (t : Machine) : Prop where
  globals : t.globals = s.globals
  cr3 : t.cr3 = s.cr3
  nxe : t.nxe = s.nxe
  forest : Forest {pml4} t
  empty : ∀ i : Index, i.toNat < 256 ∨ n ≤ i.toNat → t.entry pml4 i = 0#64
  filled : ∀ i : Index, 256 ≤ i.toNat → i.toNat < n →
    ∃ next, t.child pml4 i = some next ∧ ∀ j, t.entry next j = 0#64
  count : ∀ paths : Finset (List Index), (∀ q ∈ paths, q.length ≤ 3) → [] ∈ paths →
    (∀ i ∈ kernelSlots, [i] ∈ paths) → t.potential pml4 paths = s.freeCount

theorem child_eq_none_of_zero {table : PhysAddr} {i : Index} (hzero : t.entry table i = 0#64) :
    t.child table i = none := by
  rw [Machine.child_eq_none_iff, hzero, BitVec.getLsbD_zero]

theorem zero_entry_of_fill {f : Nat} (hf : f < 2 ^ 52) (hg : t.globals = s.globals) (j : Index) :
    (t.fill (s.globals.hhdmPhysToVirt (frameAddr f)) 4096 0#8).entry (frameAddr f) j = 0#64 := by
  refine ByteMemory.readWord_eq_zero fun k hk => ?_
  rw [Machine.fill, hg, hhdmVirtToPhys_physToVirt]
  exact fill_of_frame_eq (isPageAligned_frameAddr hf)
    (frameOf_entryAddr_add (isPageAligned_frameAddr hf) j hk)

/-- A zeroed frame is a PML4 with no slot filled. -/
theorem SlotsFilled.root {f : Nat} (hready : PmmReady s) (hfree : s.IsFree f)
    (htaken : TakenFrame s f t) (hzero : ∀ i, t.entry (frameAddr f) i = 0#64) :
    SlotsFilled s (frameAddr f) 256 t := by
  have htotal := hready.layout.total_le
  have hlt := hfree.1
  have hwalk : ∀ {q : List Index} {table}, walk t.child (frameAddr f) q = some table →
      q = [] ∧ table = frameAddr f := by
    intro q table hq
    cases q with
    | nil => exact ⟨rfl, (Option.some.inj hq).symm⟩
    | cons i q =>
        rw [walk, child_eq_none_of_zero (hzero i)] at hq
        cases hq
  have hreach : ∀ {depth table}, Reaches t.child {frameAddr f} depth table →
      table = frameAddr f := by
    rintro depth table ⟨root, rfl, path, -, hpath⟩
    exact (hwalk hpath).2
  refine ⟨htaken.globals, htaken.cr3, htaken.nxe,
    ⟨htaken.ready hready hfree, ?_, ?_, ?_⟩, fun i _ => hzero i, ?_, ?_⟩
  · intro table htable
    rw [hreach htable]
    exact htaken.isTableFrame hready hfree
  · intro table i htable
    rw [hreach htable, hzero, IsUpperEntry, BitVec.getLsbD_zero]
    exact fun hfalse => absurd hfalse Bool.false_ne_true
  · rintro root rfl root' rfl path path' - - table hpath hpath'
    exact ⟨(hwalk hpath).1.trans (hwalk hpath').1.symm, Or.inl rfl⟩
  · intro i hlo hhi
    omega
  · intro paths _ hnil _
    have hcount := Machine.freeCount_of_taken htaken.globals hfree fun f' hlt' =>
      htaken.bits hready hfree (hready.layout.frame_byte hlt')
    have hfilter : (paths.filter fun q => (walk t.child (frameAddr f) q).isSome) = {[]} := by
      ext q
      rw [Finset.mem_filter, Finset.mem_singleton]
      constructor
      · rintro ⟨-, hsome⟩
        obtain ⟨table, htable⟩ := Option.isSome_iff_exists.mp hsome
        exact (hwalk htable).1
      · rintro rfl
        exact ⟨hnil, rfl⟩
    rw [Machine.potential, hfilter, Finset.card_singleton, hcount]

/-- A fresh frame can be linked in an empty slot. -/
theorem SlotsFilled.readyToLink {n f : Nat} (h : SlotsFilled s pml4 n t) (hfree : t.IsFree f)
    {u : Machine} (htaken : TakenFrame t f u) (hzero : ∀ j, u.entry (frameAddr f) j = 0#64)
    {i : Index} (hi : n ≤ i.toNat) : ReadyToLink {pml4} u pml4 i (frameAddr f) := by
  have htotal := h.forest.layout.total_le
  have hlt := hfree.1
  have hsame := htaken.sameTables h.forest hfree
  have hempty : u.entry pml4 i = 0#64 :=
    (hsame.entry h.forest ⟨pml4, rfl, [], Nat.zero_le _, rfl⟩ i).trans (h.empty i (Or.inr hi))
  refine ⟨⟨pml4, rfl, [], Nat.zero_le _, rfl⟩, child_eq_none_of_zero hempty,
    htaken.isTableFrame h.forest.toPmmReady hfree, ?_, hzero⟩
  intro hfresh
  rw [reaches_iff_of_child (hsame.child h.forest) (Nat.le_refl 3)] at hfresh
  exact h.forest.not_reaches_of_isFree hfree hfresh (frameOf_frameAddr (by omega))

theorem SlotsFilled.step {n f : Nat} (h : SlotsFilled s pml4 n t) (hlo : 256 ≤ n) (hhi : n < 512)
    (hfree : t.IsFree f) {u : Machine} (htaken : TakenFrame t f u)
    (hzero : ∀ j, u.entry (frameAddr f) j = 0#64) :
    SlotsFilled s pml4 (n + 1)
      (u.setEntry pml4 (BitVec.ofNat 9 n) (frameAddr f ||| pagePresent ||| pageWritable)) := by
  have htotal := h.forest.layout.total_le
  have hlt := hfree.1
  have hroot : pml4 ∈ ({pml4} : Set PhysAddr) := rfl
  have hindex : (BitVec.ofNat 9 n : Index).toNat = n := by
    rw [BitVec.toNat_ofNat]
    omega
  have hself := frameAddr_and_physAddrMask (show f < 2 ^ 40 by omega)
  have hword : frameAddr f ||| pagePresent ||| pageWritable = frameAddr f ||| 3#64 := by
    rw [BitVec.or_assoc]
    rfl
  rw [hword]
  generalize hi : (BitVec.ofNat 9 n : Index) = i at hindex ⊢
  have hsame := htaken.sameTables h.forest hfree
  have hforest := htaken.forest h.forest hfree
  have hreach : Reaches u.child {pml4} 2 pml4 := ⟨pml4, rfl, [], Nat.zero_le _, rfl⟩
  have hkeep : ∀ j, u.entry pml4 j = t.entry pml4 j :=
    hsame.entry h.forest ⟨pml4, rfl, [], Nat.zero_le _, rfl⟩
  have hready := h.readyToLink hfree htaken hzero (show n ≤ i.toNat by omega)
  have hthree : (3#64 : BitVec 64) &&& physAddrMask = 0#64 := rfl
  have hpresent : (frameAddr f ||| 3#64).getLsbD 0 = true := by
    rw [BitVec.getLsbD_or]
    simp
  have haddr := or_and_physAddrMask hself hthree
  have hlinked := hready.linked hforest hpresent haddr
  have hnew := hready.forest hforest hpresent haddr
    fun _ => Or.inl (entryFlags_or hself hthree)
  have hother : ∀ j, j ≠ i →
      (u.setEntry pml4 i (frameAddr f ||| 3#64)).entry pml4 j = t.entry pml4 j := by
    intro j hj
    have haligned := (hforest.frame pml4 (hreach.mono (by decide))).aligned
    rw [Machine.entry_setEntry_of_ne haligned haligned fun _ => hj, hkeep]
  refine ⟨htaken.globals.trans h.globals, htaken.cr3.trans h.cr3, htaken.nxe.trans h.nxe, hnew,
    ?_, ?_, ?_⟩
  · intro j hj
    rw [hother j (by rintro rfl; omega)]
    exact h.empty j (by omega)
  · intro j hjlo hjhi
    by_cases hj : j = i
    · rw [hj]
      exact ⟨frameAddr f, hlinked.linked, hready.entry_fresh hforest⟩
    · have hval : j.toNat ≠ i.toNat := fun heq => hj (BitVec.eq_of_toNat_eq heq)
      obtain ⟨next, hnext, hblank⟩ := h.filled j hjlo (by omega)
      have hbelow : walk t.child pml4 [j] = some next := by
        rw [walk, hnext]
        rfl
      have hnextReach : Reaches t.child {pml4} 3 next := ⟨pml4, rfl, [j], by simp, hbelow⟩
      have hne : next ≠ pml4 := by
        rintro rfl
        have := h.forest.length_eq hroot hroot (by simp) (by simp) hbelow
          (rfl : walk t.child next [] = some next)
        simp at this
      refine ⟨next, ?_, fun k => ?_⟩
      · rw [Machine.child_congr (hother j hj), hnext]
      · rw [Machine.entry_setEntry_of_ne (hforest.frame pml4 (hreach.mono (by decide))).aligned
          (h.forest.frame next hnextReach).aligned (fun heq => absurd heq hne),
          hsame.entry h.forest hnextReach, hblank]
  · intro paths hshort hnil hslots
    rw [← h.count paths hshort hnil hslots]
    have hkernel : i ∈ kernelSlots := by
      change 256 ≤ i.toNat
      omega
    have hwalk : ∀ {q : List Index}, q.length ≤ 3 → walk u.child pml4 q = walk t.child pml4 q :=
      fun hq => walk_eq_of_child (hsame.child h.forest) hroot hq
    have hnone : walk t.child pml4 [i] = none := by
      rw [walk, child_eq_none_of_zero (h.empty i (by omega))]
      rfl
    refine Machine.potential_of_link (hslots i hkernel) hnone (fun q hq => ?_)
      (Machine.freeCount_of_taken htaken.globals hfree fun f' hlt' => ?_)
    · rw [Option.isSome_iff_exists, Option.isSome_iff_exists]
      simp only [hlinked.walk_iff hroot (hshort q hq), hwalk (hshort q hq)]
      constructor
      · rintro ⟨target, hold | ⟨-, q', rfl, hq'⟩⟩
        · exact Or.inl ⟨target, hold⟩
        · have hlength := hshort _ hq
          rw [List.length_append, List.length_singleton] at hlength
          have := hforest.length_eq hroot hroot (by omega) (by simp) hq'
            (rfl : walk u.child pml4 [] = some pml4)
          rw [List.length_eq_zero_iff.mp this]
          exact Or.inr rfl
      · rintro (⟨target, hold⟩ | rfl)
        · exact ⟨target, Or.inl hold⟩
        · exact ⟨_, Or.inr ⟨rfl, [], rfl, rfl⟩⟩
    · have hframe := hforest.frame pml4 (hreach.mono (by decide))
      rw [Machine.frameBit_setEntry hforest.layout hframe.aligned hframe.not_bitmap _ _
        (by rw [htaken.globals]; exact h.forest.layout.frame_byte hlt'),
        htaken.bits h.forest.toPmmReady hfree (h.forest.layout.frame_byte hlt')]

/-- Initialisation panics only if the paths need more tables than there are free frames. -/
def PanicsOnlyFull (s : Machine) (paths : Finset (List Index)) (_ : Machine) (c : Cmd) : Prop :=
  ∀ string, c = .kpanic string → s.freeCount < paths.card

theorem panicsOnlyFull_of_plain {paths : Finset (List Index)} {c : Cmd} (hc : ¬ c.IsControl) :
    PanicsOnlyFull s paths t c := by
  rintro string rfl
  exact absurd trivial hc

theorem wp_initSlots {paths : Finset (List Index)} (hshort : ∀ q ∈ paths, q.length ≤ 3)
    (hnil : [] ∈ paths) (hslots : ∀ i ∈ kernelSlots, [i] ∈ paths) (h : SlotsFilled s pml4 256 t)
    {post : Unit → Machine → Prop} (hpost : ∀ u, SlotsFilled s pml4 512 u → post () u) :
    Prog.Wp exec (PanicsOnlyFull s paths)
      (Prog.forAcc (fun i () => pagingInitKernelSlot (s.globals.hhdmPhysToVirt pml4) i) 256 256 ())
      t post := by
  refine Prog.wp_forAcc (fun n _ u => SlotsFilled s pml4 n u) h ?_ fun _ u hu => hpost u hu
  rintro n ⟨⟩ u hlo hhi hu
  have hn : n < 512 := by omega
  have htotal := hu.forest.layout.total_le
  rw [pagingInitKernelSlot, Prog.wp_bind]
  refine wp_pmmAllocFrame hu.forest.layout.fits 
    (fun c hc => panicsOnlyFull_of_plain (hc.tracked hu.forest.layout).plain) ?_ ?_
  · intro hfull string _
    have hindex : (BitVec.ofNat 9 n : Index).toNat = n := by
      rw [BitVec.toNat_ofNat]
      omega
    have hnone : walk u.child pml4 [BitVec.ofNat 9 n] = none := by
      rw [walk, child_eq_none_of_zero (hu.empty _ (Or.inr (by omega)))]
      rfl
    rw [← hu.count paths hshort hnil hslots]
    refine Machine.potential_lt hfull (hslots _ ?_) hnone
    change 256 ≤ (BitVec.ofNat 9 n : Index).toNat
    omega
  · intro f hfree _
    have hlt := hfree.1
    have htaken := (TakenFrame.mark u f).fill (by omega) (by exact hu.globals) (Nat.le_refl 4096)
      0#8
    rw [Prog.wp_bind, wp_getGlobals, Prog.wp_bind, Machine.markFrame_globals, hu.globals]
    refine ⟨panicsOnlyFull_of_plain id, wp_memset (fun _ _ => panicsOnlyFull_of_plain id) ?_⟩
    rw [ofNat_eq_setWidth hn, wp_store64_entry (by exact hu.globals)]
    refine ⟨panicsOnlyFull_of_plain id, ?_⟩
    exact hu.step hlo hn hfree htaken (zero_entry_of_fill (by omega) (by exact hu.globals))

/-! ### The ranges -/

/-- The state while the ranges are mapped: `leaf` is the page map so far. -/
structure LaidOut (s : Machine) (pml4 : PhysAddr) (paths : Finset (List Index))
    (leaf : Page → BitVec 64) (t : Machine) : Prop where
  globals : t.globals = s.globals
  cr3 : t.cr3 = s.cr3
  nxe : t.nxe = s.nxe
  tables : Tables {pml4} t
  leaf : ∀ page, t.leaf pml4 page = leaf page
  count : t.potential pml4 paths = s.freeCount

theorem SlotsFilled.laidOut {paths : Finset (List Index)} (hshort : ∀ q ∈ paths, q.length ≤ 3)
    (hnil : [] ∈ paths) (hslots : ∀ i ∈ kernelSlots, [i] ∈ paths)
    (h : SlotsFilled s pml4 512 t) : LaidOut s pml4 paths (fun _ => 0#64) t := by
  refine ⟨h.globals, h.cr3, h.nxe, ⟨h.forest, ?_⟩, ?_, h.count paths hshort hnil hslots⟩
  · intro i hi
    obtain ⟨next, hnext, -⟩ := h.filled i hi i.isLt
    refine ⟨next, ?_⟩
    rintro root rfl
    exact hnext
  · intro page
    have hstop : walk t.child pml4 page.path = none := by
      rw [Page.path, walk]
      cases hchild : t.child pml4 (page.extractLsb' 27 9) with
      | none => rfl
      | some next =>
          change walk t.child next _ = none
          by_cases hkernel : 256 ≤ (page.extractLsb' 27 9).toNat
          · obtain ⟨next', hnext', hblank⟩ := h.filled _ hkernel (page.extractLsb' 27 9).isLt
            obtain rfl : next = next' := Option.some.inj (hchild.symm.trans hnext')
            rw [walk, child_eq_none_of_zero (hblank _)]
            rfl
          · rw [child_eq_none_of_zero (h.empty _ (Or.inl (by omega)))] at hchild
            cases hchild
    rw [Machine.leaf, hstop]

theorem wp_pagingMapRange {paths : Finset (List Index)} {leaf : Page → BitVec 64}
    (hshort : ∀ q ∈ paths, q.length ≤ 3) (range : RangeMapping)
    (hpaths : ∀ page ∈ range.pages, ∀ q, q <+: page.path → q ∈ paths)
    (h : LaidOut s pml4 paths leaf t) {post : Unit → Machine → Prop}
    (hpost : ∀ u, LaidOut s pml4 paths (range.apply leaf) u → post () u) :
    Prog.Wp exec (PanicsOnlyFull s paths)
      (pagingMapRange pml4 range.virtAddr range.physAddr range.size range.flags) t post := by
  have hroot : pml4 ∈ ({pml4} : Set PhysAddr) := rfl
  have haligned := (h.tables.frame pml4 ⟨pml4, rfl, [], Nat.zero_le _, rfl⟩).aligned
  rw [pagingMapRange, if_neg (not_not_intro haligned)]
  by_cases hvirt : IsPageAligned range.virtAddr
  · rw [if_neg (not_not_intro hvirt)]
    by_cases hphys : IsPageAligned range.physAddr
    · have hrange : range.IsAligned := ⟨hvirt, hphys⟩
      rw [RangeMapping.apply, if_pos hrange] at hpost
      rw [RangeMapping.pages, if_pos hrange] at hpaths
      rw [if_neg (not_not_intro hphys)]
      refine Prog.wp_forAcc (fun i _ u => LaidOut s pml4 paths (range.mapFirst leaf i) u) h ?_ ?_
      · rintro i ⟨⟩ u - hi hu
        rw [Nat.zero_add] at hi
        have hpage := hpaths _ (Finset.mem_image_of_mem _ (Finset.mem_range.mpr hi))
        refine wp_pagingMap_aligned hu.tables hroot (isPageAligned_add_pages hvirt i)
          (isPageAligned_add_pages hphys i) ?_ ?_ ?_ ?_
        · exact fun v c _ _ hc => panicsOnlyFull_of_plain hc.plain
        · rintro v hgrows ⟨hfull, q, hq, hnone⟩ string -
          rw [← hu.count, ← hgrows.count paths hshort hpage]
          exact Machine.potential_lt hfull (hpage q hq) hnone
        · exact fun _ _ => panicsOnlyFull_of_plain id
        · intro v hmapped
          refine ⟨hmapped.edited.globals.trans hu.globals, hmapped.edited.cr3.trans hu.cr3,
            hmapped.edited.nxe.trans hu.nxe, hmapped.edited.tables hroot, fun page => ?_, ?_⟩
          · rw [RangeMapping.mapFirst, Function.update_apply]
            split
            · next heq => exact hmapped.edited.leaf_of_sees hroot hroot ⟨heq, Or.inl rfl⟩
            · next hne =>
                rw [hmapped.edited.leaf_of_not_sees hroot hroot fun hsees => hne hsees.1, hu.leaf]
          · rw [hmapped.edited.count hroot hshort hpage, hu.count]
      · rintro ⟨⟩ u hu
        rw [Nat.zero_add] at hu
        exact hpost u hu
    · rw [if_pos hphys, wp_klogf]
      rw [RangeMapping.apply, if_neg fun hrange => hphys hrange.2] at hpost
      exact ⟨panicsOnlyFull_of_plain id, hpost t h⟩
  · rw [if_pos hvirt, wp_klogf]
    rw [RangeMapping.apply, if_neg fun hrange => hvirt hrange.1] at hpost
    exact ⟨panicsOnlyFull_of_plain id, hpost t h⟩

/-! ### The end of initialisation -/

/-- Registers and the saved slots are not part of what the tables depend on. -/
def Machine.withRegisters (s : Machine) (entries : Nat → BitVec 64) (cr3 : PhysAddr) (nxe : Bool) :
    Machine :=
  { s with
    globals := { s.globals with kernelPml4Entries := entries }
    cr3 := cr3
    nxe := nxe }

theorem Tables.withRegisters {live : Set PhysAddr} (h : Tables live s) (entries : Nat → BitVec 64)
    (cr3 : PhysAddr) (nxe : Bool) : Tables live (s.withRegisters entries cr3 nxe) := by
  have hlayout := h.layout
  have hready : PmmReady (s.withRegisters entries cr3 nxe) :=
    ⟨⟨hlayout.total_le, hlayout.size_eq, hlayout.aligned, hlayout.tracked⟩, h.bitmap⟩
  refine h.of_child (h.toForest.of_child hready (fun _ _ _ => rfl) ?_ h.upper) fun _ _ _ => rfl
  intro table hreach
  obtain ⟨haligned, htracked, hallocated, hout⟩ := h.frame table hreach
  exact ⟨haligned, htracked, hallocated, hout⟩

theorem wp_saveSlots {paths : Finset (List Index)} {g : Globals} (hg : t.globals = g)
    {post : Unit → Machine → Prop}
    (hpost : ∀ entries : Nat → BitVec 64,
      (∀ i, i < 256 → entries i = t.entry pml4 (BitVec.ofNat 9 (i + 256))) →
      post () (t.withRegisters entries t.cr3 t.nxe)) :
    Prog.Wp exec (PanicsOnlyFull s paths)
      (Prog.forAcc (fun i () => pagingInitSaveSlot (g.hhdmPhysToVirt pml4) i) 256 0 ())
      t post := by
  refine Prog.wp_forAcc
    (fun n _ u => ∃ entries : Nat → BitVec 64, u = t.withRegisters entries t.cr3 t.nxe
      ∧ ∀ i, i < n → entries i = t.entry pml4 (BitVec.ofNat 9 (i + 256)))
    ⟨t.globals.kernelPml4Entries, rfl, fun i hi => absurd hi (Nat.not_lt_zero i)⟩ ?_ ?_
  · rintro n ⟨⟩ u - hn ⟨entries, rfl, hsaved⟩
    have hphys : (t.withRegisters entries t.cr3 t.nxe).globals.hhdmVirtToPhys
        (entryPtr (g.hhdmPhysToVirt pml4) ((BitVec.ofNat 9 (n + 256) : Index).setWidth 64))
          = entryAddr pml4 (BitVec.ofNat 9 (n + 256)) := by
      rw [← hg]
      exact hhdmVirtToPhys_entryPtr t.globals pml4 _
    rw [pagingInitSaveSlot, ofNat_eq_setWidth (by omega), Prog.wp_bind, wp_load64, hphys]
    refine ⟨panicsOnlyFull_of_plain id, ?_⟩
    rw [Prog.wp_bind, wp_getGlobals, wp_setGlobals]
    refine ⟨panicsOnlyFull_of_plain id, (fun _ hc => by cases hc), ?_⟩
    refine ⟨Function.update entries n (t.entry pml4 (BitVec.ofNat 9 (n + 256))), rfl, ?_⟩
    intro i hi
    rw [Function.update_apply]
    split
    · next heq => rw [heq]
    · next hne => exact hsaved i (by omega)
  · rintro ⟨⟩ u ⟨entries, rfl, hsaved⟩
    rw [Nat.zero_add] at hsaved
    exact hpost entries hsaved

structure PagingInitialised (ranges : List RangeMapping) (s : Machine) (pml4 : PhysAddr)
    (t : Machine) : Prop where
  globals : ∃ entries, t.globals = { s.globals with kernelPml4Entries := entries }
  cr3 : t.cr3 = pml4
  nxe : t.nxe = true
  tables : Tables {pml4} t
  snapshot : Snapshot {pml4} t
  leaf : ∀ page, t.leaf pml4 page = layoutOf ranges page
  count : t.potential pml4 (tablePaths ranges) = s.freeCount

/-- The saved entries are those of the shared slots. -/
theorem Tables.snapshot (h : Tables {pml4} t) {entries : Nat → BitVec 64}
    (hsaved : ∀ i, i < 256 → entries i = t.entry pml4 (BitVec.ofNat 9 (i + 256)))
    (cr3 : PhysAddr) (nxe : Bool) : Snapshot {pml4} (t.withRegisters entries cr3 nxe) := by
  have hslot : ∀ i, i < 256 → (BitVec.ofNat 9 (i + 256) : Index) ∈ kernelSlots := by
    intro i hi
    change 256 ≤ (BitVec.ofNat 9 (i + 256)).toNat
    rw [BitVec.toNat_ofNat]
    omega
  have hchild : ∀ i, i < 256 → t.child pml4 (BitVec.ofNat 9 (i + 256))
      = some (entries i &&& physAddrMask) ∧ (entries i).getLsbD 0 = true := by
    intro i hi
    obtain ⟨table, htable⟩ := h.slots _ (hslot i hi)
    obtain ⟨hpresent, haddr⟩ := Machine.child_eq_some_iff.mp (htable pml4 rfl)
    rw [hsaved i hi, haddr]
    exact ⟨htable pml4 rfl, hpresent⟩
  refine ⟨fun i hi => ?_, ?_⟩
  · have hupper := h.upper pml4 (BitVec.ofNat 9 (i + 256)) ⟨pml4, rfl, [], Nat.zero_le _, rfl⟩
    rw [← hsaved i hi] at hupper
    exact hupper (hchild i hi).2
  · rintro i hi root rfl
    exact (hchild i hi).1

/-- **`paging_init`** lays out its ranges, and panics only if the tables on their paths outnumber
the free frames. -/
theorem wp_pagingInit (h : PmmReady s) (kernelPhysicalBase : PhysAddr)
    (kernelVirtualBase : VirtAddr) (info : KernelSegmentInfo) :
    Prog.Wp exec
      (PanicsOnlyFull s (tablePaths (initRanges s.globals kernelPhysicalBase kernelVirtualBase info)))
      (pagingInit kernelPhysicalBase kernelVirtualBase info) s
      (PagingInitialised (initRanges s.globals kernelPhysicalBase kernelVirtualBase info) s) := by
  generalize hranges : initRanges s.globals kernelPhysicalBase kernelVirtualBase info = ranges
  have hshort : ∀ q ∈ tablePaths ranges, q.length ≤ 3 :=
    fun q hq => length_le_of_mem_tablePaths hq
  have hnil := nil_mem_tablePaths ranges
  have hslots : ∀ i ∈ kernelSlots, [i] ∈ tablePaths ranges :=
    fun i hi => slot_mem_tablePaths ranges hi
  have hpaths : ∀ range ∈ ranges, ∀ page ∈ range.pages, ∀ q, q <+: page.path →
      q ∈ tablePaths ranges := fun range hrange page hpage q hq =>
    path_mem_tablePaths hrange hpage hq
  have htotal := h.layout.total_le
  rw [pagingInit, Prog.wp_bind]
  refine wp_pmmAllocFrame h.layout.fits
    (fun c hc => panicsOnlyFull_of_plain (hc.tracked h.layout).plain) ?_ ?_
  · intro hfull string _
    rw [Machine.freeCount_eq_zero hfull]
    exact Finset.card_pos.mpr ⟨[], hnil⟩
  intro f hfree _
  have hlt := hfree.1
  have htaken := (TakenFrame.mark s f).fill (by omega) rfl (Nat.le_refl 4096) 0#8
  rw [Prog.wp_bind, wp_getGlobals, Machine.markFrame_globals]
  refine ⟨panicsOnlyFull_of_plain id, ?_⟩
  rw [Prog.wp_bind]
  refine wp_memset (fun _ _ => panicsOnlyFull_of_plain id) ?_
  rw [Prog.wp_bind]
  refine wp_initSlots hshort hnil hslots
    (SlotsFilled.root h hfree htaken (zero_entry_of_fill (by omega) rfl)) fun u hu => ?_
  have hlaid := hu.laidOut hshort hnil hslots
  rw [pmmGetTotalSize, Prog.wp_bind, Prog.wp_bind, wp_getGlobals, hu.globals]
  refine ⟨panicsOnlyFull_of_plain id, ?_⟩
  rw [Prog.pure_eq, Prog.wp_ret]
  simp only [initRanges] at hranges
  -- The five ranges, in the order of the list.
  rw [Prog.wp_bind]
  refine wp_pagingMapRange hshort (windowRange s.globals)
    (hpaths _ (by rw [← hranges]; simp)) hlaid fun u1 hu1 => ?_
  rw [Prog.wp_bind, pagingInitSegment]
  refine wp_pagingMapRange hshort (segmentRange kernelPhysicalBase kernelVirtualBase
    info.limineStart info.limineEnd (pageGlobal ||| pageNoExecute ||| pagePresent))
    (hpaths _ (by rw [← hranges]; simp)) hu1 fun u2 hu2 => ?_
  rw [Prog.wp_bind, pagingInitSegment]
  refine wp_pagingMapRange hshort (segmentRange kernelPhysicalBase kernelVirtualBase
    info.textStart info.textEnd (pageGlobal ||| pagePresent))
    (hpaths _ (by rw [← hranges]; simp)) hu2 fun u3 hu3 => ?_
  rw [Prog.wp_bind, pagingInitSegment]
  refine wp_pagingMapRange hshort (segmentRange kernelPhysicalBase kernelVirtualBase
    info.rodataStart info.rodataEnd (pageGlobal ||| pageNoExecute ||| pagePresent))
    (hpaths _ (by rw [← hranges]; simp)) hu3 fun u4 hu4 => ?_
  rw [Prog.wp_bind, pagingInitSegment]
  refine wp_pagingMapRange hshort (segmentRange kernelPhysicalBase kernelVirtualBase
    info.dataStart info.dataEnd (pageGlobal ||| pageNoExecute ||| pageWritable ||| pagePresent))
    (hpaths _ (by rw [← hranges]; simp)) hu4 fun u5 hu5 => ?_
  rw [Prog.wp_bind]
  refine wp_saveSlots hu5.globals fun entries hsaved => ?_
  simp only [Prog.wp_bind, wp_enableNxe, wp_writeCr3, wp_klogf, Prog.pure_eq, Prog.wp_ret]
  refine ⟨(fun _ hc => by cases hc), (fun _ hc => by cases hc), panicsOnlyFull_of_plain id, ?_⟩
  change PagingInitialised ranges s (frameAddr f)
    (u5.withRegisters entries (frameAddr f) true)
  refine ⟨⟨entries, ?_⟩, rfl, rfl, hu5.tables.withRegisters entries _ _,
    hu5.tables.snapshot hsaved _ _, ?_, hu5.count⟩
  · rw [Machine.withRegisters, hu5.globals]
  · intro page
    rw [← hranges]
    exact hu5.leaf page

end

end RainstormOs
