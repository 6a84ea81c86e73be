import RainstormOs.Proof.Boot

/-!
# Tearing an address space down

An address space takes frames when it is created and, table by table, when pages are mapped in it;
unmapping gives nothing back. While only its own lower half is edited the bitmap differs from the one
before the creation in exactly the tables the space owns, so freeing these restores it.
-/

namespace RainstormOs

open Trie (walk Reaches)

/-- A call of `paging_map` or `paging_unmap` on a lower-half address of the space, with any target and
flags. -/
inductive LowerEdit (pml4 : PhysAddr) (s t : Machine) : Prop where
  | map {virtAddr : VirtAddr} {physAddr : PhysAddr} {flags : BitVec 64}
      (hlower : virtAddr.toNat < 2 ^ 47)
      (hcall : (pagingMap pml4 virtAddr physAddr flags).run s = some ((), t)) : LowerEdit pml4 s t
  | unmap {virtAddr : VirtAddr} (hlower : virtAddr.toNat < 2 ^ 47)
      (hcall : (pagingUnmap pml4 virtAddr).run s = some ((), t)) : LowerEdit pml4 s t

abbrev LowerEdits (pml4 : PhysAddr) : Machine → Machine → Prop :=
  Relation.ReflTransGen (LowerEdit pml4)

/-- Since the creation of the space in `s`, its own tables and nothing else have been taken. -/
structure Lent (kernelPml4 : PhysAddr) (clients : Clients) (s : Machine) (pml4 : PhysAddr)
    (t : Machine) : Prop where
  consistent : Consistent kernelPml4 { clients with live := insert pml4 clients.live } t
  globals : t.globals = s.globals
  fresh : ∀ table ∈ t.privateTables pml4, s.IsFree (frameOf table)
  bits : ∀ f, f / 8 < s.globals.bitmapSize.toNat → (t.frameBit f = true ↔
    s.frameBit f = true ∨ ∃ table ∈ t.privateTables pml4, frameOf table = f)

/-- What `paging_destroy_pml4` does to a space that was created in `s` and is destroyed in `t`. -/
structure TornDown (live : Set PhysAddr) (s : Machine) (pml4 : PhysAddr) (t : Machine)
    (trace : FreeTrace) (u : Machine) : Prop where
  globals : u.globals = s.globals
  bitmap : ∀ k, k < s.globals.bitmapSize.toNat →
    u.mem (s.globals.bitmapPhys + BitVec.ofNat 64 k)
      = s.mem (s.globals.bitmapPhys + BitVec.ofNat 64 k)
  succeeds : ∀ step ∈ trace, step.2 = .freed
  once : (trace.map Prod.fst).Nodup
  /-- The tables of the space that do not hang below a shared slot. -/
  tables : ∀ table, table ∈ trace.map Prod.fst ↔
    ∃ path : List Index, path.length ≤ 3 ∧ walk t.child pml4 path = some table
      ∧ ∀ i, path.head? = some i → i ∉ kernelSlots
  shared : ∀ table ∈ trace.map Prod.fst, ∀ root ∈ live, ∀ i ∈ kernelSlots,
    ∀ path : List Index, path.length ≤ 2 → walk t.child root (i :: path) ≠ some table
  leaf : ∀ page, (t.leaf pml4 page).getLsbD 0 = true →
    (∀ path : List Index, path.length ≤ 3 →
      walk t.child pml4 path ≠ some (t.leaf pml4 page &&& physAddrMask)) →
    t.leaf pml4 page &&& physAddrMask ∉ trace.map Prod.fst
  before : ∀ table ∈ trace.map Prod.fst, s.IsFree (frameOf table)

section

variable {kernelPml4 pml4 : PhysAddr} {clients : Clients} {s t u : Machine}

/-! ### Taking frames -/

theorem Created.privateTables {f : Nat} (h : Created s f t)
    (hconsistent : Consistent kernelPml4 clients s) {table : PhysAddr} :
    table ∈ t.privateTables (frameAddr f) ↔ table = frameAddr f := by
  have hadd := h.rootAdded hconsistent.tables hconsistent.snapshot hconsistent.kernel
  rw [mem_privateTables]
  constructor
  · rintro ⟨path, hlength, hwalk, hhead⟩
    cases path with
    | nil => exact (Option.some.inj hwalk).symm
    | cons i path =>
        rw [List.length_cons] at hlength
        rw [hadd.walk_fresh (by omega)] at hwalk
        exact absurd hwalk.1 (hhead i rfl)
  · rintro rfl
    exact ⟨[], Nat.zero_le _, rfl, fun i hi => by cases hi⟩

theorem Created.lent {f : Nat} (h : Created s f t)
    (hconsistent : Consistent kernelPml4 clients s) :
    Lent kernelPml4 clients s (frameAddr f) t where
  consistent := h.consistent hconsistent
  globals := h.taken.globals
  fresh table hmem := by
    have htotal := hconsistent.tables.layout.total_le
    have hlt := h.free.1
    rw [(h.privateTables hconsistent).mp hmem, frameOf_frameAddr (by omega)]
    exact h.free
  bits f' hf' := by
    have htotal := hconsistent.tables.layout.total_le
    have hlt := h.free.1
    rw [h.taken.bits hconsistent.tables.toPmmReady h.free hf']
    refine or_congr_right ?_
    constructor
    · rintro rfl
      exact ⟨frameAddr f', (h.privateTables hconsistent).mpr rfl, frameOf_frameAddr (by omega)⟩
    · rintro ⟨table, hmem, rfl⟩
      rw [(h.privateTables hconsistent).mp hmem, frameOf_frameAddr (by omega)]

theorem Consistent.lent (h : Consistent kernelPml4 clients s)
    (hcreate : pagingCreatePml4.run s = some (pml4, t)) : Lent kernelPml4 clients s pml4 t := by
  cases h.effect_create hcreate with
  | created hcreated => exact hcreated.lent h

/-- A mapping in the lower half takes tables for this space only, and an edit loses none. -/
theorem Lent.edited {page : Page} {word : BitVec 64} (h : Lent kernelPml4 clients s pml4 t)
    (hedited : Edited (insert pml4 clients.live) pml4 page word t u) (hpage : ¬ page.IsKernel) :
    Lent kernelPml4 clients s pml4 u := by
  have hself : pml4 ∈ insert pml4 clients.live := Set.mem_insert pml4 clients.live
  have hframe := h.consistent.tables.frame
  have hlayout := h.consistent.tables.layout
  have hconsistent : Consistent kernelPml4 { clients with live := insert pml4 clients.live } u :=
    hedited.consistent h.consistent hself
  -- A table of any space is an old one, or a new one of this space.
  have hnew : ∀ root ∈ insert pml4 clients.live, ∀ path : List Index, path.length ≤ 3 → ∀ table,
      walk u.child root path = some table → walk t.child root path = some table
        ∨ (t.IsFree (frameOf table) ∧ table ∈ u.privateTables pml4) := by
    intro root hroot path hlength table hwalk
    obtain hold | ⟨hfree, hprefix, hroots⟩ := hedited.walks hself hroot hlength hwalk
    · exact Or.inl hold
    have hhead : ∀ i, path.head? = some i → i ∉ kernelSlots := by
      intro i hi hslot
      obtain ⟨path, rfl⟩ := List.head?_eq_some_iff.mp hi
      obtain ⟨rfl, -⟩ := List.cons_prefix_cons.mp hprefix
      exact hpage (page.isKernel_iff.mpr hslot)
    obtain rfl | ⟨i, hslot, hi⟩ := hroots
    · exact Or.inr ⟨hfree, mem_privateTables.mpr ⟨path, hlength, hwalk, hhead⟩⟩
    · exact absurd hslot (hhead i hi)
  have hkeep : ∀ table ∈ t.privateTables pml4, table ∈ u.privateTables pml4 := by
    intro table hmem
    obtain ⟨path, hlength, hwalk, hhead⟩ := mem_privateTables.mp hmem
    exact mem_privateTables.mpr ⟨path, hlength, hedited.walk_mono hself hself hlength hwalk, hhead⟩
  refine ⟨hconsistent, hedited.globals.trans h.globals, ?_, ?_⟩
  · intro table hmem
    obtain ⟨path, hlength, hwalk, hhead⟩ := mem_privateTables.mp hmem
    obtain hold | ⟨hfree, -⟩ := hnew pml4 hself path hlength table hwalk
    · exact h.fresh table (mem_privateTables.mpr ⟨path, hlength, hold, hhead⟩)
    · refine ⟨h.globals ▸ hfree.1, ?_⟩
      by_contra hbit
      rw [Bool.not_eq_false] at hbit
      have hset := (h.bits _ (h.globals ▸ hlayout.frame_byte hfree.1)).mpr (Or.inl hbit)
      rw [hfree.2] at hset
      cases hset
  · intro f hf
    have hold : t.frameBit f = true →
        s.frameBit f = true ∨ ∃ table ∈ u.privateTables pml4, frameOf table = f := by
      intro hbit
      obtain hbit | ⟨table, hmem, heq⟩ := (h.bits f hf).mp hbit
      · exact Or.inl hbit
      · exact Or.inr ⟨table, hkeep table hmem, heq⟩
    rw [hedited.bits hself (by rwa [h.globals])]
    constructor
    · rintro (hbit | ⟨table, rfl, root, hroot, path, hlength, hwalk⟩)
      · exact hold hbit
      · obtain hwalk | ⟨-, hmem⟩ := hnew root hroot path hlength table hwalk
        · exact hold (hframe table ⟨root, hroot, path, hlength, hwalk⟩).allocated
        · exact Or.inr ⟨table, hmem, rfl⟩
    · rintro (hbit | ⟨table, hmem, rfl⟩)
      · exact Or.inl ((h.bits f hf).mpr (Or.inl hbit))
      · obtain ⟨path, hlength, hwalk, -⟩ := mem_privateTables.mp hmem
        exact Or.inr ⟨table, rfl, pml4, hself, path, hlength, hwalk⟩

theorem not_isKernel_pageOf {virtAddr : VirtAddr} (hlower : virtAddr.toNat < 2 ^ 47) :
    ¬ (pageOf virtAddr).IsKernel := by
  rw [Page.IsKernel, toNat_pageOf]
  omega

theorem Lent.step (h : Lent kernelPml4 clients s pml4 t) (hedit : LowerEdit pml4 t u) :
    Lent kernelPml4 clients s pml4 u := by
  have hself : pml4 ∈ insert pml4 clients.live := Set.mem_insert pml4 clients.live
  cases hedit with
  | map hlower hcall =>
      cases h.consistent.effect_map hself hcall with
      | mapped _ hmapped => exact h.edited hmapped.edited (not_isKernel_pageOf hlower)
      | mapRefused _ => exact h
  | unmap hlower hcall =>
      cases h.consistent.effect_unmap hself hcall with
      | unmapped _ hedited => exact h.edited hedited (not_isKernel_pageOf hlower)
      | unmapAbsent _ _ => exact h
      | unmapRefused _ => exact h

theorem Lent.steps (h : Lent kernelPml4 clients s pml4 t) (hedits : LowerEdits pml4 t u) :
    Lent kernelPml4 clients s pml4 u := by
  induction hedits with
  | refl => exact h
  | tail _ hedit ih => exact ih.step hedit

/-! ### Giving them back -/

theorem Lent.bitmap (h : Lent kernelPml4 clients s pml4 t)
    (hfreed : Freed t (freedTrace (t.privateTables pml4)) u) {f : Nat}
    (hf : f / 8 < s.globals.bitmapSize.toNat) : u.frameBit f = s.frameBit f := by
  have hsize := s.globals.bitmapSize.isLt
  have hlayout := h.consistent.tables.layout
  have htotal := hlayout.total_le
  have hbytes := hlayout.size_eq
  rw [h.globals] at htotal hbytes
  rw [Bool.eq_iff_iff, hfreed.bits f (by omega), h.bits f hf]
  constructor
  · rintro ⟨hbit | ⟨table, hmem, heq⟩, hout⟩
    · exact hbit
    · exact absurd heq (hout (table, .freed) (List.mem_map_of_mem hmem))
  · intro hbit
    refine ⟨Or.inl hbit, ?_⟩
    intro step hstep heq
    obtain ⟨table, hmem, rfl⟩ := List.mem_map.mp hstep
    have hfree := (h.fresh table hmem).2
    rw [show frameOf table = f from heq, hbit] at hfree
    cases hfree

theorem Lent.tornDown (h : Lent kernelPml4 clients s pml4 t)
    (hfreed : Freed t (freedTrace (t.privateTables pml4)) u) :
    TornDown (insert pml4 clients.live) s pml4 t (freedTrace (t.privateTables pml4)) u := by
  have hself : pml4 ∈ insert pml4 clients.live := Set.mem_insert pml4 clients.live
  have hglobals := hfreed.only.globals.trans h.globals
  refine ⟨hglobals, ?_, ?_, ?_, ?_, ?_, ?_, ?_⟩
  · intro k hk
    apply BitVec.eq_of_getLsbD_eq
    intro j hj
    have hbit := h.bitmap hfreed (show (8 * k + j) / 8 < _ by omega)
    rw [Machine.frameBit, Machine.frameBit, hglobals, show (8 * k + j) / 8 = k by omega,
      show (8 * k + j) % 8 = j by omega] at hbit
    exact hbit
  · intro step hstep
    obtain ⟨table, -, rfl⟩ := List.mem_map.mp hstep
    rfl
  · rw [map_fst_freedTrace]
    exact h.consistent.tables.nodup_privateTables hself
  · intro table
    rw [map_fst_freedTrace, mem_privateTables]
  · rw [map_fst_freedTrace]
    intro table hmem root hroot i hslot path hlength hwalk
    obtain ⟨path', hlength', hwalk', hhead⟩ := mem_privateTables.mp hmem
    obtain ⟨rfl, -⟩ := h.consistent.tables.separated pml4 hself root hroot path' (i :: path)
      hlength' (Nat.succ_le_succ hlength) table hwalk' hwalk
    exact hhead i rfl hslot
  · rw [map_fst_freedTrace]
    intro page _ hout hmem
    obtain ⟨path, hlength, hwalk, -⟩ := mem_privateTables.mp hmem
    exact hout path hlength hwalk
  · rw [map_fst_freedTrace]
    exact h.fresh

theorem Lent.destroy (h : Lent kernelPml4 clients s pml4 t) :
    ∃ trace u, (pagingDestroyPml4 pml4).run t = some (trace, u)
      ∧ TornDown (insert pml4 clients.live) s pml4 t trace u := by
  refine Kernel.returns ?_
  refine wp_pagingDestroyPml4 h.consistent.tables (Set.mem_insert pml4 clients.live) ?_ ?_
  · exact fun _ c _ hc => ne_kpanic_of_plain hc.plain
  · intro u hfreed
    exact h.tornDown hfreed

end

/-- **Teardown returns what was taken.** Wherever an address space is created, whatever is then mapped
and unmapped in its lower half, destroying it returns, restores the bitmap byte for byte, and frees
exactly the tables of the space, each once and each successfully; none of them belongs to the shared
half, and a mapped frame is among them only if it is one of these tables. -/
theorem create_edit_destroy_tornDown {kernelPhysicalBase : PhysAddr}
    {kernelVirtualBase : VirtAddr} {info : KernelSegmentInfo} {boot s0 s created t : Machine}
    {kernelPml4 pml4 : PhysAddr} {rule : Machine → Op → Prop} {history : List Event}
    {clients : Clients} (hready : PmmReady boot)
    (hinit : (pagingInit kernelPhysicalBase kernelVirtualBase info).run boot
      = some (kernelPml4, s0))
    (hrun : Run kernelPml4 rule s0 history clients s)
    (hcreate : pagingCreatePml4.run s = some (pml4, created))
    (hedits : LowerEdits pml4 created t) :
    ∃ trace u, (pagingDestroyPml4 pml4).run t = some (trace, u)
      ∧ TornDown (insert pml4 clients.live) s pml4 t trace u := by
  have h := hrun.consistent (pagingInit_initialised hready hinit).consistent
  exact ((h.lent hcreate).steps hedits).destroy

/-- On the small machine an address space is created and a page is mapped in it, to a frame that may
depend on the space. -/
theorem exists_lowerEdit_bootMemmap (target : PhysAddr → PhysAddr)
    (htarget : ∀ pml4, IsPageAligned pml4 → IsPageAligned (target pml4)) :
    ∃ boot kernelPml4 s0 pml4 created t, PmmReady boot
      ∧ (pagingInit bootPhysicalBase bootVirtualBase bootSymbols.segmentInfo).run boot
          = some (kernelPml4, s0)
      ∧ pagingCreatePml4.run s0 = some (pml4, created)
      ∧ (pagingMap pml4 0x400000#64 (target pml4) pagePresent).run created = some ((), t)
      ∧ t.leaf pml4 (pageOf 0x400000#64) = target pml4 ||| pagePresent := by
  obtain ⟨boot, kernelPml4, s0, hmemory, hinit, -⟩ := memoryInit_bootMemmap
  have h0 := hmemory.paging.consistent
  have hframes := bootMemmap_frames_left hmemory
  obtain ⟨pml4, created, hcreate, hcount⟩ := h0.create_returns (by omega)
  have hself : pml4 ∈ insert pml4 {kernelPml4} := Set.mem_insert pml4 {kernelPml4}
  have hcreated := h0.effect_create hcreate
  have h := hcreated.consistent h0 (by rintro ⟨⟩)
  have hphys := htarget pml4 (h.tables.frame pml4 ⟨pml4, hself, [], Nat.zero_le _, rfl⟩).aligned
  have hvirt : IsPageAligned 0x400000#64 := by decide
  obtain ⟨t, hmap, -⟩ := h.map_returns hself hvirt hphys pagePresent (by omega)
  refine ⟨boot, kernelPml4, s0, pml4, created, t, hmemory.pmm.ready, hinit, hcreate, hmap, ?_⟩
  cases h.effect_map hself hmap with
  | mapped _ hmapped => exact hmapped.edited.leaf_of_sees hself hself ⟨rfl, Or.inl rfl⟩
  | mapRefused hmisaligned => exact absurd ⟨hvirt, hphys⟩ hmisaligned

theorem create_edit_destroy_tornDown_bootMemmap :
    ∃ boot kernelPml4 s0 pml4 created t trace u, PmmReady boot
      ∧ (pagingInit bootPhysicalBase bootVirtualBase bootSymbols.segmentInfo).run boot
          = some (kernelPml4, s0)
      ∧ pagingCreatePml4.run s0 = some (pml4, created)
      ∧ (pagingMap pml4 0x400000#64 0x5000#64 pagePresent).run created = some ((), t)
      ∧ (pagingDestroyPml4 pml4).run t = some (trace, u)
      ∧ TornDown (insert pml4 {kernelPml4}) s0 pml4 t trace u := by
  obtain ⟨boot, kernelPml4, s0, pml4, created, t, hready, hinit, hcreate, hmap, -⟩ :=
    exists_lowerEdit_bootMemmap (fun _ => 0x5000#64) fun _ _ => by decide
  have hrun : Run kernelPml4 (fun _ _ => True) s0 [] ⟨{kernelPml4}, ∅⟩ s0 := .init
  have hedits : LowerEdits pml4 created t := .single (.map (by decide) hmap)
  obtain ⟨trace, u, hdestroy, hdown⟩ :=
    create_edit_destroy_tornDown hready hinit hrun hcreate hedits
  exact ⟨boot, kernelPml4, s0, pml4, created, t, trace, u, hready, hinit, hcreate, hmap, hdestroy,
    hdown⟩

/-- A space that maps its own root: destroying it frees the frame a page of it is mapped to. -/
theorem create_edit_destroy_frees_mapped_root :
    ∃ boot kernelPml4 s0 pml4 created t trace u, PmmReady boot
      ∧ (pagingInit bootPhysicalBase bootVirtualBase bootSymbols.segmentInfo).run boot
          = some (kernelPml4, s0)
      ∧ pagingCreatePml4.run s0 = some (pml4, created)
      ∧ (pagingMap pml4 0x400000#64 pml4 pagePresent).run created = some ((), t)
      ∧ (pagingDestroyPml4 pml4).run t = some (trace, u)
      ∧ (t.leaf pml4 (pageOf 0x400000#64)).getLsbD 0 = true
      ∧ t.leaf pml4 (pageOf 0x400000#64) &&& physAddrMask = pml4
      ∧ (pml4, .freed) ∈ trace := by
  obtain ⟨boot, kernelPml4, s0, pml4, created, t, hready, hinit, hcreate, hmap, hleaf⟩ :=
    exists_lowerEdit_bootMemmap id fun _ h => h
  have h0 := (pagingInit_initialised hready hinit).consistent
  have hlent := (h0.lent hcreate).step (.map (by decide) hmap)
  have hframe := hlent.consistent.tables.frame pml4
    ⟨pml4, Set.mem_insert pml4 _, [], Nat.zero_le _, rfl⟩
  obtain ⟨trace, u, hdestroy, hdown⟩ := hlent.destroy
  refine ⟨boot, kernelPml4, s0, pml4, created, t, trace, u, hready, hinit, hcreate, hmap, hdestroy,
    ?_, ?_, ?_⟩
  · rw [hleaf, BitVec.getLsbD_or]
    exact Bool.or_true _
  · have htotal := hlent.consistent.tables.layout.total_le
    have htracked := hframe.tracked
    have hlt : pml4.toNat < 2 ^ 52 := by
      unfold frameOf at htracked
      omega
    rw [hleaf]
    exact or_and_physAddrMask (and_physAddrMask_eq_self_iff.mpr ⟨hframe.aligned, hlt⟩) (by decide)
  · obtain ⟨⟨table, branch⟩, hmem, rfl⟩ :=
      List.mem_map.mp ((hdown.tables pml4).mpr ⟨[], Nat.zero_le _, rfl, fun i hi => by cases hi⟩)
    rwa [← hdown.succeeds _ hmem]

end RainstormOs
