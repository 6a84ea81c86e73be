import RainstormOs.Proof.NextTable

/-!
# What each paging call does

One rule for each of `paging_map`, `paging_unmap`, `paging_is_mapped` and `paging_get_physical`. The
two that edit are described over the invariant of the tables: they change the last-level entry of one
page and nothing else a translation depends on. The two that read are determined by that entry,
whatever memory holds.
-/

namespace RainstormOs

open Trie (walk Reaches)

section

variable {live : Set PhysAddr} {pml4 : PhysAddr} {page : Page} {word : BitVec 64}
  {s t u : Machine} {guar : Machine → Cmd → Prop}

theorem Tables.isPageAligned (h : Tables live s) (hlive : pml4 ∈ live) : IsPageAligned pml4 :=
  (h.frame pml4 ⟨pml4, hlive, [], Nat.zero_le _, rfl⟩).aligned

/-! ### Editing one page -/

/-- The tables on the way to the page have been completed, then its last-level entry stored. -/
def Edited (live : Set PhysAddr) (pml4 : PhysAddr) (page : Page) (word : BitVec 64)
    (s t : Machine) : Prop :=
  ∃ u table, Grows live pml4 page.path s u ∧ walk u.child pml4 page.path = some table
    ∧ t = u.setEntry table page.slot word

/-- Every entry on the way to the last table of a path has the user bit. -/
def Machine.IsUserPath (s : Machine) (pml4 : PhysAddr) (path : List Index) : Prop :=
  ∀ q i, q ++ [i] <+: path → ∀ table, walk s.child pml4 q = some table →
    (s.entry table i).getLsbD 2 = true

namespace Edited

theorem globals (h : Edited live pml4 page word s t) : t.globals = s.globals := by
  obtain ⟨u, table, hgrows, -, rfl⟩ := h
  exact hgrows.evolves.globals

theorem cr3 (h : Edited live pml4 page word s t) : t.cr3 = s.cr3 := by
  obtain ⟨u, table, hgrows, -, rfl⟩ := h
  exact hgrows.evolves.cr3

theorem nxe (h : Edited live pml4 page word s t) : t.nxe = s.nxe := by
  obtain ⟨u, table, hgrows, -, rfl⟩ := h
  exact hgrows.evolves.nxe

theorem tables (h : Edited live pml4 page word s t) (hlive : pml4 ∈ live) : Tables live t := by
  obtain ⟨u, table, hgrows, hwalk, rfl⟩ := h
  exact hgrows.tables.setEntry_leaf hlive hwalk

theorem entry (h : Edited live pml4 page word s t) (hlive : pml4 ∈ live) {table' : PhysAddr}
    {i : Index} (hreach : Reaches s.child live 2 table')
    (hpresent : (s.entry table' i).getLsbD 0 = true) :
    t.entry table' i = s.entry table' i ∨ t.entry table' i = s.entry table' i ||| pageUser := by
  obtain ⟨u, table, hgrows, hwalk, rfl⟩ := h
  rw [hgrows.tables.upper_setEntry_leaf hlive hwalk page.slot word table' i
    (hgrows.evolves.reaches_mono (by decide) hreach)]
  exact hgrows.evolves.entry table' i hreach hpresent

theorem leaf_of_sees (h : Edited live pml4 page word s t) (hlive : pml4 ∈ live)
    {pml4' : PhysAddr} (hlive' : pml4' ∈ live) {page' : Page}
    (hsees : SeesEdit pml4 page pml4' page') : t.leaf pml4' page' = word := by
  obtain ⟨u, table, hgrows, hwalk, rfl⟩ := h
  exact (hgrows.tables.leaf_setEntry hlive hwalk hlive' page').1 hsees

theorem leaf_of_not_sees (h : Edited live pml4 page word s t) (hlive : pml4 ∈ live)
    {pml4' : PhysAddr} (hlive' : pml4' ∈ live) {page' : Page}
    (hsees : ¬ SeesEdit pml4 page pml4' page') : t.leaf pml4' page' = s.leaf pml4' page' := by
  obtain ⟨u, table, hgrows, hwalk, rfl⟩ := h
  rw [(hgrows.tables.leaf_setEntry hlive hwalk hlive' page').2 hsees]
  exact hgrows.evolves.leaf pml4' hlive' page'

theorem walk_setEntry_leaf {table : PhysAddr} (h : Tables live u) (hlive : pml4 ∈ live)
    (hwalk : walk u.child pml4 page.path = some table) (table' : PhysAddr) (i : Index)
    (hreach : Reaches u.child live 2 table') :
    (u.setEntry table page.slot word).child table' i = u.child table' i :=
  Machine.child_congr (h.upper_setEntry_leaf hlive hwalk page.slot word table' i hreach)

theorem walks (h : Edited live pml4 page word s t) (hlive : pml4 ∈ live) {pml4' : PhysAddr}
    (hlive' : pml4' ∈ live) {q : List Index} (hq : q.length ≤ 3) {table : PhysAddr}
    (hwalk : walk t.child pml4' q = some table) :
    walk s.child pml4' q = some table
      ∨ (s.IsFree (frameOf table) ∧ q <+: page.path
        ∧ (pml4' = pml4 ∨ ∃ i ∈ kernelSlots, q.head? = some i)) := by
  obtain ⟨u, last, hgrows, hlast, rfl⟩ := h
  rw [walk_eq_of_child (walk_setEntry_leaf hgrows.tables hlive hlast) hlive' hq] at hwalk
  exact hgrows.walks pml4' hlive' q hq table hwalk

theorem walk_mono (h : Edited live pml4 page word s t) (hlive : pml4 ∈ live) {pml4' : PhysAddr}
    (hlive' : pml4' ∈ live) {q : List Index} (hq : q.length ≤ 3) {table : PhysAddr}
    (hwalk : walk s.child pml4' q = some table) : walk t.child pml4' q = some table := by
  obtain ⟨u, last, hgrows, hlast, rfl⟩ := h
  rw [walk_eq_of_child (walk_setEntry_leaf hgrows.tables hlive hlast) hlive' hq]
  exact hgrows.evolves.walk_mono hlive' hq hwalk

theorem bits (h : Edited live pml4 page word s t) (hlive : pml4 ∈ live) {f : Nat}
    (hf : f / 8 < s.globals.bitmapSize.toNat) :
    t.frameBit f = true ↔
      s.frameBit f = true ∨ ∃ table, frameOf table = f ∧ Reaches t.child live 3 table := by
  obtain ⟨u, last, hgrows, hlast, rfl⟩ := h
  have hframe := hgrows.tables.frame last
    ⟨pml4, hlive, page.path, page.length_path.le, hlast⟩
  rw [Machine.frameBit_setEntry hgrows.tables.layout hframe.aligned hframe.not_bitmap _ _
    (by rwa [hgrows.evolves.globals]), hgrows.bits f hf]
  refine or_congr_right (exists_congr fun table => and_congr_right fun _ => ?_)
  rw [reaches_iff_of_child (walk_setEntry_leaf hgrows.tables hlive hlast) (Nat.le_refl 3)]

theorem count (h : Edited live pml4 page word s t) (hlive : pml4 ∈ live)
    {paths : Finset (List Index)} (hshort : ∀ q ∈ paths, q.length ≤ 3)
    (hpaths : ∀ q, q <+: page.path → q ∈ paths) :
    t.potential pml4 paths = s.potential pml4 paths := by
  obtain ⟨u, last, hgrows, hlast, rfl⟩ := h
  have hframe := hgrows.tables.frame last
    ⟨pml4, hlive, page.path, page.length_path.le, hlast⟩
  rw [← hgrows.count paths hshort hpaths]
  have hcount := Machine.freeCount_congr (u.setEntry_globals last page.slot word) fun f hf =>
    Machine.frameBit_setEntry hgrows.tables.layout hframe.aligned hframe.not_bitmap page.slot word
      (hgrows.tables.layout.frame_byte hf)
  have hsome : ∀ q ∈ paths,
      ((walk (u.setEntry last page.slot word).child pml4 q).isSome = true ↔
        (walk u.child pml4 q).isSome = true) := by
    intro q hq
    rw [walk_eq_of_child (walk_setEntry_leaf hgrows.tables hlive hlast) hlive (hshort q hq)]
  rw [Machine.potential, Machine.potential, hcount, Finset.filter_congr hsome]

end Edited

/-! ### `paging_map` -/

/-- The user bit of an entry is never taken away. -/
theorem Evolves.user (h : Evolves live s t) {table : PhysAddr} {i : Index}
    (hreach : Reaches s.child live 2 table) (hpresent : (s.entry table i).getLsbD 0 = true)
    (huser : (s.entry table i).getLsbD 2 = true) : (t.entry table i).getLsbD 2 = true := by
  obtain heq | heq := h.entry table i hreach hpresent
  · rwa [heq]
  · rw [heq, BitVec.getLsbD_or, huser, Bool.true_or]

theorem Evolves.user_of_walk (h : Evolves live s t) (hlive : pml4 ∈ live) {q : List Index}
    {i : Index} {table next : PhysAddr} (hq : q.length ≤ 2)
    (hwalk : walk s.child pml4 q = some table) (hnext : walk s.child pml4 (q ++ [i]) = some next)
    (huser : (s.entry table i).getLsbD 2 = true) {table' : PhysAddr}
    (hwalk' : walk t.child pml4 q = some table') : (t.entry table' i).getLsbD 2 = true := by
  obtain ⟨last, hlast, hchild⟩ := Trie.walk_concat_eq_some.mp hnext
  obtain rfl : last = table := Option.some.inj (hlast.symm.trans hwalk)
  have hsame := h.walk_mono hlive (by omega) hwalk
  obtain rfl : last = table' := Option.some.inj (hsame.symm.trans hwalk')
  exact h.user ⟨pml4, hlive, q, hq, hwalk⟩ (Machine.child_eq_some_iff.mp hchild).1 huser

theorem prefix_path_cases {i3 i2 i1 i : Index} {q : List Index}
    (h : q ++ [i] <+: [i3, i2, i1]) :
    (q = [] ∧ i = i3) ∨ (q = [i3] ∧ i = i2) ∨ (q = [i3, i2] ∧ i = i1) := by
  obtain ⟨rest, hrest⟩ := h
  rw [List.append_assoc] at hrest
  match q with
  | [] => exact Or.inl ⟨rfl, by simpa using congrArg List.head? hrest⟩
  | [a] =>
      simp only [List.cons_append, List.nil_append, List.cons.injEq] at hrest
      obtain ⟨rfl, rfl, -⟩ := hrest
      exact Or.inr (Or.inl ⟨rfl, rfl⟩)
  | [a, b] =>
      simp only [List.cons_append, List.nil_append, List.cons.injEq] at hrest
      obtain ⟨rfl, rfl, rfl, -⟩ := hrest
      exact Or.inr (Or.inr ⟨rfl, rfl⟩)
  | a :: b :: c :: q =>
      have hlength := congrArg List.length hrest
      simp only [List.length_append, List.length_cons, List.length_nil] at hlength
      omega

/-- Users get through a path of three entries if each of them has the user bit. -/
theorem isUserPath_iff {i3 i2 i1 : Index} {pdpt pd : PhysAddr}
    (hpdpt : walk s.child pml4 [i3] = some pdpt) (hpd : walk s.child pml4 [i3, i2] = some pd) :
    s.IsUserPath pml4 [i3, i2, i1] ↔ ((s.entry pml4 i3).getLsbD 2 = true
      ∧ (s.entry pdpt i2).getLsbD 2 = true) ∧ (s.entry pd i1).getLsbD 2 = true := by
  constructor
  · intro huser
    exact ⟨⟨huser [] _ ⟨_, rfl⟩ pml4 rfl, huser [_] _ ⟨_, rfl⟩ _ hpdpt⟩,
      huser [_, _] _ ⟨_, rfl⟩ _ hpd⟩
  · rintro ⟨⟨hu4, hu3⟩, hu2⟩ q i hq table htable
    obtain ⟨rfl, rfl⟩ | ⟨rfl, rfl⟩ | ⟨rfl, rfl⟩ := prefix_path_cases hq
    · obtain rfl : pml4 = table := Option.some.inj htable
      exact hu4
    · obtain rfl := Option.some.inj (hpdpt.symm.trans htable)
      exact hu3
    · obtain rfl := Option.some.inj (hpd.symm.trans htable)
      exact hu2

/-- The last-level store does not come to the entries on the way. -/
theorem Tables.isUserPath_setEntry_leaf (h : Tables live s) (hlive : pml4 ∈ live)
    {table : PhysAddr} (hwalk : walk s.child pml4 page.path = some table)
    (huser : s.IsUserPath pml4 page.path) (word : BitVec 64) :
    (s.setEntry table page.slot word).IsUserPath pml4 page.path := by
  intro q i hq table' htable
  have hshort : q.length ≤ 2 := by
    have hlength := hq.length_le
    rw [List.length_append, List.length_singleton, page.length_path] at hlength
    omega
  rw [walk_eq_of_child (Edited.walk_setEntry_leaf h hlive hwalk) hlive (by omega)] at htable
  rw [h.upper_setEntry_leaf hlive hwalk _ _ _ _ ⟨pml4, hlive, q, hshort, htable⟩]
  exact huser q i hq table' htable

/-- What `paging_map` returns in on aligned arguments. -/
structure Mapped (live : Set PhysAddr) (pml4 : PhysAddr) (page : Page) (physAddr : PhysAddr)
    (flags : BitVec 64) (s t : Machine) : Prop where
  aligned : IsPageAligned physAddr
  edited : Edited live pml4 page (physAddr ||| flags) s t
  user : flags.getLsbD 2 = true → t.IsUserPath pml4 page.path

/-- The panic is reached only without a free frame, before a table of the path that is missing. -/
def OutOfFrames (pml4 : PhysAddr) (path : List Index) (t : Machine) : Prop :=
  (∀ f, ¬ t.IsFree f) ∧ ∃ q, q <+: path ∧ walk t.child pml4 q = none

theorem wp_pagingMap_aligned (h : Tables live s) (hlive : pml4 ∈ live) {virtAddr : VirtAddr}
    {physAddr : PhysAddr} {flags : BitVec 64} (hvirt : IsPageAligned virtAddr)
    (hphys : IsPageAligned physAddr)
    (hguar : ∀ t c, Tables live t → Evolves live s t → c.Tracked s.globals → guar t c)
    (hpanic : ∀ t, Grows live pml4 (pageOf virtAddr).path s t →
      OutOfFrames pml4 (pageOf virtAddr).path t →
      guar t (.kpanic "pmm_alloc_frame: out of memory"))
    (hflush : ∀ t, Mapped live pml4 (pageOf virtAddr) physAddr flags s t →
      guar t (.invlpg virtAddr))
    {post : Unit → Machine → Prop}
    (hpost : ∀ t, Mapped live pml4 (pageOf virtAddr) physAddr flags s t → post () t) :
    Prog.Wp exec guar (pagingMap pml4 virtAddr physAddr flags) s post := by
  have hroot : walk s.child pml4 [] = some pml4 := rfl
  have hempty : ([] : List Index).length ≤ 2 := by simp
  have haligned := h.isPageAligned hlive
  rw [pagingMap, if_neg (not_not_intro haligned), if_neg (not_not_intro hvirt),
    if_neg (not_not_intro hphys), pml4Index_eq, pdptIndex_eq, pdIndex_eq, ptIndex_eq]
  rw [path_pageOf] at hpanic
  -- The three levels, each started in the state the one above it left.
  rw [Prog.wp_bind]
  refine wp_pagingNextTable h hlive hempty hroot flags hguar
    (fun hfull hnone => hpanic s (h.grows_refl _ _) ⟨hfull, _, ⟨_, rfl⟩, hnone⟩) ?_
  intro pdpt s3 hgrows3 hpdpt huser3
  have hto3 := hgrows3.evolves
  have hglobals3 := hto3.globals
  rw [Prog.wp_bind]
  refine wp_pagingNextTable hgrows3.tables hlive (by simp) hpdpt flags
    (fun t c htables hevolves hc => hguar t c htables (hto3.trans hevolves)
      (hglobals3 ▸ hc))
    (fun hfull hnone => hpanic s3 (hgrows3.mono ⟨_, rfl⟩) ⟨hfull, _, ⟨_, rfl⟩, hnone⟩) ?_
  intro pd s2 hgrows2 hpd huser2
  have hto2 := hto3.trans hgrows2.evolves
  have hglobals2 := hto2.globals
  have hgrows32 := (hgrows3.mono ⟨_, rfl⟩).trans hgrows2 h.layout
  rw [Prog.wp_bind]
  refine wp_pagingNextTable hgrows2.tables hlive (by simp) hpd flags
    (fun t c htables hevolves hc => hguar t c htables (hto2.trans hevolves)
      (hglobals2 ▸ hc))
    (fun hfull hnone => hpanic s2 (hgrows32.mono ⟨_, rfl⟩) ⟨hfull, _, ⟨_, rfl⟩, hnone⟩) ?_
  intro pt s1 hgrows1 hpt huser1
  have hto1 := hto2.trans hgrows1.evolves
  have hglobals1 := hto1.globals
  have hgrows : Grows live pml4 (pageOf virtAddr).path s s1 := by
    rw [path_pageOf]
    exact (hgrows32.mono ⟨_, rfl⟩).trans hgrows1 h.layout
  have hwalk : walk s1.child pml4 (pageOf virtAddr).path = some pt := by
    rw [path_pageOf]
    exact hpt
  have hframe := hgrows.tables.frame pt
    ⟨pml4, hlive, _, (pageOf virtAddr).length_path.le, hwalk⟩
  have htracked : ∀ byte, (∃ k, k < 8 ∧ byte = entryPtr (s.globals.hhdmPhysToVirt pt)
      ((tableIndex 0 virtAddr).setWidth 64) + BitVec.ofNat 64 k) →
      frameOf (s.globals.hhdmVirtToPhys byte) < s.globals.totalFrames.toNat := by
    intro byte hbyte
    refine tracked_entryPtr hframe.aligned ?_ _ hbyte
    rw [← hglobals1]
    exact hframe.tracked
  have hnow : ∀ {c : Cmd}, c.Tracked s.globals → guar s1 c :=
    hguar s1 _ hgrows.tables hgrows.evolves
  have hedited : Edited live pml4 (pageOf virtAddr) (physAddr ||| flags) s
      (s1.setEntry pt (tableIndex 0 virtAddr) (physAddr ||| flags)) :=
    ⟨s1, pt, hgrows, hwalk, by rw [slot_pageOf]⟩
  have huser : flags.getLsbD 2 = true → s1.IsUserPath pml4 (pageOf virtAddr).path := by
    intro hflags
    have hto21 := hgrows2.evolves.trans hgrows1.evolves
    have hpdpt1 := hto21.walk_mono hlive (by simp) hpdpt
    have hpd1 := hgrows1.evolves.walk_mono hlive (by simp) hpd
    rw [path_pageOf, isUserPath_iff hpdpt1 hpd1]
    refine ⟨⟨?_, ?_⟩, huser1 hflags⟩
    · exact hto21.user_of_walk hlive hempty rfl hpdpt (huser3 hflags) rfl
    · exact hgrows1.evolves.user_of_walk hlive (by simp)
        (hgrows2.evolves.walk_mono hlive (by simp) hpdpt) hpd (huser2 hflags) hpdpt1
  have hmapped : Mapped live pml4 (pageOf virtAddr) physAddr flags s
      (s1.setEntry pt (tableIndex 0 virtAddr) (physAddr ||| flags)) := by
    refine ⟨hphys, hedited, fun hflags => ?_⟩
    rw [← slot_pageOf]
    exact hgrows.tables.isUserPath_setEntry_leaf hlive hwalk (huser hflags) _
  rw [Prog.wp_bind, wp_getGlobals, hglobals1]
  refine ⟨hnow ⟨fun _ hb => hb.elim, id⟩, ?_⟩
  rw [Prog.wp_bind, wp_load64_entry hglobals1]
  refine ⟨hnow ⟨htracked, id⟩, ?_⟩
  have hend : Prog.Wp exec guar
      (do
        store64 (entryPtr (s.globals.hhdmPhysToVirt pt) ((tableIndex 0 virtAddr).setWidth 64))
          (physAddr ||| flags)
        invlpg virtAddr) s1 post := by
    rw [Prog.wp_bind, wp_store64_entry hglobals1, wp_invlpg]
    exact ⟨hnow ⟨htracked, id⟩, hflush _ hmapped, hpost _ hmapped⟩
  split
  · rw [Prog.wp_bind, wp_load64_entry hglobals1]
    refine ⟨hnow ⟨htracked, id⟩, ?_⟩
    rw [Prog.wp_bind, wp_klogf]
    exact ⟨hnow ⟨fun _ hb => hb.elim, id⟩, hend⟩
  · exact hend

/-- `paging_map` on any arguments: a misaligned one is only logged. -/
theorem wp_pagingMap (h : Tables live s) (hlive : pml4 ∈ live) {virtAddr : VirtAddr}
    {physAddr : PhysAddr} {flags : BitVec 64}
    (hguar : ∀ t c, Tables live t → Evolves live s t → c.Tracked s.globals → guar t c)
    (hpanic : ∀ t, Grows live pml4 (pageOf virtAddr).path s t →
      OutOfFrames pml4 (pageOf virtAddr).path t →
      guar t (.kpanic "pmm_alloc_frame: out of memory"))
    (hflush : ∀ t, Mapped live pml4 (pageOf virtAddr) physAddr flags s t →
      guar t (.invlpg virtAddr))
    {post : Unit → Machine → Prop}
    (hrefused : ¬ (IsPageAligned virtAddr ∧ IsPageAligned physAddr) → post () s)
    (hpost : IsPageAligned virtAddr → IsPageAligned physAddr →
      ∀ t, Mapped live pml4 (pageOf virtAddr) physAddr flags s t → post () t) :
    Prog.Wp exec guar (pagingMap pml4 virtAddr physAddr flags) s post := by
  by_cases hvirt : IsPageAligned virtAddr
  · by_cases hphys : IsPageAligned physAddr
    · exact wp_pagingMap_aligned h hlive hvirt hphys hguar hpanic hflush (hpost hvirt hphys)
    · have haligned := h.isPageAligned hlive
      rw [pagingMap, if_neg (not_not_intro haligned), if_neg (not_not_intro hvirt),
        if_pos hphys, wp_klogf]
      exact ⟨hguar s _ h (Evolves.refl live s) ⟨fun _ hb => hb.elim, id⟩,
        hrefused fun hboth => hphys hboth.2⟩
  · have haligned := h.isPageAligned hlive
    rw [pagingMap, if_neg (not_not_intro haligned), if_pos hvirt, wp_klogf]
    exact ⟨hguar s _ h (Evolves.refl live s) ⟨fun _ hb => hb.elim, id⟩,
      hrefused fun hboth => hvirt hboth.1⟩

/-! ### Reading four levels

`paging_unmap`, `paging_is_mapped` and `paging_get_physical` begin alike: they follow the present
entries down and leave at the first absent one. -/

/-- The common beginning, with what the function does where it leaves and where it arrives. -/
def pagingDescend {α : Type} (pml4Phys : PhysAddr) (virtAddr : VirtAddr) (absent : Kernel α)
    (found : Globals → PhysAddr → Kernel α) : Kernel α := do
  let g ← getGlobals
  let pml4Entry ← load64 (entryPtr (g.hhdmPhysToVirt pml4Phys) (pml4Index virtAddr))
  if pml4Entry &&& pagePresent = 0#64 then
    absent
  else
    let pdptPhys := pml4Entry &&& physAddrMask
    let pdptEntry ← load64 (entryPtr (g.hhdmPhysToVirt pdptPhys) (pdptIndex virtAddr))
    if pdptEntry &&& pagePresent = 0#64 then
      absent
    else
      let pdPhys := pdptEntry &&& physAddrMask
      let pdEntry ← load64 (entryPtr (g.hhdmPhysToVirt pdPhys) (pdIndex virtAddr))
      if pdEntry &&& pagePresent = 0#64 then
        absent
      else
        let ptPhys := pdEntry &&& physAddrMask
        let ptEntry ← load64 (entryPtr (g.hhdmPhysToVirt ptPhys) (ptIndex virtAddr))
        if ptEntry &&& pagePresent = 0#64 then
          absent
        else
          found g ptPhys

theorem pagingUnmap_eq (pml4Phys : PhysAddr) (virtAddr : VirtAddr) :
    pagingUnmap pml4Phys virtAddr
      = if ¬ IsPageAligned pml4Phys then
          klogf .error "paging_unmap: pml4 address is not page alligned 0x%p" [pml4Phys]
        else if ¬ IsPageAligned virtAddr then
          klogf .error "paging_unmap: virtual address is not page alligned 0x%p" [virtAddr]
        else
          pagingDescend pml4Phys virtAddr
            (klogf .warn "paging_unmap: address 0x%p is not mapped" [virtAddr])
            (fun g ptPhys => do
              store64 (entryPtr (g.hhdmPhysToVirt ptPhys) (ptIndex virtAddr)) 0#64
              invlpg virtAddr) := rfl

theorem pagingIsMapped_eq (pml4Phys : PhysAddr) (virtAddr : VirtAddr) :
    pagingIsMapped pml4Phys virtAddr
      = if ¬ IsPageAligned pml4Phys then do
          klogf .error "paging_is_mapped: pml4 address is not page alligned 0x%p" [pml4Phys]
          pure false
        else
          pagingDescend pml4Phys virtAddr (pure false) fun _ _ => pure true := rfl

theorem pagingGetPhysical_eq (pml4Phys : PhysAddr) (virtAddr : VirtAddr) :
    pagingGetPhysical pml4Phys virtAddr
      = if ¬ IsPageAligned pml4Phys then do
          klogf .error "paging_is_mapped: pml4 address is not page alligned 0x%p" [pml4Phys]
          pure pmmInvalidAddress
        else
          pagingDescend pml4Phys virtAddr (pure pmmInvalidAddress)
            (fun g ptPhys => do
              let ptEntry ← load64 (entryPtr (g.hhdmPhysToVirt ptPhys) (ptIndex virtAddr))
              pure ((ptEntry &&& physAddrMask) ||| pageOffset virtAddr)) := rfl

/-- One present test of the descent, at a table a walk has reached. -/
theorem wp_pagingDescend_level {α : Type} {path : List Index} {table : PhysAddr}
    (hwalk : walk s.child pml4 path = some table) (i : Index) {absent : Kernel α}
    {found : BitVec 64 → Kernel α}
    (hload : guar s (.load64 (entryPtr (s.globals.hhdmPhysToVirt table) (i.setWidth 64))))
    {post : α → Machine → Prop}
    (habsent : walk s.child pml4 (path ++ [i]) = none → (s.entry table i).getLsbD 0 = false →
      Prog.Wp exec guar absent s post)
    (hfound : walk s.child pml4 (path ++ [i]) = some (s.entry table i &&& physAddrMask) →
      (s.entry table i).getLsbD 0 = true → Prog.Wp exec guar (found (s.entry table i)) s post) :
    Prog.Wp exec guar
      (do
        let entry ← load64 (entryPtr (s.globals.hhdmPhysToVirt table) (i.setWidth 64))
        if entry &&& pagePresent = 0#64 then absent else found entry) s post := by
  have hnext := Trie.walk_concat hwalk i
  rw [Prog.wp_bind, wp_load64_entry rfl]
  refine ⟨hload, ?_⟩
  cases hpresent : (s.entry table i).getLsbD 0 with
  | false =>
      rw [if_pos (and_pagePresent_eq_zero_iff.mpr hpresent)]
      exact habsent (hnext.trans (Machine.child_eq_none_iff.mpr hpresent)) hpresent
  | true =>
      rw [if_neg fun hzero => by
        rw [and_pagePresent_eq_zero_iff, hpresent] at hzero
        cases hzero]
      exact hfound (hnext.trans (Machine.child_eq_some_iff.mpr ⟨hpresent, rfl⟩)) hpresent

/-- A walk that stops early gives the page no last-level entry. -/
theorem leaf_eq_zero_of_walk {q : List Index} (hpre : q <+: page.path)
    (hwalk : walk s.child pml4 q = none) : s.leaf pml4 page = 0#64 := by
  obtain ⟨rest, hrest⟩ := hpre
  rw [Machine.leaf, ← hrest, Trie.walk_append, hwalk]
  rfl

/-- The guarantee allows what a descent from a root does: it reads entries of the tables there. -/
structure ReadsTables (guar : Machine → Cmd → Prop) (pml4 : PhysAddr) (s : Machine) : Prop where
  globals : guar s .globals
  load : ∀ path table, path.length ≤ 3 → walk s.child pml4 path = some table → ∀ i : Index,
    guar s (.load64 (entryPtr (s.globals.hhdmPhysToVirt table) (i.setWidth 64)))

theorem Tables.readsTables (h : Tables live s) (hlive : pml4 ∈ live)
    (hguar : ∀ c : Cmd, c.Tracked s.globals → guar s c) : ReadsTables guar pml4 s where
  globals := hguar _ ⟨fun _ hb => hb.elim, id⟩
  load path table hlength hwalk i := by
    have hframe := h.frame table ⟨pml4, hlive, path, hlength, hwalk⟩
    exact hguar _ ⟨fun _ hb => tracked_entryPtr hframe.aligned hframe.tracked i hb, id⟩

/-- The descent arrives exactly when the page's last-level entry is present, whatever memory
holds. -/
theorem wp_pagingDescend {α : Type} {virtAddr : VirtAddr} {absent : Kernel α}
    {found : Globals → PhysAddr → Kernel α} (hreads : ReadsTables guar pml4 s)
    {post : α → Machine → Prop}
    (habsent : (s.leaf pml4 (pageOf virtAddr)).getLsbD 0 = false →
      Prog.Wp exec guar absent s post)
    (hfound : ∀ table, walk s.child pml4 (pageOf virtAddr).path = some table →
      s.leaf pml4 (pageOf virtAddr) = s.entry table (tableIndex 0 virtAddr) →
      (s.leaf pml4 (pageOf virtAddr)).getLsbD 0 = true →
      Prog.Wp exec guar (found s.globals table) s post) :
    Prog.Wp exec guar (pagingDescend pml4 virtAddr absent found) s post := by
  have hstop : ∀ q, q <+: (pageOf virtAddr).path → walk s.child pml4 q = none →
      Prog.Wp exec guar absent s post := by
    intro q hq hnone
    refine habsent ?_
    rw [leaf_eq_zero_of_walk hq hnone, BitVec.getLsbD_zero]
  rw [path_pageOf] at hstop
  have hroot : walk s.child pml4 [] = some pml4 := rfl
  rw [pagingDescend, Prog.wp_bind, wp_getGlobals, pml4Index_eq, pdptIndex_eq, pdIndex_eq,
    ptIndex_eq]
  refine ⟨hreads.globals, ?_⟩
  refine wp_pagingDescend_level hroot _ (hreads.load _ _ (by simp) hroot _)
    (fun hnone _ => hstop _ ⟨_, rfl⟩ hnone) fun hpdpt _ => ?_
  refine wp_pagingDescend_level hpdpt _ (hreads.load _ _ (by simp) hpdpt _)
    (fun hnone _ => hstop _ ⟨_, rfl⟩ hnone) fun hpd _ => ?_
  refine wp_pagingDescend_level hpd _ (hreads.load _ _ (by simp) hpd _)
    (fun hnone _ => hstop _ ⟨_, rfl⟩ hnone) fun hpt _ => ?_
  have hwalk : walk s.child pml4 (pageOf virtAddr).path = some _ :=
    (congrArg (walk s.child pml4) (path_pageOf virtAddr)).trans hpt
  have hleaf : ∀ table, walk s.child pml4 (pageOf virtAddr).path = some table →
      s.leaf pml4 (pageOf virtAddr) = s.entry table (tableIndex 0 virtAddr) := by
    intro table htable
    rw [Machine.leaf, htable, slot_pageOf]
  refine wp_pagingDescend_level hpt _ (hreads.load _ _ (by simp) hpt _) (fun _ hbit => habsent ?_)
    fun _ hbit => hfound _ hwalk (hleaf _ hwalk) ?_
  · rwa [hleaf _ hwalk]
  · rwa [hleaf _ hwalk]

/-! ### `paging_unmap` and the two queries -/

/-- The page is not mapped, or an argument is misaligned: nothing changes. Otherwise its last-level
entry is cleared. -/
theorem wp_pagingUnmap (h : Tables live s) (hlive : pml4 ∈ live) {virtAddr : VirtAddr}
    (hguar : ∀ c : Cmd, c.Tracked s.globals → guar s c)
    (hflush : ∀ t, Edited live pml4 (pageOf virtAddr) 0#64 s t → guar t (.invlpg virtAddr))
    {post : Unit → Machine → Prop}
    (hrefused : ¬ IsPageAligned virtAddr → post () s)
    (habsent : IsPageAligned virtAddr → (s.leaf pml4 (pageOf virtAddr)).getLsbD 0 = false →
      post () s)
    (hpost : IsPageAligned virtAddr → ∀ t, Edited live pml4 (pageOf virtAddr) 0#64 s t →
      post () t) :
    Prog.Wp exec guar (pagingUnmap pml4 virtAddr) s post := by
  have haligned := h.isPageAligned hlive
  rw [pagingUnmap_eq, if_neg (not_not_intro haligned)]
  by_cases hvirt : IsPageAligned virtAddr
  · rw [if_neg (not_not_intro hvirt)]
    refine wp_pagingDescend (h.readsTables hlive hguar) (fun hbit => ?_)
      fun table hwalk _ _ => ?_
    · rw [wp_klogf]
      exact ⟨hguar _ ⟨fun _ hb => hb.elim, id⟩, habsent hvirt hbit⟩
    · have hframe := h.frame table ⟨pml4, hlive, _, (pageOf virtAddr).length_path.le, hwalk⟩
      have hedited : Edited live pml4 (pageOf virtAddr) 0#64 s
          (s.setEntry table (tableIndex 0 virtAddr) 0#64) :=
        ⟨s, table, h.grows_refl _ _, hwalk, by rw [slot_pageOf]⟩
      rw [ptIndex_eq, Prog.wp_bind, wp_store64_entry rfl, wp_invlpg]
      exact ⟨hguar _ ⟨fun _ hb => tracked_entryPtr hframe.aligned hframe.tracked _ hb, id⟩,
        hflush _ hedited, hpost hvirt _ hedited⟩
  · rw [if_pos hvirt, wp_klogf]
    exact ⟨hguar _ ⟨fun _ hb => hb.elim, id⟩, hrefused hvirt⟩

theorem wp_pagingIsMapped (haligned : IsPageAligned pml4) (hreads : ReadsTables guar pml4 s)
    {virtAddr : VirtAddr} {post : Bool → Machine → Prop}
    (hpost : post ((s.leaf pml4 (pageOf virtAddr)).getLsbD 0) s) :
    Prog.Wp exec guar (pagingIsMapped pml4 virtAddr) s post := by
  rw [pagingIsMapped_eq, if_neg (not_not_intro haligned)]
  refine wp_pagingDescend hreads (fun hbit => ?_) fun table _ _ hbit => ?_
  · rwa [hbit] at hpost
  · rwa [hbit] at hpost

/-- The result of `paging_get_physical`, from the last-level entry of the page. -/
def physicalOf (leaf : BitVec 64) (virtAddr : VirtAddr) : PhysAddr :=
  if leaf.getLsbD 0 then (leaf &&& physAddrMask) ||| pageOffset virtAddr else pmmInvalidAddress

theorem wp_pagingGetPhysical (haligned : IsPageAligned pml4) (hreads : ReadsTables guar pml4 s)
    {virtAddr : VirtAddr} {post : PhysAddr → Machine → Prop}
    (hpost : post (physicalOf (s.leaf pml4 (pageOf virtAddr)) virtAddr) s) :
    Prog.Wp exec guar (pagingGetPhysical pml4 virtAddr) s post := by
  rw [pagingGetPhysical_eq, if_neg (not_not_intro haligned)]
  rw [physicalOf] at hpost
  refine wp_pagingDescend hreads (fun hbit => ?_) fun table hwalk hleaf hbit => ?_
  · rwa [hbit] at hpost
  · -- The last-level entry is read a second time, and is the one tested.
    rw [hbit, if_pos rfl, hleaf] at hpost
    rw [ptIndex_eq, Prog.wp_bind, wp_load64_entry rfl]
    exact ⟨hreads.load _ table (pageOf virtAddr).length_path.le hwalk _, hpost⟩

end

end RainstormOs
