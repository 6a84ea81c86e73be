import RainstormOs.Proof.Tables
import Mathlib.Data.Finset.Card

/-!
# Growing the tables

`paging_map` descends three levels with one repeated block that creates the table it does not find.
The block is given one rule. Whatever happens inside, every state it passes through satisfies the
invariant of the tables and translates every page as before; when it returns, the path is one index
longer, and the frames it took from the allocator are exactly the tables it linked.
-/

namespace RainstormOs

open Trie (walk Reaches)

/-! ### The memory a command touches -/

/-- The command reads or writes the byte at a virtual address. -/
def Cmd.Touches : Cmd → VirtAddr → Prop
  | .load8 addr, byte => byte = addr
  | .store8 addr _, byte => byte = addr
  | .load64 addr, byte => ∃ k, k < 8 ∧ byte = addr + BitVec.ofNat 64 k
  | .store64 addr _, byte => ∃ k, k < 8 ∧ byte = addr + BitVec.ofNat 64 k
  | _, _ => False

/-- Commands that change more than memory, or stop the machine. -/
def Cmd.IsControl : Cmd → Prop
  | .setGlobals _ => True
  | .kpanic _ => True
  | .writeCr3 _ => True
  | .enableNxe => True
  | _ => False

/-- The command stays inside tracked frames, seen through the direct map. -/
structure Cmd.Tracked (g : Globals) (c : Cmd) : Prop where
  touches : ∀ byte, c.Touches byte → frameOf (g.hhdmVirtToPhys byte) < g.totalFrames.toNat
  plain : ¬ c.IsControl

theorem PmmCommand.tracked {g : Globals} (hlayout : g.PmmLayout) {c : Cmd} (h : PmmCommand g c) :
    c.Tracked g := by
  have hbyte : ∀ k, k < g.bitmapSize.toNat →
      frameOf (g.hhdmVirtToPhys (g.bitmapStart + BitVec.ofNat 64 k)) < g.totalFrames.toNat := by
    intro k hk
    have hin := (hlayout.byte hk).2.2
    have htracked := hlayout.tracked
    rw [hhdmVirtToPhys_bitmapStart_add]
    omega
  cases h with
  | globals => exact ⟨fun _ h => h.elim, id⟩
  | klogf => exact ⟨fun _ h => h.elim, id⟩
  | load8 hk => exact ⟨fun byte h => h ▸ hbyte _ hk, id⟩
  | store8 _ hk => exact ⟨fun byte h => h ▸ hbyte _ hk, id⟩

theorem tracked_entryPtr {g : Globals} {table : PhysAddr} (haligned : IsPageAligned table)
    (htracked : frameOf table < g.totalFrames.toNat) (i : Index) {byte : VirtAddr}
    (hbyte : ∃ k, k < 8 ∧
      byte = entryPtr (g.hhdmPhysToVirt table) (i.setWidth 64) + BitVec.ofNat 64 k) :
    frameOf (g.hhdmVirtToPhys byte) < g.totalFrames.toNat := by
  obtain ⟨k, hk, rfl⟩ := hbyte
  rw [hhdmVirtToPhys_add, hhdmVirtToPhys_entryPtr, frameOf_entryAddr_add haligned i hk]
  exact htracked

section Entries

variable {guar : Machine → Cmd → Prop} {s : Machine} {g : Globals} {table : PhysAddr} {i : Index}

theorem wp_load64_entry (hg : s.globals = g) {post : BitVec 64 → Machine → Prop} :
    Prog.Wp exec guar (load64 (entryPtr (g.hhdmPhysToVirt table) (i.setWidth 64))) s post ↔
      guar s (.load64 (entryPtr (g.hhdmPhysToVirt table) (i.setWidth 64)))
        ∧ post (s.entry table i) s := by
  rw [wp_load64, hg, hhdmVirtToPhys_entryPtr, Machine.entry]

theorem wp_store64_entry (hg : s.globals = g) {word : BitVec 64} {post : Unit → Machine → Prop} :
    Prog.Wp exec guar (store64 (entryPtr (g.hhdmPhysToVirt table) (i.setWidth 64)) word) s post ↔
      guar s (.store64 (entryPtr (g.hhdmPhysToVirt table) (i.setWidth 64)) word)
        ∧ post () (s.setEntry table i word) := by
  subst hg
  rw [wp_store64, hhdmVirtToPhys_entryPtr, Machine.setEntry]

end Entries

/-! ### Counting frames -/

/-- How many frames the allocator can still hand out. -/
def Machine.freeCount (s : Machine) : Nat :=
  ((Finset.range s.globals.totalFrames.toNat).filter fun f => s.frameBit f = false).card

/-- Free frames together with the tables that exist on a set of paths. Creating a table on one of
them moves a frame from one side to the other. -/
def Machine.potential (s : Machine) (pml4 : PhysAddr) (paths : Finset (List Index)) : Nat :=
  s.freeCount + (paths.filter fun q => (walk s.child pml4 q).isSome).card

/-- What adding tables along a path of one address space does. -/
structure Grows (live : Set PhysAddr) (pml4 : PhysAddr) (path : List Index) (s t : Machine) :
    Prop where
  tables : Tables live t
  evolves : Evolves live s t
  walks : ∀ pml4' ∈ live, ∀ q : List Index, q.length ≤ 3 → ∀ table,
    walk t.child pml4' q = some table →
      walk s.child pml4' q = some table
        ∨ (s.IsFree (frameOf table) ∧ q <+: path
          ∧ (pml4' = pml4 ∨ ∃ i ∈ kernelSlots, q.head? = some i))
  bits : ∀ f, f / 8 < s.globals.bitmapSize.toNat →
    (t.frameBit f = true ↔
      s.frameBit f = true ∨ ∃ table, frameOf table = f ∧ Reaches t.child live 3 table)
  count : ∀ paths : Finset (List Index), (∀ q ∈ paths, q.length ≤ 3) →
    (∀ q, q <+: path → q ∈ paths) → t.potential pml4 paths = s.potential pml4 paths

section

variable {live : Set PhysAddr} {pml4 : PhysAddr} {path path' : List Index} {s t u : Machine}

theorem Tables.grows_refl (h : Tables live s) (pml4 : PhysAddr) (path : List Index) :
    Grows live pml4 path s s where
  tables := h
  evolves := Evolves.refl live s
  walks _ _ _ _ _ hwalk := Or.inl hwalk
  bits f _ := by
    refine ⟨Or.inl, ?_⟩
    rintro (hbit | ⟨table, rfl, hreach⟩)
    · exact hbit
    · exact (h.frame table hreach).allocated
  count _ _ _ := rfl

theorem Grows.mono (h : Grows live pml4 path s t) (hpre : path <+: path') :
    Grows live pml4 path' s t where
  tables := h.tables
  evolves := h.evolves
  walks pml4' hlive q hq table hwalk := by
    obtain hold | ⟨hfree, hpath, hroot⟩ := h.walks pml4' hlive q hq table hwalk
    · exact Or.inl hold
    · exact Or.inr ⟨hfree, hpath.trans hpre, hroot⟩
  bits := h.bits
  count paths hshort hpaths := h.count paths hshort fun q hq => hpaths q (hq.trans hpre)

theorem Grows.isFree (h : Grows live pml4 path s t) (hlayout : s.globals.PmmLayout) {f : Nat}
    (hfree : t.IsFree f) : s.IsFree f := by
  have hglobals := h.evolves.globals
  obtain ⟨hlt, hbit⟩ := hfree
  rw [hglobals] at hlt
  refine ⟨hlt, ?_⟩
  rw [← Bool.not_eq_true] at hbit ⊢
  rw [h.bits f (hlayout.frame_byte hlt)] at hbit
  exact fun hset => hbit (Or.inl hset)

theorem Grows.trans (h : Grows live pml4 path s t) (h' : Grows live pml4 path t u)
    (hlayout : s.globals.PmmLayout) : Grows live pml4 path s u where
  tables := h'.tables
  evolves := h.evolves.trans h'.evolves
  walks pml4' hlive q hq table hwalk := by
    obtain hmid | ⟨hfree, hrest⟩ := h'.walks pml4' hlive q hq table hwalk
    · exact h.walks pml4' hlive q hq table hmid
    · exact Or.inr ⟨h.isFree hlayout hfree, hrest⟩
  bits f hf := by
    rw [h'.bits f (by rwa [h.evolves.globals]), h.bits f hf, or_assoc]
    refine or_congr_right ⟨?_, Or.inr⟩
    rintro (⟨table, hframe, hreach⟩ | hnew)
    · exact ⟨table, hframe, h'.evolves.reaches_mono (Nat.le_refl 3) hreach⟩
    · exact hnew
  count paths hshort hpaths :=
    (h'.count paths hshort hpaths).trans (h.count paths hshort hpaths)

theorem Machine.freeCount_congr (hglobals : t.globals = s.globals)
    (hbits : ∀ f, f < s.globals.totalFrames.toNat → t.frameBit f = s.frameBit f) :
    t.freeCount = s.freeCount := by
  rw [Machine.freeCount, Machine.freeCount, hglobals]
  congr 1
  refine Finset.filter_congr fun f hf => ?_
  rw [hbits f (Finset.mem_range.mp hf)]

theorem Machine.freeCount_of_taken (hglobals : t.globals = s.globals) {f : Nat}
    (hfree : s.IsFree f)
    (hbits : ∀ f', f' < s.globals.totalFrames.toNat →
      (t.frameBit f' = true ↔ s.frameBit f' = true ∨ f' = f)) :
    t.freeCount + 1 = s.freeCount := by
  rw [Machine.freeCount, Machine.freeCount, hglobals]
  have herase : (Finset.range s.globals.totalFrames.toNat).filter (fun f' => t.frameBit f' = false)
      = ((Finset.range s.globals.totalFrames.toNat).filter
          fun f' => s.frameBit f' = false).erase f := by
    ext f'
    rw [Finset.mem_erase, Finset.mem_filter, Finset.mem_filter, Finset.mem_range]
    by_cases hlt : f' < s.globals.totalFrames.toNat
    · rw [← Bool.not_eq_true, ← Bool.not_eq_true, hbits f' hlt]
      tauto
    · tauto
  rw [herase]
  refine Finset.card_erase_add_one ?_
  rw [Finset.mem_filter, Finset.mem_range]
  exact hfree

/-- A frame that becomes a table keeps the potential. -/
theorem Machine.potential_of_link {paths : Finset (List Index)} (hmem : path ∈ paths)
    (hnone : walk s.child pml4 path = none)
    (hwalk : ∀ q ∈ paths, (walk t.child pml4 q).isSome = true ↔
      (walk s.child pml4 q).isSome = true ∨ q = path)
    (hcount : t.freeCount + 1 = s.freeCount) :
    t.potential pml4 paths = s.potential pml4 paths := by
  have hinsert : (paths.filter fun q => (walk t.child pml4 q).isSome)
      = insert path (paths.filter fun q => (walk s.child pml4 q).isSome) := by
    ext q
    rw [Finset.mem_insert, Finset.mem_filter, Finset.mem_filter]
    constructor
    · rintro ⟨hq, hsome⟩
      have := (hwalk q hq).mp hsome
      tauto
    · rintro (rfl | ⟨hq, hsome⟩)
      · exact ⟨hmem, (hwalk q hmem).mpr (Or.inr rfl)⟩
      · exact ⟨hq, (hwalk q hq).mpr (Or.inl hsome)⟩
  have hnot : path ∉ paths.filter fun q => (walk s.child pml4 q).isSome := by
    simp [hnone]
  rw [Machine.potential, Machine.potential, hinsert, Finset.card_insert_of_notMem hnot]
  omega

theorem Machine.freeCount_eq_zero (hfull : ∀ f, ¬ s.IsFree f) : s.freeCount = 0 := by
  rw [Machine.freeCount, Finset.card_eq_zero, Finset.filter_eq_empty_iff]
  intro f hf hbit
  exact hfull f ⟨Finset.mem_range.mp hf, hbit⟩

/-- Without a free frame and with a table still missing, the potential is less than what the paths
need. -/
theorem Machine.potential_lt {paths : Finset (List Index)} (hfull : ∀ f, ¬ s.IsFree f)
    (hmem : path ∈ paths) (hnone : walk s.child pml4 path = none) :
    s.potential pml4 paths < paths.card := by
  have hzero := Machine.freeCount_eq_zero hfull
  have hlt : (paths.filter fun q => (walk s.child pml4 q).isSome).card < paths.card := by
    apply Finset.card_lt_card
    rw [Finset.filter_ssubset]
    exact ⟨path, hmem, by simp [hnone]⟩
  rw [Machine.potential]
  omega

/-! ### Preparing a fresh frame -/

/-- A free frame `f` has been allocated, and since then only its own content has changed. -/
structure TakenFrame (s : Machine) (f : Nat) (t : Machine) : Prop where
  globals : t.globals = s.globals
  cr3 : t.cr3 = s.cr3
  nxe : t.nxe = s.nxe
  mem : ∀ x, frameOf x ≠ f → t.mem x = (s.markFrame f).mem x

theorem TakenFrame.mark (s : Machine) (f : Nat) : TakenFrame s f (s.markFrame f) :=
  ⟨rfl, rfl, rfl, fun _ _ => rfl⟩

theorem fill_of_frame_ne {mem : ByteMemory 64} {base x : PhysAddr} {count : Nat}
    {byte : BitVec 8} (haligned : IsPageAligned base) (hcount : count ≤ 4096)
    (hx : frameOf x ≠ frameOf base) : mem.fill base count byte x = mem x := by
  refine ByteMemory.fill_of_le ?_
  have hlt := x.isLt
  have hlt' := base.isLt
  rw [isPageAligned_iff] at haligned
  unfold frameOf at hx
  rw [BitVec.toNat_sub]
  omega

theorem fill_of_frame_eq {mem : ByteMemory 64} {base x : PhysAddr} {byte : BitVec 8}
    (haligned : IsPageAligned base) (hx : frameOf x = frameOf base) :
    mem.fill base 4096 byte x = byte := by
  refine ByteMemory.fill_of_lt ?_
  have hlt := x.isLt
  rw [isPageAligned_iff] at haligned
  unfold frameOf at hx
  rw [BitVec.toNat_sub]
  omega

section Taken

variable {f : Nat}

theorem TakenFrame.fill (h : TakenFrame s f t) (hf : f < 2 ^ 52) {g : Globals}
    (hg : t.globals = g) {count : Nat} (hcount : count ≤ 4096) (byte : BitVec 8) :
    TakenFrame s f (t.fill (g.hhdmPhysToVirt (frameAddr f)) count byte) where
  globals := h.globals
  cr3 := h.cr3
  nxe := h.nxe
  mem x hx := by
    rw [← h.mem x hx, Machine.fill, hg, hhdmVirtToPhys_physToVirt]
    exact fill_of_frame_ne (isPageAligned_frameAddr hf) hcount
      (by rwa [frameOf_frameAddr hf])

theorem TakenFrame.setEntry (h : TakenFrame s f t) (hf : f < 2 ^ 52) (i : Index)
    (word : BitVec 64) : TakenFrame s f (t.setEntry (frameAddr f) i word) where
  globals := h.globals
  cr3 := h.cr3
  nxe := h.nxe
  mem x hx := by
    rw [← h.mem x hx]
    exact Machine.setEntry_mem_of_frame_ne (isPageAligned_frameAddr hf)
      (by rwa [frameOf_frameAddr hf])

theorem PmmReady.not_bitmap_of_isFree (h : PmmReady s) (hfree : s.IsFree f) :
    ¬ s.globals.IsBitmapFrame f := by
  intro hbitmap
  have hbit := h.bitmap f hbitmap
  rw [hfree.2] at hbit
  cases hbit

theorem TakenFrame.bits (h : TakenFrame s f t) (hready : PmmReady s) (hfree : s.IsFree f)
    {f' : Nat} (hf' : f' / 8 < s.globals.bitmapSize.toNat) :
    t.frameBit f' = true ↔ s.frameBit f' = true ∨ f' = f := by
  have htotal := hready.layout.total_le
  have hsize := hready.layout.size_eq
  have hlt := hfree.1
  have hcongr : t.frameBit f' = (s.markFrame f).frameBit f' := by
    refine Machine.frameBit_congr (s := s.markFrame f) hready.layout h.globals
      (fun x hx => h.mem x ?_) hf'
    rintro rfl
    exact hready.not_bitmap_of_isFree hfree hx
  rw [hcongr, Machine.frameBit_markFrame s (by omega) (by omega), Bool.or_eq_true,
    decide_eq_true_eq]

theorem TakenFrame.ready (h : TakenFrame s f t) (hready : PmmReady s) (hfree : s.IsFree f) :
    PmmReady t where
  layout := by
    rw [h.globals]
    exact hready.layout
  bitmap f' hf' := by
    rw [h.globals] at hf'
    have htracked := hready.layout.tracked
    have hlt := hf'.2
    rw [h.bits hready hfree (hready.layout.frame_byte (by omega))]
    exact Or.inl (hready.bitmap f' hf')

theorem TakenFrame.isTableFrame (h : TakenFrame s f t) (hready : PmmReady s)
    (hfree : s.IsFree f) : t.IsTableFrame (frameAddr f) := by
  have htotal := hready.layout.total_le
  have hlt := hfree.1
  refine ⟨isPageAligned_frameAddr (by omega), ?_, ?_, ?_⟩
  · rwa [h.globals, frameOf_frameAddr (by omega)]
  · rw [frameOf_frameAddr (by omega), h.bits hready hfree (hready.layout.frame_byte hlt)]
    exact Or.inr rfl
  · rw [h.globals, frameOf_frameAddr (by omega)]
    exact hready.not_bitmap_of_isFree hfree

theorem TakenFrame.sameTables (h : TakenFrame s f t) (htables : Forest live s)
    (hfree : s.IsFree f) : SameTables live s t where
  globals := h.globals
  cr3 := h.cr3
  nxe := h.nxe
  mem table hreach x hx := by
    have hne := htables.not_reaches_of_isFree hfree hreach
    rw [h.mem x (by rwa [hx])]
    refine ((BitmapOnly.markFrame htables.layout.fits hfree.1).pmmOnly htables.layout).mem x ?_
    rw [hx]
    exact (htables.frame table hreach).not_bitmap

theorem TakenFrame.forest (h : TakenFrame s f t) (htables : Forest live s) (hfree : s.IsFree f) :
    Forest live t := by
  refine (h.sameTables htables hfree).forest_of_mono htables fun f' hlt hbit => ?_
  rw [h.bits htables.toPmmReady hfree (htables.layout.frame_byte hlt)]
  exact Or.inl hbit

theorem TakenFrame.tables (h : TakenFrame s f t) (htables : Tables live s) (hfree : s.IsFree f) :
    Tables live t :=
  htables.of_child (h.forest htables.toForest hfree)
    ((h.sameTables htables.toForest hfree).child htables.toForest)

end Taken

/-! ### The block of one level -/

section Step

variable {table : PhysAddr} {i : Index}

theorem IsUpperEntry.or_intermediateFlags {entry : BitVec 64} (h : IsUpperEntry entry)
    (hpresent : entry.getLsbD 0 = true) (flags : BitVec 64) :
    IsUpperEntry (entry ||| intermediateFlags flags) := by
  obtain heq | ⟨heq, -⟩ := RainstormOs.or_intermediateFlags h hpresent flags
  · rwa [heq]
  · rw [heq]
    exact h.or_pageUser hpresent

/-- The entry was present: at most the user bit is added. -/
theorem Tables.grows_present (h : Tables live s) (hlive : pml4 ∈ live) (hlength : path.length ≤ 2)
    (hwalk : walk s.child pml4 path = some table) (hpresent : (s.entry table i).getLsbD 0 = true)
    (flags : BitVec 64) :
    Grows live pml4 (path ++ [i]) s
      (s.setEntry table i (s.entry table i ||| intermediateFlags flags)) := by
  have hreach : Reaches s.child live 2 table := ⟨pml4, hlive, path, hlength, hwalk⟩
  have hframe := h.frame table (hreach.mono (by decide))
  have hupper := h.upper table i hreach
  have hgain : s.entry table i ||| intermediateFlags flags = s.entry table i
      ∨ s.entry table i ||| intermediateFlags flags = s.entry table i ||| pageUser :=
    (or_intermediateFlags hupper hpresent flags).imp_right And.left
  have hchild : (s.setEntry table i (s.entry table i ||| intermediateFlags flags)).child table i
      = s.child table i := by
    refine child_of_gained hpresent ?_
    rw [Machine.entry_setEntry_self]
    exact hgain
  have hchildren := h.child_setEntry hreach hchild
  have hbits := fun f hf => Machine.frameBit_setEntry h.layout hframe.aligned hframe.not_bitmap i
    (s.entry table i ||| intermediateFlags flags) (f := f) hf
  have htables := h.setEntry_upper hreach hchild (hupper.or_intermediateFlags hpresent flags)
  refine ⟨htables, h.evolves_setEntry hreach hchild fun _ => hgain, ?_, ?_, ?_⟩
  · intro pml4' hlive' q hq table' hwalk'
    rw [walk_eq_of_child hchildren hlive' hq] at hwalk'
    exact Or.inl hwalk'
  · intro f hf
    rw [hbits f hf]
    refine ⟨Or.inl, ?_⟩
    rintro (hbit | ⟨table', rfl, hreach'⟩)
    · exact hbit
    · rw [← hbits _ hf]
      exact (htables.frame table' hreach').allocated
  · intro paths hshort _
    have hcount := Machine.freeCount_congr (s.setEntry_globals table i _) fun f hf =>
      hbits f (h.layout.frame_byte hf)
    have hpaths : ∀ q ∈ paths, ((walk _ pml4 q).isSome = true ↔ _) := fun q hq => by
      rw [walk_eq_of_child hchildren hlive (hshort q hq)]
    rw [Machine.potential, Machine.potential, hcount, Finset.filter_congr hpaths]

/-- The state in which a new table is ready: its frame allocated and zeroed, its address stored in
the entry without the present bit. -/
def Machine.withFreshTable (s : Machine) (table : PhysAddr) (i : Index) (f : Nat) : Machine :=
  ((s.markFrame f).fill (s.globals.hhdmPhysToVirt (frameAddr f)) 4096 0#8).setEntry table i
    (frameAddr f)

theorem getLsbD_zero_frameAddr {f : Nat} (hf : f < 2 ^ 52) :
    (frameAddr f).getLsbD 0 = false := by
  have haligned := (isPageAligned_iff _).mp (isPageAligned_frameAddr hf)
  rw [BitVec.getLsbD, Nat.testBit_zero, decide_eq_false_iff_not]
  omega

section Fresh

variable {f : Nat}

theorem PmmReady.zeroed (h : PmmReady s) (hfree : s.IsFree f) :
    TakenFrame s f ((s.markFrame f).fill (s.globals.hhdmPhysToVirt (frameAddr f)) 4096 0#8) := by
  have htotal := h.layout.total_le
  have hlt := hfree.1
  exact (TakenFrame.mark s f).fill (by omega) rfl (Nat.le_refl _) 0#8

/-- Storing the bare address of the fresh table over an absent entry. -/
theorem Tables.withFreshTable (h : Tables live s) (hreach : Reaches s.child live 2 table)
    (habsent : s.child table i = none) (hfree : s.IsFree f) :
    Tables live (s.withFreshTable table i f) ∧ Evolves live s (s.withFreshTable table i f)
      ∧ ReadyToLink live (s.withFreshTable table i f) table i (frameAddr f) := by
  have htotal := h.layout.total_le
  have hlt := hfree.1
  have htaken := h.toPmmReady.zeroed hfree
  have hzeroed := htaken.tables h hfree
  have hsame := htaken.sameTables h.toForest hfree
  have hevolves := hsame.evolves h.toForest
  have hreach' := hevolves.reaches_mono (by decide) hreach
  have hentry := hsame.entry h.toForest (hreach.mono (by decide)) i
  have hframe := hzeroed.frame table (hreach'.mono (by decide))
  have hword := getLsbD_zero_frameAddr (f := f) (by omega)
  have hnone : (s.withFreshTable table i f).child table i = none := by
    rw [Machine.child_eq_none_iff, Machine.withFreshTable, Machine.entry_setEntry_self, hword]
  have hchild := hnone.trans ((Machine.child_congr hentry).trans habsent).symm
  have htables := hzeroed.setEntry_upper hreach' hchild fun hpresent => by
    rw [hword] at hpresent
    cases hpresent
  have hevolves' := hzeroed.evolves_setEntry hreach' hchild fun hpresent => by
    rw [hentry, Machine.child_eq_none_iff.mp habsent] at hpresent
    cases hpresent
  refine ⟨htables, hevolves.trans hevolves', hevolves'.reaches_mono (by decide) hreach', hnone,
    hframe.setEntry hzeroed.layout (htaken.isTableFrame h.toPmmReady hfree) i _, ?_, ?_⟩
  · intro hfresh
    have hback := (reaches_iff_of_child (hzeroed.child_setEntry hreach' hchild)
      (Nat.le_refl 3)).mp hfresh
    rw [reaches_iff_of_child (hsame.child h.toForest) (Nat.le_refl 3)] at hback
    exact h.not_reaches_of_isFree hfree hback (frameOf_frameAddr (by omega))
  · intro j
    have hne : frameAddr f = table → j ≠ i := by
      rintro rfl
      exact absurd (frameOf_frameAddr (by omega))
        (h.not_reaches_of_isFree hfree (hreach.mono (by decide)))
    rw [Machine.withFreshTable, Machine.entry_setEntry_of_ne hframe.aligned
      (isPageAligned_frameAddr (by omega)) hne]
    refine ByteMemory.readWord_eq_zero fun k hk => ?_
    rw [Machine.fill, Machine.markFrame_globals, hhdmVirtToPhys_physToVirt]
    exact fill_of_frame_eq (isPageAligned_frameAddr (by omega))
      (frameOf_entryAddr_add (isPageAligned_frameAddr (by omega)) j hk)

theorem Tables.withFreshTable_bits (h : Tables live s) (hreach : Reaches s.child live 2 table)
    (hfree : s.IsFree f) (word : BitVec 64) {f' : Nat}
    (hf' : f' / 8 < s.globals.bitmapSize.toNat) :
    ((s.withFreshTable table i f).setEntry table i word).frameBit f' = true ↔
      s.frameBit f' = true ∨ f' = f := by
  have htaken := h.toPmmReady.zeroed hfree
  have hframe := (htaken.tables h hfree).frame table
    (((htaken.sameTables h.toForest hfree).evolves h.toForest).reaches_mono (by decide)
      (hreach.mono (by decide)))
  have hlayout := (htaken.ready h.toPmmReady hfree).layout
  rw [Machine.frameBit_setEntry (s := s.withFreshTable table i f) hlayout hframe.aligned
      hframe.not_bitmap i word hf', Machine.withFreshTable,
    Machine.frameBit_setEntry hlayout hframe.aligned hframe.not_bitmap i _ hf',
    htaken.bits h.toPmmReady hfree hf']

/-- The walks of the new state: the old ones, and those that end in the new table. -/
theorem Tables.withFreshTable_walk (h : Tables live s) (hlive : pml4 ∈ live)
    (hlength : path.length ≤ 2) (hwalk : walk s.child pml4 path = some table)
    (habsent : s.child table i = none) (hfree : s.IsFree f) {word : BitVec 64}
    (hpresent : word.getLsbD 0 = true) (haddr : word &&& physAddrMask = frameAddr f)
    {pml4' : PhysAddr} (hlive' : pml4' ∈ live) {q : List Index} (hq : q.length ≤ 3)
    (target : PhysAddr) :
    walk ((s.withFreshTable table i f).setEntry table i word).child pml4' q = some target ↔
      walk s.child pml4' q = some target
        ∨ (target = frameAddr f ∧ q = path ++ [i]
          ∧ (pml4' = pml4 ∨ ∃ j ∈ kernelSlots, q.head? = some j)) := by
  have hreach : Reaches s.child live 2 table := ⟨pml4, hlive, path, hlength, hwalk⟩
  obtain ⟨htables, hevolves, hready⟩ := h.withFreshTable hreach habsent hfree
  have htaken := h.toPmmReady.zeroed hfree
  have hzeroed := htaken.tables h hfree
  have hsame := htaken.sameTables h.toForest hfree
  have hreach' := (hsame.evolves h.toForest).reaches_mono (by decide) hreach
  have hchild : (s.withFreshTable table i f).child table i
      = ((s.markFrame f).fill (s.globals.hhdmPhysToVirt (frameAddr f)) 4096 0#8).child table i := by
    rw [hready.absent, Machine.child_congr (hsame.entry h.toForest (hreach.mono (by decide)) i), habsent]
  -- Up to the link itself, every walk is the one of `s`.
  have hwalks : ∀ {root q}, root ∈ live → q.length ≤ 3 →
      walk (s.withFreshTable table i f).child root q = walk s.child root q := by
    intro root q hroot hq
    exact (walk_eq_of_child (hzeroed.child_setEntry hreach' hchild) hroot hq).trans
      (walk_eq_of_child (hsame.child h.toForest) hroot hq)
  rw [(hready.linked htables.toForest hpresent haddr).walk_iff hlive' (by omega), hwalks hlive' hq]
  refine or_congr_right (and_congr_right fun htarget => ?_)
  constructor
  · rintro ⟨p, rfl, hp⟩
    rw [List.length_append, List.length_singleton] at hq
    rw [hwalks hlive' (by omega)] at hp
    obtain ⟨rfl, hroots⟩ :=
      h.separated pml4' hlive' pml4 hlive p path (by omega) (by omega) table hp hwalk
    refine ⟨rfl, hroots.imp_right ?_⟩
    rintro ⟨j, hj, hhead⟩
    refine ⟨j, hj, ?_⟩
    cases p with
    | nil => cases hhead
    | cons k p => exact hhead
  · rintro ⟨rfl, hroots⟩
    refine ⟨path, rfl, ?_⟩
    rw [hwalks hlive' (by omega)]
    obtain rfl | ⟨j, hj, hhead⟩ := hroots
    · exact hwalk
    · cases path with
      | nil =>
          -- A shared slot is present in every live space, so it is not the one being linked.
          obtain ⟨slot, hslot⟩ := h.slots j hj
          obtain rfl : i = j := by simpa using hhead
          obtain rfl : pml4 = table := Option.some.inj hwalk
          rw [hslot pml4 hlive] at habsent
          cases habsent
      | cons k path =>
          obtain rfl : k = j := by simpa using hhead
          rw [h.walk_kernel hlive' hlive hj, hwalk]

/-- The entry was absent: one frame is taken and linked. -/
theorem Tables.grows_absent (h : Tables live s) (hlive : pml4 ∈ live) (hlength : path.length ≤ 2)
    (hwalk : walk s.child pml4 path = some table) (habsent : s.child table i = none)
    (hfree : s.IsFree f) (flags : BitVec 64) :
    Grows live pml4 (path ++ [i]) s ((s.withFreshTable table i f).setEntry table i
      (frameAddr f ||| intermediateFlags flags)) := by
  have htotal := h.layout.total_le
  have hlt := hfree.1
  have hreach : Reaches s.child live 2 table := ⟨pml4, hlive, path, hlength, hwalk⟩
  obtain ⟨htables, hevolves, hready⟩ := h.withFreshTable hreach habsent hfree
  have hself := frameAddr_and_physAddrMask (show f < 2 ^ 40 by omega)
  have hflags := intermediateFlags_and_physAddrMask flags
  have hpresent : (frameAddr f ||| intermediateFlags flags).getLsbD 0 = true := by
    obtain ⟨-, heq⟩ | ⟨-, heq⟩ := intermediateFlags_cases flags <;>
      rw [BitVec.getLsbD_or, heq] <;> simp
  have haddr := or_and_physAddrMask hself hflags
  have hupper : IsUpperEntry (frameAddr f ||| intermediateFlags flags) := by
    intro _
    rw [entryFlags_or hself hflags]
    exact (intermediateFlags_cases flags).imp And.right And.right
  have hgrown := hready.tables htables hpresent haddr hupper
  have hiff := fun {pml4'} (hlive' : pml4' ∈ live) {q : List Index} (hq : q.length ≤ 3) =>
    h.withFreshTable_walk hlive hlength hwalk habsent hfree hpresent haddr hlive' hq
  have hbits := fun {f'} (hf' : f' / 8 < s.globals.bitmapSize.toNat) =>
    h.withFreshTable_bits (i := i) hreach hfree (frameAddr f ||| intermediateFlags flags) hf'
  have hgrownGlobals : ((s.withFreshTable table i f).setEntry table i
      (frameAddr f ||| intermediateFlags flags)).globals = s.globals := rfl
  have hlast : (path ++ [i]).length ≤ 3 := by
    rw [List.length_append, List.length_singleton]
    omega
  have hnew := (hiff hlive hlast (frameAddr f)).mpr (Or.inr ⟨rfl, rfl, Or.inl rfl⟩)
  refine ⟨hgrown, hevolves.trans (hready.evolves htables.toForest hpresent haddr), ?_, ?_, ?_⟩
  · intro pml4' hlive' q hq target hwalk'
    obtain hold | ⟨rfl, rfl, hroots⟩ := (hiff hlive' hq target).mp hwalk'
    · exact Or.inl hold
    · refine Or.inr ⟨?_, List.prefix_refl _, hroots⟩
      rwa [frameOf_frameAddr (by omega)]
  · intro f' hf'
    constructor
    · intro hbit
      obtain hold | rfl := (hbits hf').mp hbit
      · exact Or.inl hold
      · exact Or.inr ⟨frameAddr f', frameOf_frameAddr (by omega), pml4, hlive, _, hlast, hnew⟩
    · rintro (hold | ⟨target, rfl, hreach'⟩)
      · exact (hbits hf').mpr (Or.inl hold)
      · exact (hgrown.frame target hreach').allocated
  · intro paths hshort hpaths
    have hnone : walk s.child pml4 (path ++ [i]) = none := (Trie.walk_concat hwalk i).trans habsent
    refine Machine.potential_of_link (hpaths _ (List.prefix_refl _)) hnone (fun q hq => ?_)
      (Machine.freeCount_of_taken hgrownGlobals hfree fun f' hlt' =>
        hbits (h.layout.frame_byte hlt'))
    constructor
    · intro hsome
      obtain ⟨target, htarget⟩ := Option.isSome_iff_exists.mp hsome
      obtain hold | ⟨-, rfl, -⟩ := (hiff hlive (hshort q hq) target).mp htarget
      · exact Or.inl (Option.isSome_iff_exists.mpr ⟨target, hold⟩)
      · exact Or.inr rfl
    · rintro (hsome | rfl)
      · obtain ⟨target, htarget⟩ := Option.isSome_iff_exists.mp hsome
        exact Option.isSome_iff_exists.mpr
          ⟨target, (hiff hlive (hshort q hq) target).mpr (Or.inl htarget)⟩
      · exact Option.isSome_iff_exists.mpr ⟨_, hnew⟩

end Fresh

variable {guar : Machine → Cmd → Prop}

/-- The end of the block: the flags are set and the address read back. -/
theorem wp_setFlags {g : Globals} (hg : s.globals = g) {flags : BitVec 64}
    {post : PhysAddr → Machine → Prop}
    (hload : guar s (.load64 (entryPtr (g.hhdmPhysToVirt table) (i.setWidth 64))))
    (hstore : guar s (.store64 (entryPtr (g.hhdmPhysToVirt table) (i.setWidth 64))
      (s.entry table i ||| flags)))
    (hreload : guar (s.setEntry table i (s.entry table i ||| flags))
      (.load64 (entryPtr (g.hhdmPhysToVirt table) (i.setWidth 64))))
    (hpost : post ((s.entry table i ||| flags) &&& physAddrMask)
      (s.setEntry table i (s.entry table i ||| flags))) :
    Prog.Wp exec guar
      (do
        let entry ← load64 (entryPtr (g.hhdmPhysToVirt table) (i.setWidth 64))
        store64 (entryPtr (g.hhdmPhysToVirt table) (i.setWidth 64)) (entry ||| flags)
        let entry ← load64 (entryPtr (g.hhdmPhysToVirt table) (i.setWidth 64))
        pure (entry &&& physAddrMask)) s post := by
  simp only [Prog.wp_bind, wp_load64_entry hg, wp_store64_entry hg]
  refine ⟨hload, hstore, ?_⟩
  rw [wp_load64_entry (by exact hg), Machine.entry_setEntry_self]
  exact ⟨hreload, hpost⟩

/-- **One level of the descent.** -/
theorem wp_pagingNextTable (h : Tables live s) (hlive : pml4 ∈ live) (hlength : path.length ≤ 2)
    (hwalk : walk s.child pml4 path = some table) (flags : BitVec 64)
    (hguar : ∀ t c, Tables live t → Evolves live s t → c.Tracked s.globals → guar t c)
    (hpanic : (∀ f, ¬ s.IsFree f) → walk s.child pml4 (path ++ [i]) = none →
      guar s (.kpanic "pmm_alloc_frame: out of memory"))
    {post : PhysAddr → Machine → Prop}
    (hpost : ∀ next t, Grows live pml4 (path ++ [i]) s t →
      walk t.child pml4 (path ++ [i]) = some next →
      (flags.getLsbD 2 = true → (t.entry table i).getLsbD 2 = true) → post next t) :
    Prog.Wp exec guar (pagingNextTable table (i.setWidth 64) (intermediateFlags flags)) s post := by
  have hreach : Reaches s.child live 2 table := ⟨pml4, hlive, path, hlength, hwalk⟩
  have hframe := h.frame table (hreach.mono (by decide))
  have huser : ∀ entry : BitVec 64, flags.getLsbD 2 = true →
      (entry ||| intermediateFlags flags).getLsbD 2 = true := by
    intro entry hflags
    obtain ⟨hno, -⟩ | ⟨-, heq⟩ := intermediateFlags_cases flags
    · rw [hno] at hflags
      cases hflags
    · rw [BitVec.getLsbD_or, heq]
      simp
  have hload : (Cmd.load64 (entryPtr (s.globals.hhdmPhysToVirt table) (i.setWidth 64))).Tracked
      s.globals := ⟨fun _ hb => tracked_entryPtr hframe.aligned hframe.tracked i hb, id⟩
  have hstore : ∀ word, (Cmd.store64 (entryPtr (s.globals.hhdmPhysToVirt table) (i.setWidth 64))
      word).Tracked s.globals :=
    fun _ => ⟨fun _ hb => tracked_entryPtr hframe.aligned hframe.tracked i hb, id⟩
  have hnow : ∀ {c : Cmd}, c.Tracked s.globals → guar s c := hguar s _ h (Evolves.refl live s)
  rw [pagingNextTable]
  simp only [Prog.wp_bind, wp_getGlobals]
  refine ⟨hnow ⟨fun _ hb => hb.elim, id⟩, ?_⟩
  rw [wp_load64_entry rfl]
  refine ⟨hnow hload, ?_⟩
  by_cases hpresent : (s.entry table i).getLsbD 0 = true
  · have hgrows := h.grows_present (i := i) hlive hlength hwalk hpresent flags
    rw [if_neg fun hzero => by
      rw [and_pagePresent_eq_zero_iff, hpresent] at hzero
      cases hzero]
    refine wp_setFlags rfl (hnow hload) (hnow (hstore _))
      (hguar _ _ hgrows.tables hgrows.evolves hload) ?_
    have hchild : s.child table i
        = some ((s.entry table i ||| intermediateFlags flags) &&& physAddrMask) := by
      rw [Machine.child_eq_some_iff]
      refine ⟨hpresent, ?_⟩
      obtain heq | ⟨heq, -⟩ := or_intermediateFlags (h.upper table i hreach) hpresent flags
      · rw [heq]
      · rw [heq, or_pageUser_and_physAddrMask]
    refine hpost _ _ hgrows (hgrows.evolves.walk_mono hlive ?_ ?_) ?_
    · rw [List.length_append, List.length_singleton]
      omega
    · exact Trie.walk_concat_eq_some.mpr ⟨table, hwalk, hchild⟩
    · rw [Machine.entry_setEntry_self]
      exact huser _
  · rw [Bool.not_eq_true] at hpresent
    have habsent := Machine.child_eq_none_iff.mpr hpresent
    have hnone : walk s.child pml4 (path ++ [i]) = none := (Trie.walk_concat hwalk i).trans habsent
    rw [if_pos (and_pagePresent_eq_zero_iff.mpr hpresent), Prog.wp_bind]
    refine wp_pmmAllocFrame h.layout.fits (fun c hc => hnow (hc.tracked h.layout))
      (fun hfull => hpanic hfull hnone) fun f hfree _ => ?_
    have htotal := h.layout.total_le
    have hlt := hfree.1
    rw [Prog.wp_bind]
    refine wp_memset (fun k hk => ?_) ?_
    · -- While the frame is zeroed, nothing but the frame itself is in flux.
      have htaken := (TakenFrame.mark s f).fill (by omega) rfl (Nat.le_of_lt hk) 0#8
      refine hguar _ _ (htaken.tables h hfree) ((htaken.sameTables h.toForest hfree).evolves h.toForest)
        ⟨?_, id⟩
      rintro _ rfl
      have hpage : (BitVec.ofNat 64 k).toNat < 4096 := by
        have hk' : k < 4096 := hk
        rw [BitVec.toNat_ofNat]
        omega
      rw [hhdmVirtToPhys_physToVirt_add,
        frameOf_add_of_aligned (isPageAligned_frameAddr (by omega)) hpage,
        frameOf_frameAddr (by omega)]
      exact hlt
    · obtain ⟨htables, hevolves, hready⟩ := h.withFreshTable hreach habsent hfree
      have htaken := h.toPmmReady.zeroed hfree
      have hgrows := h.grows_absent hlive hlength hwalk habsent hfree flags
      have hentry : (s.withFreshTable table i f).entry table i = frameAddr f :=
        Machine.entry_setEntry_self _ _ _ _
      have haddr := or_and_physAddrMask (frameAddr_and_physAddrMask (show f < 2 ^ 40 by omega))
        (intermediateFlags_and_physAddrMask flags)
      rw [Prog.wp_bind, wp_store64_entry (by exact htaken.globals)]
      refine ⟨hguar _ _ (htaken.tables h hfree) ((htaken.sameTables h.toForest hfree).evolves h.toForest)
        (hstore _), ?_⟩
      change Prog.Wp exec guar _ (s.withFreshTable table i f) post
      refine wp_setFlags rfl (hguar _ _ htables hevolves hload)
        (hguar _ _ htables hevolves (hstore _)) ?_ ?_
      · rw [hentry]
        exact hguar _ _ hgrows.tables hgrows.evolves hload
      · rw [hentry, haddr]
        refine hpost _ _ hgrows ?_ ?_
        · rw [Trie.walk_concat_eq_some]
          refine ⟨table, hgrows.evolves.walk_mono hlive (by omega) hwalk, ?_⟩
          rw [Machine.child_eq_some_iff, Machine.entry_setEntry_self]
          refine ⟨?_, haddr⟩
          obtain ⟨-, heq⟩ | ⟨-, heq⟩ := intermediateFlags_cases flags <;>
            rw [BitVec.getLsbD_or, heq] <;> simp
        · rw [Machine.entry_setEntry_self]
          exact huser _

end Step

end

end RainstormOs
