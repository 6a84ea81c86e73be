import RainstormOs.Proof.Boot

/-!
# Who owns a frame

A frame is a table of a live address space, in a client's hands, part of the allocator's bitmap, or
none of these, and never two of them at once. Among the tables every one but a PML4 has one parent
entry; only the tables of the shared half have one in each PML4, in the same slot.
-/

namespace RainstormOs

open Trie (walk Reaches)

/-- The frames of the live spaces, of the clients and of the bitmap in one state. -/
structure FrameOwnership (live : Set PhysAddr) (held : Finset Nat) (s : Machine) : Prop where
  /-- A table below the roots is pointed to by one entry, or by one shared slot of every root. -/
  parent : ∀ table, Reaches s.child live 3 table → table ∉ live →
    (∃! entry : PhysAddr × Index,
        Reaches s.child live 2 entry.1 ∧ s.child entry.1 entry.2 = some table)
      ∨ ∃ i ∈ kernelSlots, ∀ parent j, Reaches s.child live 2 parent →
          (s.child parent j = some table ↔ parent ∈ live ∧ j = i)
  root : ∀ pml4 ∈ live, ∀ parent i, Reaches s.child live 2 parent → s.child parent i ≠ some pml4
  aligned : ∀ table, Reaches s.child live 3 table → IsPageAligned table
  /-- The bitmap has a bit for every table, and it is set. -/
  tracked : ∀ table, Reaches s.child live 3 table →
    frameOf table < s.globals.totalFrames.toNat
  allocated : ∀ table, Reaches s.child live 3 table → s.frameBit (frameOf table) = true
  not_free : ∀ table, Reaches s.child live 3 table →
    (pmmIsFrameFree table).run s = some (false, s)
  table_not_held : ∀ table, Reaches s.child live 3 table → frameOf table ∉ held
  table_not_bitmap : ∀ table, Reaches s.child live 3 table →
    ¬ s.globals.IsBitmapFrame (frameOf table)
  held_not_bitmap : ∀ f ∈ held, ¬ s.globals.IsBitmapFrame f

section

variable {live : Set PhysAddr} {s : Machine}

theorem Forest.child_ne_root (h : Forest live s) {pml4 parent : PhysAddr} (hlive : pml4 ∈ live)
    {i : Index} (hreach : Reaches s.child live 2 parent) : s.child parent i ≠ some pml4 := by
  intro hchild
  obtain ⟨root, hroot, q, hq, hwalk⟩ := hreach
  have hbelow : walk s.child root (q ++ [i]) = some pml4 :=
    Trie.walk_concat_eq_some.mpr ⟨parent, hwalk, hchild⟩
  have hempty : ([] : List Index).length ≤ 3 := by simp
  have hlength := h.length_eq hroot hlive (by simp; omega) hempty hbelow
    (rfl : walk s.child pml4 [] = some pml4)
  simp at hlength

theorem Forest.path_eq (h : Forest live s) {root root' parent parent' table : PhysAddr}
    (hroot : root ∈ live) (hroot' : root' ∈ live) {q q' : List Index} {i i' : Index}
    (hq : q.length ≤ 2) (hq' : q'.length ≤ 2) (hwalk : walk s.child root q = some parent)
    (hwalk' : walk s.child root' q' = some parent') (hchild : s.child parent i = some table)
    (hchild' : s.child parent' i' = some table) :
    (q = q' ∧ i = i') ∧ (root = root' ∨ ∃ k ∈ kernelSlots, (q ++ [i]).head? = some k) := by
  have hbelow := Trie.walk_concat_eq_some.mpr ⟨parent, hwalk, hchild⟩
  have hbelow' := Trie.walk_concat_eq_some.mpr ⟨parent', hwalk', hchild'⟩
  obtain ⟨hpath, hroots⟩ := h.separated root hroot root' hroot' (q ++ [i]) (q' ++ [i'])
    (by simp; omega) (by simp; omega) table hbelow hbelow'
  obtain ⟨hfront, hback⟩ := List.append_inj' hpath rfl
  exact ⟨⟨hfront, by simpa using hback⟩, hroots⟩

/-- The tables form a forest, once the shared half is counted once. -/
theorem Tables.exists_parent (h : Tables live s) {table : PhysAddr}
    (hreach : Reaches s.child live 3 table) (hnot : table ∉ live) :
    (∃! entry : PhysAddr × Index,
        Reaches s.child live 2 entry.1 ∧ s.child entry.1 entry.2 = some table)
      ∨ ∃ i ∈ kernelSlots, ∀ parent j, Reaches s.child live 2 parent →
          (s.child parent j = some table ↔ parent ∈ live ∧ j = i) := by
  obtain ⟨root, hroot, path, hlength, hwalk⟩ := hreach
  induction path using List.reverseRecOn with
  | nil =>
      obtain rfl : root = table := Option.some.inj hwalk
      exact absurd hroot hnot
  | append_singleton q i _ =>
      rw [List.length_append, List.length_singleton] at hlength
      obtain ⟨parent, hparent, hchild⟩ := Trie.walk_concat_eq_some.mp hwalk
      by_cases hshared : q = [] ∧ i ∈ kernelSlots
      · -- The table hangs directly below a shared slot.
        obtain ⟨rfl, hi⟩ := hshared
        obtain rfl : root = parent := Option.some.inj hparent
        right
        refine ⟨i, hi, ?_⟩
        rintro parent' j ⟨root', hroot', q', hq', hwalk'⟩
        constructor
        · intro hchild'
          obtain ⟨⟨rfl, rfl⟩, -⟩ := h.path_eq hroot hroot' (by simp) hq' hparent hwalk' hchild
            hchild'
          obtain rfl : root' = parent' := Option.some.inj hwalk'
          exact ⟨hroot', rfl⟩
        · rintro ⟨hlive, rfl⟩
          obtain ⟨slot, hslot⟩ := h.slots j hi
          rw [hslot parent' hlive, ← hslot root hroot, hchild]
      · left
        refine ⟨(parent, i), ⟨⟨root, hroot, q, by omega, hparent⟩, hchild⟩, ?_⟩
        rintro ⟨parent', i'⟩ ⟨⟨root', hroot', q', hq', hwalk'⟩, hchild'⟩
        obtain ⟨⟨rfl, rfl⟩, hroots⟩ := h.path_eq hroot hroot' (by omega) hq' hparent hwalk' hchild
          hchild'
        have hsame : walk s.child root q = walk s.child root' q := by
          obtain rfl | ⟨k, hk, hhead⟩ := hroots
          · rfl
          · cases q with
            | nil =>
                obtain rfl : i = k := by simpa using hhead
                exact absurd ⟨rfl, hk⟩ hshared
            | cons k' q =>
                obtain rfl : k' = k := by simpa using hhead
                exact h.walk_kernel hroot hroot' hk q
        obtain rfl : parent' = parent :=
          Option.some.inj (hwalk'.symm.trans (hsame.symm.trans hparent))
        rfl

theorem Consistent.frameOwnership {kernelPml4 : PhysAddr} {clients : Clients}
    (h : Consistent kernelPml4 clients s) : FrameOwnership clients.live clients.held s where
  parent table hreach hnot := h.tables.exists_parent hreach hnot
  root pml4 hlive parent i hreach := h.tables.child_ne_root hlive hreach
  aligned table hreach := (h.tables.frame table hreach).aligned
  tracked table hreach := (h.tables.frame table hreach).tracked
  allocated table hreach := (h.tables.frame table hreach).allocated
  not_free table hreach := by
    have hframe := h.tables.frame table hreach
    have hrun := pmmIsFrameFree_run h.tables.layout.fits hframe.tracked
    rw [frameAddr_frameOf hframe.aligned, hframe.allocated] at hrun
    exact hrun
  table_not_held table hreach hheld := (h.held _ hheld).2.2.2 table hreach rfl
  table_not_bitmap table hreach := (h.tables.frame table hreach).not_bitmap
  held_not_bitmap f hf := (h.held f hf).2.2.1

end

/-- **Frame ownership.** In every state reached after `memory_init` by any calls of the two memory
managers, whatever addresses and flags they are given, the tables of the live spaces form a forest
of allocated frames, and no frame is a table and held, or a table and part of the bitmap, or held
and part of the bitmap. -/
theorem run_frameOwnership {memmap : List LimineMemmapEntry} (h : LimineMemmap memmap)
    {hhdmOffset : BitVec 64} {kernelPhysicalBase : PhysAddr} {kernelVirtualBase : VirtAddr}
    {symbols : LinkerSymbols} {boot s0 s : Machine} {kernelPml4 : PhysAddr}
    {rule : Machine → Op → Prop} {history : List Event} {clients : Clients}
    (hboot : (memoryInit memmap hhdmOffset kernelPhysicalBase kernelVirtualBase symbols).run boot
      = some (kernelPml4, s0))
    (hrun : Run kernelPml4 rule s0 history clients s) :
    FrameOwnership clients.live clients.held s := by
  obtain ⟨_, hinit⟩ := memoryInit_initialised h hboot
  exact (hrun.consistent hinit.paging.consistent).frameOwnership

theorem run_frameOwnership_bootMemmap :
    ∃ kernelPml4 s0 pml4 clients s,
      (memoryInit bootMemmap 0xFFFF800000000000#64 bootPhysicalBase bootVirtualBase
        bootSymbols).run bareMachine = some (kernelPml4, s0)
      ∧ pml4 ∈ clients.live
      ∧ Run kernelPml4 (fun _ _ => True) s0 [.created pml4, .mapped pml4 0x400000#64 0x5000#64
          (pagePresent ||| pageWritable ||| pageUser ||| pageNoExecute)] clients s
      ∧ FrameOwnership clients.live clients.held s := by
  obtain ⟨_, kernelPml4, s0, pml4, clients, s, -, -, hboot, hlive, hrun⟩ :=
    exists_run_bootMemmap (fun _ _ => True) (fun _ => trivial) fun _ _ _ _ => trivial
  exact ⟨kernelPml4, s0, pml4, clients, s, hboot, hlive, hrun,
    run_frameOwnership bootMemmap_ok hboot hrun⟩

end RainstormOs
