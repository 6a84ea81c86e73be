import RainstormOs.Proof.PagingOps

/-!
# Creating and destroying address spaces

`paging_create_pml4` takes one frame and fills it from the saved kernel half, which adds a root to
the forest of tables. `paging_destroy_pml4` reads the tables of one space while it frees their
frames; nothing it reads is overwritten on the way, since freeing touches the bitmap only, so it
frees exactly the nodes below the root, children first, each of them once.
-/

namespace RainstormOs

open Trie (walk Reaches)

/-- The saved kernel half is what the shared slots of every live space hold. -/
structure Snapshot (live : Set PhysAddr) (s : Machine) : Prop where
  flags : ∀ i, i < 256 → entryFlags (s.globals.kernelPml4Entries i) = 3#64
    ∨ entryFlags (s.globals.kernelPml4Entries i) = 7#64
  child : ∀ i, i < 256 → ∀ pml4 ∈ live, s.child pml4 (BitVec.ofNat 9 (i + 256))
    = some (s.globals.kernelPml4Entries i &&& physAddrMask)

section

variable {live : Set PhysAddr} {pml4 : PhysAddr} {s t : Machine} {f : Nat}
  {guar : Machine → Cmd → Prop}

theorem Snapshot.of_child (h : Snapshot live s) (hglobals : t.globals = s.globals)
    (hchild : ∀ pml4 ∈ live, ∀ i next, s.child pml4 i = some next →
      t.child pml4 i = some next) : Snapshot live t where
  flags i hi := by
    rw [hglobals]
    exact h.flags i hi
  child i hi pml4 hlive := by
    rw [hglobals]
    exact hchild pml4 hlive _ _ (h.child i hi pml4 hlive)

theorem Snapshot.present (h : Snapshot live s) {i : Nat} (hi : i < 256) :
    (s.globals.kernelPml4Entries i).getLsbD 0 = true := by
  rw [← getLsbD_entryFlags (by decide) (Or.inl (by decide))]
  obtain hflags | hflags := h.flags i hi <;> rw [hflags] <;> rfl

/-! ### `paging_create_pml4` -/

/-- The state `paging_create_pml4` returns in, with the frame it took. -/
structure Created (s : Machine) (f : Nat) (t : Machine) : Prop where
  free : s.IsFree f
  taken : TakenFrame s f t
  lower : ∀ i : Index, i ∉ kernelSlots → t.entry (frameAddr f) i = 0#64
  upper : ∀ i : Index, i ∈ kernelSlots →
    t.entry (frameAddr f) i = s.globals.kernelPml4Entries (i.toNat - 256)

theorem wp_pagingCreatePml4 (h : PmmReady s)
    (hguar : ∀ c, PmmCommand s.globals c → guar s c)
    (hpanic : (∀ f, ¬ s.IsFree f) → guar s (.kpanic "pmm_alloc_frame: out of memory"))
    (hfill : ∀ f t c, s.IsFree f → TakenFrame s f t → c.Tracked s.globals → guar t c)
    {post : PhysAddr → Machine → Prop}
    (hpost : ∀ f t, Created s f t → post (frameAddr f) t) :
    Prog.Wp exec guar pagingCreatePml4 s post := by
  rw [pagingCreatePml4, Prog.wp_bind]
  refine wp_pmmAllocFrame h.layout.fits hguar hpanic fun f hfree _ => ?_
  have htotal := h.layout.total_le
  have hlt := hfree.1
  have haligned := isPageAligned_frameAddr (show f < 2 ^ 52 by omega)
  have htracked : frameOf (frameAddr f) < s.globals.totalFrames.toNat := by
    rwa [frameOf_frameAddr (by omega)]
  have hmark := TakenFrame.mark s f
  rw [Prog.wp_bind, wp_getGlobals, Machine.markFrame_globals]
  refine ⟨hfill f _ _ hfree hmark ⟨fun _ hb => hb.elim, id⟩, ?_⟩
  -- One store of either loop, at an index below 512.
  have hstore : ∀ (t : Machine) (i : Nat) (word : BitVec 64) (post : Unit → Machine → Prop),
      i < 512 → TakenFrame s f t → post () (t.setEntry (frameAddr f) (BitVec.ofNat 9 i) word) →
      Prog.Wp exec guar (store64 (entryPtr (s.globals.hhdmPhysToVirt (frameAddr f))
        (BitVec.ofNat 64 i)) word) t post := by
    intro t i word post hi htaken hpost
    rw [ofNat_eq_setWidth hi, wp_store64_entry htaken.globals]
    exact ⟨hfill f _ _ hfree htaken ⟨fun _ hb => tracked_entryPtr haligned htracked _ hb, id⟩,
      hpost⟩
  have hindex : ∀ {i j : Nat}, i < 512 → j < 512 → i ≠ j →
      (BitVec.ofNat 9 i : Index) ≠ BitVec.ofNat 9 j := by
    intro i j hi hj hne heq
    have := congrArg BitVec.toNat heq
    rw [BitVec.toNat_ofNat, BitVec.toNat_ofNat, Nat.mod_eq_of_lt hi, Nat.mod_eq_of_lt hj] at this
    exact hne this
  refine Prog.Wp.bind
    (fun _ t => TakenFrame s f t
      ∧ ∀ j, j < 256 → t.entry (frameAddr f) (BitVec.ofNat 9 j) = 0#64)
    (Prog.wp_forAcc
      (fun i _ t => TakenFrame s f t
        ∧ ∀ j, j < i → t.entry (frameAddr f) (BitVec.ofNat 9 j) = 0#64)
      ⟨hmark, fun j hj => absurd hj (Nat.not_lt_zero j)⟩ ?_ fun _ _ hinv => hinv) ?_
  · rintro i ⟨⟩ t - hi ⟨htaken, hzero⟩
    refine hstore t i _ _ (by omega) htaken ⟨htaken.setEntry (by omega) _ _, fun j hj => ?_⟩
    by_cases heq : j = i
    · rw [heq, Machine.entry_setEntry_self]
    · rw [Machine.entry_setEntry_of_ne haligned haligned
        fun _ => hindex (by omega) (by omega) heq]
      exact hzero j (by omega)
  · rintro ⟨⟩ t ⟨htaken, hzero⟩
    refine Prog.Wp.bind
      (fun _ t => TakenFrame s f t
        ∧ (∀ j, j < 256 → t.entry (frameAddr f) (BitVec.ofNat 9 j) = 0#64)
        ∧ ∀ j, j < 256 → t.entry (frameAddr f) (BitVec.ofNat 9 (j + 256))
            = s.globals.kernelPml4Entries j)
      (Prog.wp_forAcc
        (fun i _ t => TakenFrame s f t
          ∧ (∀ j, j < 256 → t.entry (frameAddr f) (BitVec.ofNat 9 j) = 0#64)
          ∧ ∀ j, j < i → t.entry (frameAddr f) (BitVec.ofNat 9 (j + 256))
              = s.globals.kernelPml4Entries j)
        ⟨htaken, hzero, fun j hj => absurd hj (Nat.not_lt_zero j)⟩ ?_ fun _ _ hinv => hinv) ?_
    · rintro i ⟨⟩ t - hi ⟨htaken, hzero, hcopied⟩
      refine hstore t (i + 256) _ _ (by omega) htaken
        ⟨htaken.setEntry (by omega) _ _, fun j hj => ?_, fun j hj => ?_⟩
      · rw [Machine.entry_setEntry_of_ne haligned haligned
          fun _ => hindex (by omega) (by omega) (by omega)]
        exact hzero j hj
      · by_cases heq : j = i
        · rw [heq, Machine.entry_setEntry_self]
        · rw [Machine.entry_setEntry_of_ne haligned haligned
            fun _ => hindex (by omega) (by omega) (by omega)]
          exact hcopied j (by omega)
    · rintro ⟨⟩ t ⟨htaken, hzero, hcopied⟩
      refine hpost f t ⟨hfree, htaken, fun i hi => ?_, fun i hi => ?_⟩
      · have hlow : i.toNat < 256 := Nat.lt_of_not_le hi
        have hself : BitVec.ofNat 9 i.toNat = i := by simp
        rw [← hself]
        exact hzero i.toNat hlow
      · have hhigh : 256 ≤ i.toNat := hi
        have hmax := i.isLt
        have hself : BitVec.ofNat 9 (i.toNat - 256 + 256) = i := by
          rw [Nat.sub_add_cancel hhigh]
          simp
        rw [← hcopied (i.toNat - 256) (by omega), hself]

theorem Created.not_reaches (h : Created s f t) (htables : Tables live s) :
    ¬ Reaches s.child live 3 (frameAddr f) := by
  have htotal := htables.layout.total_le
  have hlt := h.free.1
  exact fun hreach =>
    htables.not_reaches_of_isFree h.free hreach (frameOf_frameAddr (by omega))

theorem Created.rootAdded (h : Created s f t) (htables : Tables live s) (hsnap : Snapshot live s)
    (hlive : pml4 ∈ live) :
    Trie.RootAdded s.child t.child live kernelSlots 2 pml4 (frameAddr f) where
  old_live := hlive
  copied i hi := by
    have hhigh : 256 ≤ i.toNat := hi
    have hmax := i.isLt
    have hself : BitVec.ofNat 9 (i.toNat - 256 + 256) = i := by
      rw [Nat.sub_add_cancel hhigh]
      simp
    have hold := hsnap.child (i.toNat - 256) (by omega) pml4 hlive
    rw [hself] at hold
    rw [hold, Machine.child_eq_some_iff, h.upper i hi]
    exact ⟨hsnap.present (by omega), rfl⟩
  empty i hi := by
    rw [Machine.child_eq_none_iff, h.lower i hi, BitVec.getLsbD_zero]
  frame table i hreach :=
    (h.taken.sameTables htables.toForest h.free).child htables.toForest table i hreach

theorem Created.reaches (h : Created s f t) (htables : Tables live s) (hsnap : Snapshot live s)
    (hlive : pml4 ∈ live) {depth : Nat} (hdepth : depth ≤ 3) {table : PhysAddr}
    (hreach : Reaches t.child (insert (frameAddr f) live) depth table) :
    table = frameAddr f ∨ Reaches s.child live depth table := by
  have hadd := h.rootAdded htables hsnap hlive
  obtain ⟨root, rfl | hroot, path, hlength, hwalk⟩ := hreach
  · cases path with
    | nil => exact Or.inl (Option.some.inj hwalk).symm
    | cons i path =>
        rw [List.length_cons] at hlength
        rw [hadd.walk_fresh (by omega)] at hwalk
        exact Or.inr ⟨pml4, hlive, i :: path, hlength, hwalk.2⟩
  · rw [hadd.walk_live hroot (by omega)] at hwalk
    exact Or.inr ⟨root, hroot, path, hlength, hwalk⟩

theorem Created.tables (h : Created s f t) (htables : Tables live s) (hsnap : Snapshot live s)
    (hlive : pml4 ∈ live) : Tables (insert (frameAddr f) live) t := by
  have hadd := h.rootAdded htables hsnap hlive
  have hsame := h.taken.sameTables htables.toForest h.free
  have hold := h.taken.tables htables h.free
  have hkeep : ∀ {depth table}, depth ≤ 3 → Reaches s.child live depth table →
      Reaches t.child live depth table := fun hdepth hreach =>
    (hsame.evolves htables.toForest).reaches_mono hdepth hreach
  refine ⟨⟨h.taken.ready htables.toPmmReady h.free, ?_, ?_,
    htables.separated.addRoot hadd (h.not_reaches htables)⟩, ?_⟩
  · intro table hreach
    obtain rfl | hreach := h.reaches htables hsnap hlive (Nat.le_refl 3) hreach
    · exact h.taken.isTableFrame htables.toPmmReady h.free
    · exact hold.frame table (hkeep (Nat.le_refl 3) hreach)
  · intro table i hreach
    obtain rfl | hreach := h.reaches htables hsnap hlive (by decide) hreach
    · by_cases hi : i ∈ kernelSlots
      · have hmax := i.isLt
        rw [h.upper i hi]
        exact fun _ => hsnap.flags _ (by omega)
      · rw [h.lower i hi, IsUpperEntry, BitVec.getLsbD_zero]
        exact fun hfalse => absurd hfalse Bool.false_ne_true
    · exact hold.upper table i (hkeep (by decide) hreach)
  · intro i hi
    obtain ⟨table, htable⟩ := htables.slots i hi
    refine ⟨table, ?_⟩
    rintro root (rfl | hroot)
    · rw [hadd.copied i hi, htable pml4 hlive]
    · rw [hadd.frame root i ⟨root, hroot, [], Nat.zero_le _, rfl⟩, htable root hroot]

theorem Created.snapshot (h : Created s f t) (htables : Tables live s) (hsnap : Snapshot live s)
    (hlive : pml4 ∈ live) : Snapshot (insert (frameAddr f) live) t := by
  have hadd := h.rootAdded htables hsnap hlive
  refine ⟨fun i hi => ?_, ?_⟩
  · rw [h.taken.globals]
    exact hsnap.flags i hi
  · rintro i hi root (rfl | hroot)
    · rw [hadd.copied _ ?_, hsnap.child i hi pml4 hlive, h.taken.globals]
      change 256 ≤ (BitVec.ofNat 9 (i + 256)).toNat
      rw [BitVec.toNat_ofNat]
      omega
    · rw [hadd.frame root _ ⟨root, hroot, [], Nat.zero_le _, rfl⟩, hsnap.child i hi root hroot,
        h.taken.globals]

theorem Created.leaf_fresh (h : Created s f t) (htables : Tables live s) (hsnap : Snapshot live s)
    (hlive : pml4 ∈ live) (page : Page) :
    t.leaf (frameAddr f) page = if page.IsKernel then s.leaf pml4 page else 0#64 := by
  have hadd := h.rootAdded htables hsnap hlive
  have hsame := h.taken.sameTables htables.toForest h.free
  have hwalk : ∀ target, walk t.child (frameAddr f) page.path = some target ↔
      page.IsKernel ∧ walk s.child pml4 page.path = some target := by
    intro target
    rw [page.isKernel_iff]
    exact hadd.walk_fresh (by simp)
  rw [Machine.leaf]
  cases htarget : walk t.child (frameAddr f) page.path with
  | none =>
      change 0#64 = _
      by_cases hkernel : page.IsKernel
      · rw [if_pos hkernel, Machine.leaf]
        cases hold : walk s.child pml4 page.path with
        | none => rfl
        | some target =>
            rw [(hwalk target).mpr ⟨hkernel, hold⟩] at htarget
            cases htarget
      · rw [if_neg hkernel]
  | some target =>
      obtain ⟨hkernel, hold⟩ := (hwalk target).mp htarget
      rw [if_pos hkernel, Machine.leaf, hold]
      exact hsame.entry htables.toForest ⟨pml4, hlive, page.path, page.length_path.le, hold⟩ _

/-! ### `paging_destroy_pml4` -/

/-- The frames of a trace have been freed, and nothing else has happened. -/
structure Freed (s : Machine) (trace : FreeTrace) (t : Machine) : Prop where
  only : PmmOnly s t
  aligned : ∀ step ∈ trace, IsPageAligned step.1
  bits : ∀ f, f < 2 ^ 64 →
    (t.frameBit f = true ↔ s.frameBit f = true ∧ ∀ step ∈ trace, frameOf step.1 ≠ f)

theorem Freed.refl (s : Machine) : Freed s [] s :=
  ⟨PmmOnly.refl s, by simp, by simp⟩

def freedTrace (nodes : List PhysAddr) : FreeTrace := nodes.map fun node => (node, .freed)

theorem map_fst_freedTrace (nodes : List PhysAddr) : (freedTrace nodes).map Prod.fst = nodes := by
  rw [freedTrace, List.map_map]
  exact List.map_id nodes

/-- Freeing one more table, not yet in the trace, succeeds. -/
theorem Freed.step {trace : FreeTrace} {table : PhysAddr} (h : Freed s trace t)
    (hlayout : s.globals.PmmLayout) (htable : s.IsTableFrame table)
    (hnew : table ∉ trace.map Prod.fst) :
    t.freeBranch table = .freed
      ∧ Freed s (trace ++ [(table, .freed)]) (t.afterFree table) := by
  have hlt := frameOf_lt table
  have htracked : frameOf table < t.globals.totalFrames.toNat := by
    rw [h.only.globals]
    exact htable.tracked
  have hset : t.frameBit (frameOf table) = true := by
    rw [h.bits _ (by omega)]
    refine ⟨htable.allocated, fun step hstep heq => hnew ?_⟩
    have hsame : step.1 = table := by
      rw [← frameAddr_frameOf (h.aligned step hstep), heq, frameAddr_frameOf htable.aligned]
    rw [← hsame]
    exact List.mem_map_of_mem hstep
  have hlayout' : t.globals.PmmLayout := by rwa [h.only.globals]
  refine ⟨?_, h.only.trans ((BitmapOnly.afterFree hlayout'.fits table).pmmOnly hlayout'), ?_, ?_⟩
  · rw [Machine.freeBranch_of_tracked htable.aligned htracked, hset]
    rfl
  · intro step hstep
    rw [List.mem_append, List.mem_singleton] at hstep
    obtain hstep | rfl := hstep
    · exact h.aligned step hstep
    · exact htable.aligned
  · intro f hf
    rw [Machine.frameBit_afterFree htable.aligned htracked hf]
    simp only [Bool.and_eq_true, Bool.not_eq_true', decide_eq_false_iff_not, h.bits f hf,
      List.mem_append, List.mem_singleton]
    constructor
    · rintro ⟨⟨hbit, hold⟩, hne⟩
      refine ⟨hbit, ?_⟩
      rintro step (hstep | rfl)
      · exact hold step hstep
      · exact Ne.symm hne
    · rintro ⟨hbit, hall⟩
      exact ⟨⟨hbit, fun step hstep => hall step (Or.inl hstep)⟩,
        Ne.symm (hall (table, .freed) (Or.inr rfl))⟩

def indices (count : Nat) : List Index := (List.range count).map (BitVec.ofNat 9)

theorem indices_succ (count : Nat) :
    indices (count + 1) = indices count ++ [BitVec.ofNat 9 count] := by
  rw [indices, List.range_succ, List.map_append]
  rfl

theorem exists_indices_append {k count : Nat} (hk : k ≤ count) :
    ∃ rest, indices count = indices k ++ rest := by
  obtain ⟨m, rfl⟩ := Nat.exists_eq_add_of_le hk
  rw [indices, List.range_add, List.map_append]
  exact ⟨_, rfl⟩

/-- The loops of `paging_destroy_pml4`, nested to any depth. -/
def freeLevels : List Nat → PhysAddr → FreeTrace → Kernel FreeTrace
  | [] => fun _ freed => pure freed
  | count :: counts => pagingFreeTables count (freeLevels counts)

/-- The tables one entry of a table leads to, in the order they are freed. -/
def Machine.below (s : Machine) (counts : List Nat) (table : PhysAddr) (i : Index) :
    List PhysAddr :=
  match s.child table i with
  | none => []
  | some next => Trie.postorder s.child (counts.map indices) next ++ [next]

theorem postorder_indices (s : Machine) (count : Nat) (counts : List Nat) (table : PhysAddr) :
    Trie.postorder s.child ((count :: counts).map indices) table
      = (indices count).flatMap (s.below counts table) := by
  rw [List.map_cons, Trie.postorder]
  congr 1
  funext i
  rw [Machine.below]
  cases s.child table i <;> rfl

/-- **The nested loops free the tables below a table**, children first, and every free succeeds. -/
theorem wp_freeLevels (hlayout : s.globals.PmmLayout)
    (hguar : ∀ t c, PmmOnly s t → c.Tracked s.globals → guar t c) {counts : List Nat}
    (hcounts : ∀ count ∈ counts, count ≤ 512) {table : PhysAddr} (htable : s.IsTableFrame table)
    {trace : FreeTrace} (hfreed : Freed s trace t)
    (hbelow : ∀ node ∈ Trie.postorder s.child (counts.map indices) table, s.IsTableFrame node)
    (hnodup : (trace.map Prod.fst
      ++ Trie.postorder s.child (counts.map indices) table).Nodup) :
    Prog.Wp exec guar (freeLevels counts table trace) t fun trace' t' =>
      trace' = trace ++ freedTrace (Trie.postorder s.child (counts.map indices) table)
        ∧ Freed s trace' t' := by
  induction counts generalizing table trace t with
  | nil =>
      refine ⟨?_, hfreed⟩
      change trace = trace ++ []
      rw [List.append_nil]
  | cons count counts ih =>
      rw [postorder_indices] at hbelow hnodup ⊢
      have hcount := hcounts count List.mem_cons_self
      rw [freeLevels, pagingFreeTables, Prog.wp_bind, wp_getGlobals, hfreed.only.globals]
      refine ⟨hguar t _ hfreed.only ⟨fun _ hb => hb.elim, id⟩, ?_⟩
      refine Prog.wp_forAcc
        (fun k trace' t' =>
          trace' = trace ++ freedTrace ((indices k).flatMap (s.below counts table))
            ∧ Freed s trace' t')
        ⟨by simp [indices, freedTrace], hfreed⟩ ?_ fun trace' t' hinv => by
          rwa [Nat.zero_add] at hinv
      rintro k trace' t' - hk ⟨rfl, hfreed'⟩
      have hk' : k < 512 := by omega
      have hentry : t'.entry table (BitVec.ofNat 9 k) = s.entry table (BitVec.ofNat 9 k) :=
        Machine.entry_congr htable.aligned
          (fun x hx => hfreed'.only.mem x (by rw [hx]; exact htable.not_bitmap)) _
      have hload : ∀ u, Freed s u t' → guar t' (.load64 (entryPtr
          (s.globals.hhdmPhysToVirt table) ((BitVec.ofNat 9 k : Index).setWidth 64))) :=
        fun u hu => hguar t' _ hu.only
          ⟨fun _ hb => tracked_entryPtr htable.aligned htable.tracked _ hb, id⟩
      -- The part of the enumeration this round is about.
      obtain ⟨rest, hsplit⟩ := exists_indices_append (show k + 1 ≤ count by omega)
      have hround : (indices (k + 1)).flatMap (s.below counts table)
          = (indices k).flatMap (s.below counts table) ++ s.below counts table (BitVec.ofNat 9 k) := by
        rw [indices_succ, List.flatMap_append, List.flatMap_singleton]
      have hmem : ∀ node ∈ s.below counts table (BitVec.ofNat 9 k), s.IsTableFrame node := by
        intro node hnode
        refine hbelow node ?_
        rw [hsplit, List.flatMap_append, hround]
        exact List.mem_append_left _ (List.mem_append_right _ hnode)
      have hdistinct : ((trace ++ freedTrace ((indices k).flatMap (s.below counts table))).map
          Prod.fst ++ s.below counts table (BitVec.ofNat 9 k)).Nodup := by
        rw [List.map_append, map_fst_freedTrace]
        refine hnodup.sublist ?_
        rw [hsplit, List.flatMap_append, hround, List.append_assoc]
        refine List.Sublist.append_left ?_ _
        exact List.sublist_append_left _ _
      rw [ofNat_eq_setWidth hk', Prog.wp_bind, wp_load64_entry hfreed'.only.globals, hentry]
      refine ⟨hload _ hfreed', ?_⟩
      rw [hround]
      rw [Machine.below] at hmem hdistinct ⊢
      by_cases hpresent : (s.entry table (BitVec.ofNat 9 k)).getLsbD 0 = true
      · have hchild := Machine.child_eq_some_iff.mpr ⟨hpresent, rfl⟩
        rw [hchild] at hmem hdistinct ⊢
        rw [if_neg fun hzero => by
          rw [and_pagePresent_eq_zero_iff, hpresent] at hzero
          cases hzero]
        rw [Prog.wp_bind, wp_load64_entry hfreed'.only.globals, hentry]
        refine ⟨hload _ hfreed', ?_⟩
        generalize s.entry table (BitVec.ofNat 9 k) &&& physAddrMask = next at hmem hdistinct ⊢
        simp only [← List.append_assoc] at hdistinct
        refine Prog.Wp.bind _ (ih (fun c hc => hcounts c (List.mem_cons_of_mem _ hc))
          (hmem next (by simp)) hfreed' (fun node hnode => hmem node (by simp [hnode]))
          (hdistinct.sublist (List.sublist_append_left _ _))) ?_
        rintro trace'' u ⟨rfl, hfreed''⟩
        have hnew : next ∉ ((trace ++ freedTrace ((indices k).flatMap (s.below counts table)))
            ++ freedTrace (Trie.postorder s.child (counts.map indices) next)).map Prod.fst := by
          rw [List.map_append, map_fst_freedTrace]
          intro hin
          exact (List.nodup_append.mp hdistinct).2.2 next hin next (by simp) rfl
        obtain ⟨hbranch, hstep⟩ := hfreed''.step hlayout (hmem next (by simp)) hnew
        rw [Prog.wp_bind]
        refine wp_pmmFreeFrame (by rw [hfreed''.only.globals]; exact hlayout.fits)
          (fun c hc => hguar u c hfreed''.only ?_) ?_
        · rw [hfreed''.only.globals] at hc
          exact hc.tracked hlayout
        · rw [hbranch]
          refine ⟨?_, hstep⟩
          simp [freedTrace]
      · rw [Bool.not_eq_true] at hpresent
        have hchild := Machine.child_eq_none_iff.mpr hpresent
        rw [hchild, if_pos (and_pagePresent_eq_zero_iff.mpr hpresent)]
        refine ⟨?_, hfreed'⟩
        rw [List.append_nil]

/-- The tables that belong to one address space alone, in the order `paging_destroy_pml4` frees
them. -/
def Machine.privateTables (s : Machine) (pml4 : PhysAddr) : List PhysAddr :=
  Trie.postorder s.child ([256, 512, 512].map indices) pml4 ++ [pml4]

theorem pml4_mem_privateTables : pml4 ∈ s.privateTables pml4 := by
  rw [Machine.privateTables]
  exact List.mem_append_right _ (List.mem_singleton_self _)

theorem mem_indices {count : Nat} {i : Index} (hcount : count ≤ 512) :
    i ∈ indices count ↔ i.toNat < count := by
  rw [indices, List.mem_map]
  constructor
  · rintro ⟨k, hk, rfl⟩
    rw [List.mem_range] at hk
    rw [BitVec.toNat_ofNat]
    omega
  · intro hi
    exact ⟨i.toNat, List.mem_range.mpr hi, by simp⟩

theorem nodup_indices {count : Nat} (hcount : count ≤ 512) : (indices count).Nodup := by
  refine List.Nodup.map_on ?_ List.nodup_range
  intro j hj k hk heq
  rw [List.mem_range] at hj hk
  have := congrArg BitVec.toNat heq
  rw [BitVec.toNat_ofNat, BitVec.toNat_ofNat] at this
  omega

/-- They are the tables on paths that do not start in the shared half. -/
theorem mem_privateTables {table : PhysAddr} :
    table ∈ s.privateTables pml4 ↔
      ∃ path : List Index, path.length ≤ 3 ∧ walk s.child pml4 path = some table
        ∧ ∀ i, path.head? = some i → i ∉ kernelSlots := by
  rw [Machine.privateTables, List.mem_append, List.mem_singleton]
  constructor
  · rintro (hmem | rfl)
    · obtain ⟨i, hi, path, hlength, hwalk⟩ := Trie.exists_walk_of_mem_postorder hmem
      refine ⟨i :: path, Nat.succ_le_succ hlength, hwalk, ?_⟩
      rintro j hj hkernel
      obtain rfl : i = j := by simpa using hj
      exact absurd ((mem_indices (by decide)).mp hi) (Nat.not_lt.mpr hkernel)
    · exact ⟨[], Nat.zero_le _, rfl, fun i hi => by cases hi⟩
  · rintro ⟨path, hlength, hwalk, hhead⟩
    cases path with
    | nil => exact Or.inr (Option.some.inj hwalk).symm
    | cons i path =>
        have hi : i ∈ indices 256 :=
          (mem_indices (by decide)).mpr (Nat.lt_of_not_le (hhead i rfl))
        refine Or.inl (Trie.mem_postorder_of_walk ?_ hi (Nat.le_of_succ_le_succ hlength) hwalk)
        intro slots hslots j
        have heq : slots = indices 512 := by simpa using hslots
        rw [heq, mem_indices (Nat.le_refl _)]
        exact j.isLt

theorem Tables.nodup_privateTables (h : Tables live s) (hlive : pml4 ∈ live) :
    (s.privateTables pml4).Nodup := by
  have hinj : ∀ path path' : List Index, path.length ≤ 3 → path'.length ≤ 3 → ∀ table,
      walk s.child pml4 path = some table → walk s.child pml4 path' = some table →
        path = path' := by
    intro path path' hlength hlength' table hwalk hwalk'
    exact (h.separated pml4 hlive pml4 hlive path path' hlength hlength' table hwalk hwalk').1
  refine List.nodup_append.mpr ⟨Trie.nodup_postorder ?_ hinj, List.nodup_singleton _, ?_⟩
  · intro slots hslots
    obtain ⟨count, hcount, rfl⟩ := List.mem_map.mp hslots
    refine nodup_indices ?_
    simp only [List.mem_cons, List.not_mem_nil, or_false] at hcount
    omega
  · rintro table hmem root hroot rfl
    rw [List.mem_singleton] at hroot
    subst hroot
    obtain ⟨i, -, path, hlength, hwalk⟩ := Trie.exists_walk_of_mem_postorder hmem
    have := hinj (i :: path) [] (Nat.succ_le_succ hlength) (Nat.zero_le _) table hwalk rfl
    cases this

theorem Tables.isTableFrame_privateTables (h : Tables live s) (hlive : pml4 ∈ live)
    {table : PhysAddr} (hmem : table ∈ s.privateTables pml4) : s.IsTableFrame table := by
  obtain ⟨path, hlength, hwalk, -⟩ := mem_privateTables.mp hmem
  exact h.frame table ⟨pml4, hlive, path, hlength, hwalk⟩

theorem pagingDestroyPml4_eq (pml4Phys : PhysAddr) :
    pagingDestroyPml4 pml4Phys
      = if ¬ IsPageAligned pml4Phys then do
          klogf .error "paging_switch_pml4: pml4 address is not page alligned 0x%p" [pml4Phys]
          pure []
        else (do
          let freed ← freeLevels [256, 512, 512] pml4Phys []
          let branch ← pmmFreeFrame pml4Phys
          pure (freed ++ [(pml4Phys, branch)])) := by
  simp only [pagingDestroyPml4, freeLevels]

/-- **Destroying an address space** frees its private tables, each once, and returns their trace. -/
theorem wp_pagingDestroyPml4 (h : Tables live s) (hlive : pml4 ∈ live)
    (hguar : ∀ t c, PmmOnly s t → c.Tracked s.globals → guar t c)
    {post : FreeTrace → Machine → Prop}
    (hpost : ∀ t, Freed s (freedTrace (s.privateTables pml4)) t →
      post (freedTrace (s.privateTables pml4)) t) :
    Prog.Wp exec guar (pagingDestroyPml4 pml4) s post := by
  have htable := h.isTableFrame_privateTables hlive pml4_mem_privateTables
  have hnodup := h.nodup_privateTables hlive
  have hmem : ∀ node ∈ Trie.postorder s.child ([256, 512, 512].map indices) pml4,
      s.IsTableFrame node := by
    intro node hnode
    refine h.isTableFrame_privateTables hlive ?_
    rw [Machine.privateTables]
    exact List.mem_append_left _ hnode
  have htrace : freedTrace (s.privateTables pml4)
      = freedTrace (Trie.postorder s.child ([256, 512, 512].map indices) pml4)
        ++ [(pml4, .freed)] := by
    rw [Machine.privateTables, freedTrace, freedTrace, List.map_append, List.map_singleton]
  rw [Machine.privateTables] at hnodup
  rw [pagingDestroyPml4_eq, if_neg (not_not_intro htable.aligned)]
  have hlevels : ∀ count ∈ [256, 512, 512], count ≤ 512 := by decide
  generalize [256, 512, 512] = counts at hmem hnodup htrace hlevels ⊢
  obtain ⟨hbelow, -, hroot⟩ := List.nodup_append.mp hnodup
  refine Prog.Wp.bind _ (wp_freeLevels h.layout hguar hlevels htable (Freed.refl s) hmem ?_) ?_
  · rw [List.map_nil, List.nil_append]
    exact hbelow
  rintro trace t ⟨rfl, hfreed⟩
  rw [List.nil_append] at hfreed ⊢
  have hnew : pml4 ∉ (freedTrace (Trie.postorder s.child (counts.map indices) pml4)).map
      Prod.fst := by
    rw [map_fst_freedTrace]
    exact fun hin => hroot pml4 hin pml4 (List.mem_singleton_self _) rfl
  obtain ⟨hbranch, hstep⟩ := hfreed.step h.layout htable hnew
  rw [Prog.wp_bind]
  refine wp_pmmFreeFrame (by rw [hfreed.only.globals]; exact h.layout.fits)
    (fun c hc => hguar t c hfreed.only ?_) ?_
  · rw [hfreed.only.globals] at hc
    exact hc.tracked h.layout
  · rw [hbranch, Prog.pure_eq, Prog.wp_ret, ← htrace]
    rw [← htrace] at hstep
    exact hpost _ hstep

/-- The tables of the other spaces survive. -/
theorem Freed.tables (hfreed : Freed s (freedTrace (s.privateTables pml4)) t)
    (h : Tables live s) (hlive : pml4 ∈ live) : Tables (live \ {pml4}) t := by
  have hrest := h.mono (Set.sdiff_subset : live \ {pml4} ⊆ live)
  have hkept : ∀ f, f < s.globals.totalFrames.toNat → s.frameBit f = true →
      (∀ table ∈ s.privateTables pml4, frameOf table ≠ f) → t.frameBit f = true := by
    intro f hf hbit hout
    have htotal := h.layout.total_le
    rw [hfreed.bits f (by omega)]
    refine ⟨hbit, fun step hstep => ?_⟩
    obtain ⟨table, htable, rfl⟩ := List.mem_map.mp hstep
    exact hout table htable
  have hsame := hfreed.only.sameTables hrest.toForest
  refine hrest.of_child (hsame.forest hrest.toForest ?_ ?_) (hsame.child hrest.toForest)
  · rintro table ⟨root, hroot, path, hlength, hwalk⟩
    have hframe := hrest.frame table ⟨root, hroot, path, hlength, hwalk⟩
    refine hkept _ hframe.tracked hframe.allocated fun table' hmem heq => ?_
    have hsame : table' = table := by
      rw [← frameAddr_frameOf (h.isTableFrame_privateTables hlive hmem).aligned, heq,
        frameAddr_frameOf hframe.aligned]
    subst hsame
    obtain ⟨path', hlength', hwalk', hhead⟩ := mem_privateTables.mp hmem
    obtain ⟨-, rfl | ⟨i, hi, hi'⟩⟩ :=
      h.separated pml4 hlive root hroot.1 path' path hlength' hlength table' hwalk' hwalk
    · exact hroot.2 rfl
    · exact hhead i hi' hi
  · intro f hf
    have htracked := h.layout.tracked
    refine hkept f (by have := hf.2; omega) (h.bitmap f hf) fun table hmem heq => ?_
    exact (h.isTableFrame_privateTables hlive hmem).not_bitmap (heq ▸ hf)

end

end RainstormOs
