import RainstormOs.Proof.PageTable

/-!
# The invariant of the page tables

`Tables` is what the paging code keeps true of the tables of all live address spaces, at every
command it issues: each table is an allocated frame of its own, the tables of two spaces meet only
below the shared half, and the shared slots lead to the same tables everywhere. `Evolves` is what it
guarantees between two such states as long as no translation is edited: present upper entries stay
and at most gain the user bit, and no page changes its last-level entry.

The memory changes the code makes are of three kinds, with one lemma for each: changes outside all
tables, a store to an upper entry, a store to a last-level entry.
-/

namespace RainstormOs

open Trie (walk Reaches)

/-- A frame a table may live in: tracked, allocated, and not part of the bitmap. -/
structure Machine.IsTableFrame (s : Machine) (table : PhysAddr) : Prop where
  aligned : IsPageAligned table
  tracked : frameOf table < s.globals.totalFrames.toNat
  allocated : s.frameBit (frameOf table) = true
  not_bitmap : ¬ s.globals.IsBitmapFrame (frameOf table)

/-- Present entries above the last level carry the present and writable bits, perhaps the user bit,
and no other. -/
def IsUpperEntry (entry : BitVec 64) : Prop :=
  entry.getLsbD 0 = true → entryFlags entry = 3#64 ∨ entryFlags entry = 7#64

/-- The allocator is set up, and its bitmap is not up for allocation. -/
structure PmmReady (s : Machine) : Prop where
  layout : s.globals.PmmLayout
  bitmap : ∀ f, s.globals.IsBitmapFrame f → s.frameBit f = true

/-- The tables of the live spaces are frames of their own and do not run into each other. -/
structure Forest (live : Set PhysAddr) (s : Machine) : Prop extends PmmReady s where
  frame : ∀ table, Reaches s.child live 3 table → s.IsTableFrame table
  upper : ∀ table i, Reaches s.child live 2 table → IsUpperEntry (s.entry table i)
  separated : Trie.Separated s.child live kernelSlots 3

/-- The invariant: moreover every shared slot is filled, with the same table in every space. -/
structure Tables (live : Set PhysAddr) (s : Machine) : Prop extends Forest live s where
  slots : ∀ i ∈ kernelSlots, ∃ table, ∀ pml4 ∈ live, s.child pml4 i = some table

structure Evolves (live : Set PhysAddr) (s t : Machine) : Prop where
  globals : t.globals = s.globals
  cr3 : t.cr3 = s.cr3
  nxe : t.nxe = s.nxe
  entry : ∀ table i, Reaches s.child live 2 table → (s.entry table i).getLsbD 0 = true →
    t.entry table i = s.entry table i ∨ t.entry table i = s.entry table i ||| pageUser
  leaf : ∀ pml4 ∈ live, ∀ page, t.leaf pml4 page = s.leaf pml4 page

section

variable {live : Set PhysAddr} {s t u : Machine}

theorem Machine.child_eq_some_iff {table next : PhysAddr} {i : Index} :
    s.child table i = some next ↔
      (s.entry table i).getLsbD 0 = true ∧ s.entry table i &&& physAddrMask = next := by
  rw [Machine.child]
  cases (s.entry table i).getLsbD 0 <;> simp

theorem Machine.child_eq_none_iff {table : PhysAddr} {i : Index} :
    s.child table i = none ↔ (s.entry table i).getLsbD 0 = false := by
  rw [Machine.child]
  cases (s.entry table i).getLsbD 0 <;> simp

/-! ### Gaining the user bit -/

theorem or_pageUser_and_physAddrMask (entry : BitVec 64) :
    (entry ||| pageUser) &&& physAddrMask = entry &&& physAddrMask := by
  have hzero : pageUser &&& physAddrMask = 0#64 := rfl
  rw [BitVec.and_comm, BitVec.and_or_distrib_left, BitVec.and_comm _ entry,
    BitVec.and_comm _ pageUser, hzero, BitVec.or_zero]

theorem getLsbD_or_pageUser (entry : BitVec 64) {k : Nat} (hk : k ≠ 2) :
    (entry ||| pageUser).getLsbD k = entry.getLsbD k := by
  rw [pageUser, BitField.getLsbD_or_one_shiftLeft (by decide)]
  simp [hk]

theorem child_of_gained {table : PhysAddr} {i : Index}
    (hpresent : (s.entry table i).getLsbD 0 = true)
    (hgain : t.entry table i = s.entry table i ∨ t.entry table i = s.entry table i ||| pageUser) :
    t.child table i = s.child table i := by
  cases hgain with
  | inl heq => exact Machine.child_congr heq
  | inr heq =>
      rw [Machine.child, Machine.child, heq, getLsbD_or_pageUser _ (by decide), hpresent,
        or_pageUser_and_physAddrMask]

/-- The flags the code sets on a present upper entry add at most the user bit. -/
theorem or_intermediateFlags {entry : BitVec 64} (hupper : IsUpperEntry entry)
    (hpresent : entry.getLsbD 0 = true) (flags : BitVec 64) :
    entry ||| intermediateFlags flags = entry
      ∨ (entry ||| intermediateFlags flags = entry ||| pageUser
        ∧ flags.getLsbD 2 = true) := by
  have hlow : entry ||| 3#64 = entry := by
    have hwrite : entry.getLsbD 1 = true := by
      rw [← getLsbD_entryFlags (by decide) (Or.inl (by decide))]
      obtain h | h := hupper hpresent <;> rw [h] <;> rfl
    apply BitVec.eq_of_getLsbD_eq
    intro k hk
    have hthree : (3#64).getLsbD k = (decide (k = 0) || decide (k = 1)) := by
      revert k
      decide
    rw [BitVec.getLsbD_or, hthree]
    by_cases h0 : k = 0
    · simp [h0, hpresent]
    · by_cases h1 : k = 1
      · simp [h1, hwrite]
      · simp [h0, h1]
  obtain ⟨-, hflags⟩ | ⟨huser, hflags⟩ := intermediateFlags_cases flags
  · left
    rw [hflags, hlow]
  · right
    have hsplit : (7#64 : BitVec 64) = 3#64 ||| pageUser := rfl
    rw [hflags, hsplit, ← BitVec.or_assoc, hlow]
    exact ⟨rfl, huser⟩

theorem entryFlags_or_pageUser (entry : BitVec 64) :
    entryFlags (entry ||| pageUser) = entryFlags entry ||| pageUser := by
  have huser : ~~~physAddrMask &&& pageUser = pageUser := rfl
  rw [entryFlags, entryFlags, BitVec.and_comm, BitVec.and_or_distrib_left, huser,
    BitVec.and_comm]

theorem IsUpperEntry.or_pageUser {entry : BitVec 64} (h : IsUpperEntry entry)
    (hpresent : entry.getLsbD 0 = true) : IsUpperEntry (entry ||| pageUser) := by
  intro _
  rw [entryFlags_or_pageUser]
  obtain h | h := h hpresent <;> rw [h] <;> exact Or.inr rfl

/-! ### Walks in two states -/

theorem walk_eq_of_child
    (hchild : ∀ table i, Reaches s.child live 2 table → t.child table i = s.child table i)
    {pml4 : PhysAddr} (hlive : pml4 ∈ live) {path : List Index} (hlength : path.length ≤ 3) :
    walk t.child pml4 path = walk s.child pml4 path :=
  Trie.walk_congr hlength fun table q i hq hwalk =>
    hchild table i ⟨pml4, hlive, q, Nat.le_of_lt_succ hq, hwalk⟩

theorem reaches_iff_of_child
    (hchild : ∀ table i, Reaches s.child live 2 table → t.child table i = s.child table i)
    {depth : Nat} (hdepth : depth ≤ 3) {table : PhysAddr} :
    Reaches t.child live depth table ↔ Reaches s.child live depth table := by
  refine exists_congr fun pml4 => and_congr_right fun hlive => exists_congr fun path =>
    and_congr_right fun hlength => ?_
  rw [walk_eq_of_child hchild hlive (by omega)]

/-- A state whose tables point to the same tables, and whose frames and upper entries are in order,
satisfies the invariant. -/
theorem Forest.of_child (h : Forest live s) (hready : PmmReady t)
    (hchild : ∀ table i, Reaches s.child live 2 table → t.child table i = s.child table i)
    (hframe : ∀ table, Reaches s.child live 3 table → t.IsTableFrame table)
    (hupper : ∀ table i, Reaches s.child live 2 table → IsUpperEntry (t.entry table i)) :
    Forest live t where
  toPmmReady := hready
  frame table htable := hframe table ((reaches_iff_of_child hchild (Nat.le_refl 3)).mp htable)
  upper table i htable := hupper table i ((reaches_iff_of_child hchild (by decide)).mp htable)
  separated := h.separated.congr fun pml4 hlive path hlength =>
    walk_eq_of_child hchild hlive hlength

theorem Tables.of_child (h : Tables live s) (hforest : Forest live t)
    (hchild : ∀ table i, Reaches s.child live 2 table → t.child table i = s.child table i) :
    Tables live t where
  toForest := hforest
  slots i hi := by
    obtain ⟨table, htable⟩ := h.slots i hi
    refine ⟨table, fun pml4 hlive => ?_⟩
    rw [hchild pml4 i ⟨pml4, hlive, [], Nat.zero_le _, rfl⟩]
    exact htable pml4 hlive

/-! ### Bits and tables do not overlap -/

theorem Machine.frameBit_congr (hlayout : s.globals.PmmLayout) (hglobals : t.globals = s.globals)
    (hmem : ∀ x, s.globals.IsBitmapFrame (frameOf x) → t.mem x = s.mem x) {f : Nat}
    (hf : f / 8 < s.globals.bitmapSize.toNat) : t.frameBit f = s.frameBit f := by
  rw [Machine.frameBit, Machine.frameBit, hglobals, hmem _ (hlayout.byte hf).2]

theorem Machine.frameBit_setEntry (hlayout : s.globals.PmmLayout) {table : PhysAddr}
    (haligned : IsPageAligned table) (hout : ¬ s.globals.IsBitmapFrame (frameOf table))
    (i : Index) (word : BitVec 64) {f : Nat} (hf : f / 8 < s.globals.bitmapSize.toNat) :
    (s.setEntry table i word).frameBit f = s.frameBit f := by
  refine Machine.frameBit_congr hlayout (s.setEntry_globals table i word) (fun x hx => ?_) hf
  refine Machine.setEntry_mem_of_frame_ne haligned fun h => hout ?_
  rwa [← h]

theorem PmmReady.setEntry (h : PmmReady s) {table : PhysAddr} (haligned : IsPageAligned table)
    (hout : ¬ s.globals.IsBitmapFrame (frameOf table)) (i : Index) (word : BitVec 64) :
    PmmReady (s.setEntry table i word) where
  layout := h.layout
  bitmap f hf := by
    rw [Machine.setEntry_globals] at hf
    have htracked := h.layout.tracked
    have hbyte := h.layout.frame_byte (show f < s.globals.totalFrames.toNat by
      have := hf.2
      omega)
    rw [Machine.frameBit_setEntry h.layout haligned hout i word hbyte]
    exact h.bitmap f hf

theorem Machine.IsTableFrame.setEntry (hlayout : s.globals.PmmLayout) {table table' : PhysAddr}
    (htable : s.IsTableFrame table) (htable' : s.IsTableFrame table') (i : Index)
    (word : BitVec 64) : (s.setEntry table i word).IsTableFrame table' where
  aligned := htable'.aligned
  tracked := htable'.tracked
  allocated := by
    rw [Machine.frameBit_setEntry hlayout htable.aligned htable.not_bitmap i word
      (hlayout.frame_byte htable'.tracked)]
    exact htable'.allocated
  not_bitmap := htable'.not_bitmap

/-! ### Changes outside all tables -/

/-- Nothing in the frames of live tables changes. -/
structure SameTables (live : Set PhysAddr) (s t : Machine) : Prop where
  globals : t.globals = s.globals
  cr3 : t.cr3 = s.cr3
  nxe : t.nxe = s.nxe
  mem : ∀ table, Reaches s.child live 3 table → ∀ x, frameOf x = frameOf table → t.mem x = s.mem x

theorem SameTables.entry (h : SameTables live s t) (htables : Forest live s) {table : PhysAddr}
    (hreach : Reaches s.child live 3 table) (i : Index) : t.entry table i = s.entry table i :=
  Machine.entry_congr (htables.frame table hreach).aligned (h.mem table hreach) i

theorem SameTables.child (h : SameTables live s t) (htables : Forest live s) (table : PhysAddr)
    (i : Index) (hreach : Reaches s.child live 2 table) :
    t.child table i = s.child table i :=
  Machine.child_congr (h.entry htables (hreach.mono (by decide)) i)

theorem SameTables.leaf (h : SameTables live s t) (htables : Forest live s) {pml4 : PhysAddr}
    (hlive : pml4 ∈ live) (page : Page) : t.leaf pml4 page = s.leaf pml4 page := by
  rw [Machine.leaf, Machine.leaf, walk_eq_of_child (h.child htables) hlive page.length_path.le]
  cases hwalk : walk s.child pml4 page.path with
  | none => rfl
  | some table => exact h.entry htables ⟨pml4, hlive, page.path, page.length_path.le, hwalk⟩ _

theorem SameTables.evolves (h : SameTables live s t) (htables : Forest live s) :
    Evolves live s t where
  globals := h.globals
  cr3 := h.cr3
  nxe := h.nxe
  entry table i hreach _ := Or.inl (h.entry htables (hreach.mono (by decide)) i)
  leaf _ hlive page := h.leaf htables hlive page

theorem SameTables.forest (h : SameTables live s t) (htables : Forest live s)
    (hframes : ∀ table, Reaches s.child live 3 table → t.frameBit (frameOf table) = true)
    (hbitmap : ∀ f, s.globals.IsBitmapFrame f → t.frameBit f = true) : Forest live t := by
  refine htables.of_child ⟨?_, ?_⟩ (h.child htables) ?_ ?_
  · rw [h.globals]
    exact htables.layout
  · rwa [h.globals]
  · intro table hreach
    obtain ⟨haligned, htracked, -, hout⟩ := htables.frame table hreach
    refine ⟨haligned, ?_, hframes table hreach, ?_⟩
    · rwa [h.globals]
    · rwa [h.globals]
  · intro table i hreach
    rw [h.entry htables (hreach.mono (by decide)) i]
    exact htables.upper table i hreach

/-- Where bits are only set, the frames of the tables stay allocated. -/
theorem SameTables.forest_of_mono (h : SameTables live s t) (htables : Forest live s)
    (hbits : ∀ f, f < s.globals.totalFrames.toNat → s.frameBit f = true → t.frameBit f = true) :
    Forest live t := by
  refine h.forest htables ?_ ?_
  · intro table hreach
    have hframe := htables.frame table hreach
    exact hbits _ hframe.tracked hframe.allocated
  · intro f hf
    have htracked := htables.layout.tracked
    exact hbits f (by have := hf.2; omega) (htables.bitmap f hf)

theorem Tables.mono {live' : Set PhysAddr} (h : Tables live s) (hlive : live' ⊆ live) :
    Tables live' s := by
  have hreaches : ∀ {depth table}, Reaches s.child live' depth table →
      Reaches s.child live depth table := by
    rintro depth table ⟨root, hroot, hrest⟩
    exact ⟨root, hlive hroot, hrest⟩
  refine ⟨⟨h.toPmmReady, fun table hreach => h.frame table (hreaches hreach),
    fun table i hreach => h.upper table i (hreaches hreach), h.separated.mono hlive⟩, ?_⟩
  intro i hi
  obtain ⟨table, htable⟩ := h.slots i hi
  exact ⟨table, fun pml4 hmem => htable pml4 (hlive hmem)⟩

theorem PmmOnly.sameTables (h : PmmOnly s t) (htables : Forest live s) : SameTables live s t where
  globals := h.globals
  cr3 := h.cr3
  nxe := h.nxe
  mem table hreach x hx := h.mem x (by rw [hx]; exact (htables.frame table hreach).not_bitmap)

theorem Forest.not_reaches_of_isFree (h : Forest live s) {f : Nat} (hfree : s.IsFree f)
    {table : PhysAddr} (hreach : Reaches s.child live 3 table) : frameOf table ≠ f := by
  intro heq
  have hbit := (h.frame table hreach).allocated
  rw [heq, hfree.2] at hbit
  cases hbit

/-! ### Comparing two states -/

theorem Evolves.refl (live : Set PhysAddr) (s : Machine) : Evolves live s s :=
  ⟨rfl, rfl, rfl, fun _ _ _ _ => Or.inl rfl, fun _ _ _ => rfl⟩

theorem Evolves.child (h : Evolves live s t) {table next : PhysAddr} {i : Index}
    (hreach : Reaches s.child live 2 table) (hchild : s.child table i = some next) :
    t.child table i = some next := by
  have hpresent := (Machine.child_eq_some_iff.mp hchild).1
  rw [child_of_gained hpresent (h.entry table i hreach hpresent), hchild]

theorem Evolves.walk_mono (h : Evolves live s t) {pml4 table : PhysAddr} (hlive : pml4 ∈ live)
    {path : List Index} (hlength : path.length ≤ 3) (hwalk : walk s.child pml4 path = some table) :
    walk t.child pml4 path = some table := by
  induction path using List.reverseRecOn generalizing table with
  | nil =>
      rw [Trie.walk_nil] at hwalk ⊢
      exact hwalk
  | append_singleton path i ih =>
      rw [List.length_append, List.length_singleton] at hlength
      obtain ⟨last, hlast, hchild⟩ := Trie.walk_concat_eq_some.mp hwalk
      rw [Trie.walk_concat_eq_some]
      exact ⟨last, ih (by omega) hlast, h.child ⟨pml4, hlive, path, by omega, hlast⟩ hchild⟩

theorem Evolves.reaches_mono (h : Evolves live s t) {depth : Nat} (hdepth : depth ≤ 3)
    {table : PhysAddr} (hreach : Reaches s.child live depth table) :
    Reaches t.child live depth table := by
  obtain ⟨pml4, hlive, path, hlength, hwalk⟩ := hreach
  exact ⟨pml4, hlive, path, hlength, h.walk_mono hlive (by omega) hwalk⟩

theorem Evolves.trans (h : Evolves live s t) (h' : Evolves live t u) : Evolves live s u where
  globals := h'.globals.trans h.globals
  cr3 := h'.cr3.trans h.cr3
  nxe := h'.nxe.trans h.nxe
  entry table i hreach hpresent := by
    have hgain := h.entry table i hreach hpresent
    have hpresent' : (t.entry table i).getLsbD 0 = true := by
      obtain heq | heq := hgain
      · rwa [heq]
      · rwa [heq, getLsbD_or_pageUser _ (by decide)]
    have hgain' := h'.entry table i (h.reaches_mono (by decide) hreach) hpresent'
    obtain heq | heq := hgain <;> obtain heq' | heq' := hgain' <;> rw [heq', heq]
    · exact Or.inl rfl
    · exact Or.inr rfl
    · exact Or.inr rfl
    · rw [BitVec.or_assoc, BitVec.or_self]
      exact Or.inr rfl
  leaf pml4 hlive page := (h'.leaf pml4 hlive page).trans (h.leaf pml4 hlive page)

theorem Forest.length_eq (h : Forest live s) {pml4 pml4' table : PhysAddr} (hlive : pml4 ∈ live)
    (hlive' : pml4' ∈ live) {path path' : List Index} (hlength : path.length ≤ 3)
    (hlength' : path'.length ≤ 3) (hwalk : walk s.child pml4 path = some table)
    (hwalk' : walk s.child pml4' path' = some table) : path.length = path'.length := by
  rw [(h.separated pml4 hlive pml4' hlive' path path' hlength hlength' table hwalk hwalk').1]

theorem Forest.ne_of_reaches_two (h : Forest live s) {pml4 table upper : PhysAddr}
    (hlive : pml4 ∈ live) {path : List Index} (hlength : path.length = 3)
    (hwalk : walk s.child pml4 path = some table) (hreach : Reaches s.child live 2 upper) :
    table ≠ upper := by
  rintro rfl
  obtain ⟨pml4', hlive', path', hlength', hwalk'⟩ := hreach
  have := h.length_eq hlive hlive' (by omega) (by omega) hwalk hwalk'
  omega

/-- The shared half leads to the same tables from every address space. -/
theorem Tables.walk_kernel (h : Tables live s) {pml4 pml4' : PhysAddr} (hlive : pml4 ∈ live)
    (hlive' : pml4' ∈ live) {i : Index} (hi : i ∈ kernelSlots) (path : List Index) :
    walk s.child pml4 (i :: path) = walk s.child pml4' (i :: path) := by
  obtain ⟨table, htable⟩ := h.slots i hi
  rw [walk, walk, htable pml4 hlive, htable pml4' hlive']

/-! ### A store to an upper entry that keeps what it points to -/

section Upper

variable {table : PhysAddr} {i : Index} {word : BitVec 64}

theorem Forest.child_setEntry (h : Forest live s) (hreach : Reaches s.child live 2 table)
    (hchild : (s.setEntry table i word).child table i = s.child table i) (table' : PhysAddr)
    (i' : Index) (hreach' : Reaches s.child live 2 table') :
    (s.setEntry table i word).child table' i' = s.child table' i' := by
  by_cases heq : table' = table → i' ≠ i
  · exact Machine.child_congr (Machine.entry_setEntry_of_ne
      (h.frame table (hreach.mono (by decide))).aligned
      (h.frame table' (hreach'.mono (by decide))).aligned heq word)
  · rw [Classical.not_imp, not_not] at heq
    obtain ⟨rfl, rfl⟩ := heq
    exact hchild

theorem Forest.entry_setEntry (h : Forest live s) (hreach : Reaches s.child live 3 table)
    {table' : PhysAddr} {i' : Index} (hreach' : Reaches s.child live 3 table') :
    (s.setEntry table i word).entry table' i'
      = if table' = table ∧ i' = i then word else s.entry table' i' := by
  split
  · next heq => rw [heq.1, heq.2, Machine.entry_setEntry_self]
  · next hne =>
      refine Machine.entry_setEntry_of_ne (h.frame table hreach).aligned
        (h.frame table' hreach').aligned (fun htable hi => hne ⟨htable, hi⟩) word

theorem Tables.setEntry_upper (h : Tables live s) (hreach : Reaches s.child live 2 table)
    (hchild : (s.setEntry table i word).child table i = s.child table i)
    (hupper : IsUpperEntry word) : Tables live (s.setEntry table i word) := by
  have hframe := h.frame table (hreach.mono (by decide))
  refine h.of_child (h.toForest.of_child
    (h.toPmmReady.setEntry hframe.aligned hframe.not_bitmap i word)
    (h.child_setEntry hreach hchild) ?_ ?_) (h.child_setEntry hreach hchild)
  · intro table' hreach'
    exact hframe.setEntry h.layout (h.frame table' hreach') i word
  · intro table' i' hreach'
    rw [h.entry_setEntry (hreach.mono (by decide)) (hreach'.mono (by decide))]
    split
    · exact hupper
    · exact h.upper table' i' hreach'

theorem Forest.evolves_setEntry (h : Forest live s) (hreach : Reaches s.child live 2 table)
    (hchild : (s.setEntry table i word).child table i = s.child table i)
    (hgain : (s.entry table i).getLsbD 0 = true →
      word = s.entry table i ∨ word = s.entry table i ||| pageUser) :
    Evolves live s (s.setEntry table i word) where
  globals := rfl
  cr3 := rfl
  nxe := rfl
  entry table' i' hreach' hpresent := by
    rw [h.entry_setEntry (hreach.mono (by decide)) (hreach'.mono (by decide))]
    split
    · next heq =>
        obtain ⟨rfl, rfl⟩ := heq
        exact hgain hpresent
    · exact Or.inl rfl
  leaf pml4 hlive page := by
    rw [Machine.leaf, Machine.leaf,
      walk_eq_of_child (h.child_setEntry hreach hchild) hlive page.length_path.le]
    cases hwalk : walk s.child pml4 page.path with
    | none => rfl
    | some last =>
        have hne := h.ne_of_reaches_two hlive page.length_path hwalk hreach
        change (s.setEntry table i word).entry last page.slot = s.entry last page.slot
        rw [h.entry_setEntry (hreach.mono (by decide))
          ⟨pml4, hlive, page.path, page.length_path.le, hwalk⟩, if_neg fun heq => hne heq.1]

end Upper

/-! ### A store that links an empty table -/

/-- What the code has in hand when it links a table: an absent entry of a live upper table, and a
zeroed frame of its own. -/
structure ReadyToLink (live : Set PhysAddr) (s : Machine) (table : PhysAddr) (i : Index)
    (fresh : PhysAddr) : Prop where
  reach : Reaches s.child live 2 table
  absent : s.child table i = none
  frame : s.IsTableFrame fresh
  unreached : ¬ Reaches s.child live 3 fresh
  zero : ∀ j, s.entry fresh j = 0#64

section Link

variable {table fresh : PhysAddr} {i : Index} {word : BitVec 64}

theorem ReadyToLink.ne (h : ReadyToLink live s table i fresh) : fresh ≠ table := by
  rintro rfl
  exact h.unreached (h.reach.mono (by decide))

theorem ReadyToLink.entry_fresh (h : ReadyToLink live s table i fresh) (htables : Forest live s)
    (j : Index) : (s.setEntry table i word).entry fresh j = 0#64 := by
  rw [Machine.entry_setEntry_of_ne (htables.frame table (h.reach.mono (by decide))).aligned
    h.frame.aligned (fun heq => absurd heq h.ne) word, h.zero]

theorem ReadyToLink.linked (h : ReadyToLink live s table i fresh) (htables : Forest live s)
    (hpresent : word.getLsbD 0 = true) (haddr : word &&& physAddrMask = fresh) :
    Trie.Linked s.child (s.setEntry table i word).child live 2 table i fresh where
  absent := h.absent
  linked := by
    rw [Machine.child_eq_some_iff, Machine.entry_setEntry_self]
    exact ⟨hpresent, haddr⟩
  empty j := by
    rw [Machine.child_eq_none_iff, h.entry_fresh htables, BitVec.getLsbD_zero]
  frame table' j hreach' hne := by
    refine Machine.child_congr (Machine.entry_setEntry_of_ne ?_ ?_ hne word)
    · exact (htables.frame table (h.reach.mono (by decide))).aligned
    · exact (htables.frame table' (hreach'.mono (by decide))).aligned

theorem ReadyToLink.forest (h : ReadyToLink live s table i fresh) (htables : Forest live s)
    (hpresent : word.getLsbD 0 = true) (haddr : word &&& physAddrMask = fresh)
    (hupper : IsUpperEntry word) : Forest live (s.setEntry table i word) := by
  have hlinked := h.linked htables hpresent haddr
  have hframe := htables.frame table (h.reach.mono (by decide))
  have hreaches : ∀ {depth table'}, depth ≤ 3 →
      Reaches (s.setEntry table i word).child live depth table' →
      Reaches s.child live depth table' ∨ table' = fresh := by
    rintro depth table' hdepth ⟨pml4, hlive, path, hlength, hwalk⟩
    rw [hlinked.walk_iff hlive (by omega)] at hwalk
    obtain hwalk | ⟨rfl, -⟩ := hwalk
    · exact Or.inl ⟨pml4, hlive, path, hlength, hwalk⟩
    · exact Or.inr rfl
  refine ⟨htables.toPmmReady.setEntry hframe.aligned hframe.not_bitmap i word, ?_, ?_,
    htables.separated.link hlinked h.unreached⟩
  · intro table' hreach'
    obtain hold | rfl := hreaches (Nat.le_refl 3) hreach'
    · exact hframe.setEntry htables.layout (htables.frame table' hold) i word
    · exact hframe.setEntry htables.layout h.frame i word
  · intro table' j hreach'
    obtain hold | rfl := hreaches (by decide) hreach'
    · rw [htables.entry_setEntry (h.reach.mono (by decide)) (hold.mono (by decide))]
      split
      · exact hupper
      · exact htables.upper table' j hold
    · rw [h.entry_fresh htables, IsUpperEntry, BitVec.getLsbD_zero]
      exact fun hfalse => absurd hfalse Bool.false_ne_true

theorem ReadyToLink.tables (h : ReadyToLink live s table i fresh) (htables : Tables live s)
    (hpresent : word.getLsbD 0 = true) (haddr : word &&& physAddrMask = fresh)
    (hupper : IsUpperEntry word) : Tables live (s.setEntry table i word) := by
  have hlinked := h.linked htables.toForest hpresent haddr
  refine ⟨h.forest htables.toForest hpresent haddr hupper, ?_⟩
  intro j hj
  obtain ⟨slot, hslot⟩ := htables.slots j hj
  refine ⟨slot, fun pml4 hlive => ?_⟩
  rw [hlinked.frame pml4 j ⟨pml4, hlive, [], Nat.zero_le _, rfl⟩]
  · exact hslot pml4 hlive
  · rintro rfl rfl
    have := hslot pml4 hlive
    rw [h.absent] at this
    cases this

theorem ReadyToLink.evolves (h : ReadyToLink live s table i fresh) (htables : Forest live s)
    (hpresent : word.getLsbD 0 = true) (haddr : word &&& physAddrMask = fresh) :
    Evolves live s (s.setEntry table i word) where
  globals := rfl
  cr3 := rfl
  nxe := rfl
  entry table' j hreach' hpresent' := by
    left
    rw [htables.entry_setEntry (h.reach.mono (by decide)) (hreach'.mono (by decide)), if_neg]
    rintro ⟨rfl, rfl⟩
    rw [Machine.child_eq_none_iff.mp h.absent] at hpresent'
    cases hpresent'
  leaf pml4 hlive page := by
    have hlinked := h.linked htables hpresent haddr
    have hiff := hlinked.walk_iff hlive page.length_path.le
    rw [Machine.leaf, Machine.leaf]
    cases hwalk : walk s.child pml4 page.path with
    | some last =>
        have hne := htables.ne_of_reaches_two hlive page.length_path hwalk h.reach
        rw [(hiff last).mpr (Or.inl hwalk)]
        change (s.setEntry table i word).entry last page.slot = s.entry last page.slot
        rw [htables.entry_setEntry (h.reach.mono (by decide))
          ⟨pml4, hlive, page.path, page.length_path.le, hwalk⟩, if_neg fun heq => hne heq.1]
    | none =>
        cases hwalk' : walk (s.setEntry table i word).child pml4 page.path with
        | none => rfl
        | some last =>
            obtain hold | ⟨rfl, -⟩ := (hiff last).mp hwalk'
            · rw [hwalk] at hold
              cases hold
            · exact h.entry_fresh htables _

end Link

/-! ### A store to a last-level entry -/

/-- Editing `page` in the space `pml4` is seen in that space, and everywhere if the page is
shared. -/
def SeesEdit (pml4 : PhysAddr) (page : Page) (pml4' : PhysAddr) (page' : Page) : Prop :=
  page' = page ∧ (pml4' = pml4 ∨ page.IsKernel)

section Leaf

variable {pml4 table : PhysAddr} {page : Page} {word : BitVec 64}

theorem Forest.upper_setEntry_leaf (h : Forest live s) (hlive : pml4 ∈ live)
    (hwalk : walk s.child pml4 page.path = some table) (i : Index) (word : BitVec 64)
    (table' : PhysAddr) (i' : Index) (hreach' : Reaches s.child live 2 table') :
    (s.setEntry table i word).entry table' i' = s.entry table' i' := by
  have hne := h.ne_of_reaches_two hlive page.length_path hwalk hreach'
  rw [h.entry_setEntry ⟨pml4, hlive, page.path, page.length_path.le, hwalk⟩
    (hreach'.mono (by decide)), if_neg fun heq => hne heq.1.symm]

theorem Tables.setEntry_leaf (h : Tables live s) (hlive : pml4 ∈ live)
    (hwalk : walk s.child pml4 page.path = some table) :
    Tables live (s.setEntry table page.slot word) := by
  have hreach : Reaches s.child live 3 table :=
    ⟨pml4, hlive, page.path, page.length_path.le, hwalk⟩
  have hframe := h.frame table hreach
  have hentry := h.upper_setEntry_leaf hlive hwalk page.slot word
  have hchild := fun table' i' hreach' => Machine.child_congr (hentry table' i' hreach')
  refine h.of_child (h.toForest.of_child
    (h.toPmmReady.setEntry hframe.aligned hframe.not_bitmap page.slot word) hchild ?_ ?_) hchild
  · intro table' hreach'
    exact hframe.setEntry h.layout (h.frame table' hreach') page.slot word
  · intro table' i' hreach'
    rw [hentry table' i' hreach']
    exact h.upper table' i' hreach'

theorem Tables.leaf_setEntry (h : Tables live s) (hlive : pml4 ∈ live)
    (hwalk : walk s.child pml4 page.path = some table) {pml4' : PhysAddr} (hlive' : pml4' ∈ live)
    (page' : Page) :
    (SeesEdit pml4 page pml4' page' →
        (s.setEntry table page.slot word).leaf pml4' page' = word)
      ∧ (¬ SeesEdit pml4 page pml4' page' →
        (s.setEntry table page.slot word).leaf pml4' page' = s.leaf pml4' page') := by
  have hreach : Reaches s.child live 3 table :=
    ⟨pml4, hlive, page.path, page.length_path.le, hwalk⟩
  have hwalks := walk_eq_of_child (t := s.setEntry table page.slot word) (fun table' i' hreach' =>
    Machine.child_congr (h.upper_setEntry_leaf hlive hwalk page.slot word table' i' hreach')) hlive'
    page'.length_path.le
  rw [Machine.leaf, Machine.leaf, hwalks]
  constructor
  · rintro ⟨rfl, hsees⟩
    have hsame : walk s.child pml4' page'.path = some table := by
      obtain rfl | hkernel := hsees
      · exact hwalk
      · rw [← hwalk]
        exact h.walk_kernel hlive' hlive (page'.isKernel_iff.mp hkernel) _
    rw [hsame]
    exact Machine.entry_setEntry_self s table page'.slot word
  · intro hsees
    cases hwalk' : walk s.child pml4' page'.path with
    | none => rfl
    | some last =>
        change (s.setEntry table page.slot word).entry last page'.slot = s.entry last page'.slot
        rw [h.entry_setEntry hreach ⟨pml4', hlive', page'.path, page'.length_path.le, hwalk'⟩,
          if_neg]
        rintro ⟨rfl, hslot⟩
        obtain ⟨hpath, hroots⟩ := h.separated pml4' hlive' pml4 hlive page'.path page.path
          page'.length_path.le page.length_path.le last hwalk' hwalk
        have hpage := Page.ext_path hpath hslot
        refine hsees ⟨hpage, hroots.imp_right ?_⟩
        rintro ⟨j, hj, hhead⟩
        rw [Page.isKernel_iff, ← hpage]
        obtain rfl : page'.extractLsb' 27 9 = j := by simpa [Page.path] using hhead
        exact hj

end Leaf

end

end RainstormOs
