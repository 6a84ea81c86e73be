import RainstormOs.Mmu
import RainstormOs.Proof.PagingInit

/-!
# The processor reads the tables as the kernel does

Over the invariant of the tables, the architecture's walk of an address is determined by the page's
last-level entry: it finds a 4 KiB page exactly where that entry is present, with the writable,
no-execute and global bits of that entry. Only the user bit depends on the tables above as well.
-/

namespace RainstormOs

open Trie (walk Reaches)

def leafPage (leaf : BitVec 64) (user : Bool) : Translation where
  base := leaf &&& physAddrMask
  pageBits := 12
  writable := leaf.getLsbD 1
  user := user
  noExecute := leaf.getLsbD 63
  global := leaf.getLsbD 8

/-- What the walk makes of a last-level entry, where nothing above it stands in the way. -/
def leafWalk (leaf : BitVec 64) : Option Translation :=
  if leaf.getLsbD 0 then some (leafPage leaf (leaf.getLsbD 2)) else none

/-- The flag bits of an entry are those it was built with. -/
theorem getLsbD_or_flags {addr flags : BitVec 64} (haddr : addr &&& physAddrMask = addr)
    (hflags : flags &&& physAddrMask = 0#64) {k : Nat} (hk : k < 64) (hout : k < 12 ∨ 52 ≤ k) :
    (addr ||| flags).getLsbD k = flags.getLsbD k := by
  rw [← getLsbD_entryFlags hk hout, entryFlags_or haddr hflags]

theorem leafPage_or {addr flags : BitVec 64} (haddr : addr &&& physAddrMask = addr)
    (hflags : flags &&& physAddrMask = 0#64) (user : Bool) :
    leafPage (addr ||| flags) user
      = ⟨addr, 12, flags.getLsbD 1, user, flags.getLsbD 63, flags.getLsbD 8⟩ := by
  rw [leafPage, or_and_physAddrMask haddr hflags,
    getLsbD_or_flags haddr hflags (by decide) (Or.inl (by decide)),
    getLsbD_or_flags haddr hflags (by decide) (Or.inr (by decide)),
    getLsbD_or_flags haddr hflags (by decide) (Or.inl (by decide))]

section

variable {live : Set PhysAddr} {pml4 : PhysAddr} {s : Machine}

/-- As much of the invariant as a walk depends on. It holds also while a space is being destroyed,
when its tables are still in place but their frames already free. -/
structure Readable (live : Set PhysAddr) (s : Machine) : Prop where
  nxe : s.nxe = true
  root : ∀ pml4 ∈ live, pml4 &&& physAddrMask = pml4
  upper : ∀ table i, Reaches s.child live 2 table → IsUpperEntry (s.entry table i)

theorem Forest.readable (h : Forest live s) (hnxe : s.nxe = true) : Readable live s where
  nxe := hnxe
  root pml4 hlive := by
    have hframe := h.frame pml4 ⟨pml4, hlive, [], Nat.zero_le _, rfl⟩
    have htotal := h.layout.total_le
    have htracked := hframe.tracked
    refine and_physAddrMask_eq_self_iff.mpr ⟨hframe.aligned, ?_⟩
    unfold frameOf at htracked
    omega
  upper := h.upper

theorem SameTables.readable {t : Machine} (h : SameTables live s t) (hforest : Forest live s)
    (hnxe : s.nxe = true) : Readable live t where
  nxe := h.nxe.trans hnxe
  root := (hforest.readable hnxe).root
  upper table i hreach := by
    rw [reaches_iff_of_child (h.child hforest) (by decide)] at hreach
    rw [h.entry hforest (hreach.mono (by decide)) i]
    exact hforest.upper table i hreach

theorem IsUpperEntry.bits {entry : BitVec 64} (h : IsUpperEntry entry)
    (hpresent : entry.getLsbD 0 = true) :
    entry.getLsbD 1 = true ∧ entry.getLsbD 7 = false ∧ entry.getLsbD 63 = false := by
  have hbit : ∀ k, k < 64 → k < 12 ∨ 52 ≤ k →
      entry.getLsbD k = (3#64 : BitVec 64).getLsbD k
        ∨ entry.getLsbD k = (7#64 : BitVec 64).getLsbD k := by
    intro k hk hout
    rw [← getLsbD_entryFlags hk hout]
    obtain hflags | hflags := h hpresent
    · exact Or.inl (by rw [hflags])
    · exact Or.inr (by rw [hflags])
  refine ⟨?_, ?_, ?_⟩
  · obtain heq | heq := hbit 1 (by decide) (Or.inl (by decide)) <;> rw [heq] <;> rfl
  · obtain heq | heq := hbit 7 (by decide) (Or.inl (by decide)) <;> rw [heq] <;> rfl
  · obtain heq | heq := hbit 63 (by decide) (Or.inr (by decide)) <;> rw [heq] <;> rfl

theorem hwEntry_of_absent {table : PhysAddr} {i : Index}
    (habsent : (s.entry table i).getLsbD 0 = false) : s.hwEntry table i = none := by
  change (if (s.entry table i).getLsbD 0 && _ then _ else none) = none
  rw [habsent]
  rfl

theorem hwEntry_of_present {table : PhysAddr} {i : Index}
    (hpresent : (s.entry table i).getLsbD 0 = true) (hnxe : s.nxe = true) :
    s.hwEntry table i = some (s.entry table i) := by
  change (if (s.entry table i).getLsbD 0 && (s.nxe || !(s.entry table i).getLsbD 63) then
    some (s.entry table i) else none) = _
  rw [hpresent, hnxe, Bool.true_or, Bool.and_true, if_pos rfl]

theorem shiftRight_shiftLeft_of_mask (word : BitVec 64) :
    ((word &&& hwAddrMask) >>> 12) <<< 12 = word &&& physAddrMask := by
  apply BitVec.eq_of_getLsbD_eq
  intro k hk
  rw [BitVec.getLsbD_shiftLeft, BitVec.getLsbD_ushiftRight]
  by_cases hlow : k < 12
  · have hmask := isMask_physAddrMask k hk
    simp only [BitVec.getLsbD_and, hmask, hlow]
    simp [hlow]
  · have hsum : 12 + (k - 12) = k := by omega
    rw [hsum]
    simp only [hk, hlow, decide_true, decide_false, Bool.not_false, Bool.and_true, Bool.true_and]
    rfl

theorem leaf_absent_of_walk {page : Page} {q : List Index} (hpre : q <+: page.path)
    (hwalk : walk s.child pml4 q = none) : (s.leaf pml4 page).getLsbD 0 = false := by
  rw [leaf_eq_zero_of_walk hpre hwalk, BitVec.getLsbD_zero]

theorem walk_concat_of_absent {q : List Index} {table : PhysAddr} {i : Index}
    (hwalk : walk s.child pml4 q = some table) (habsent : (s.entry table i).getLsbD 0 = false) :
    walk s.child pml4 (q ++ [i]) = none :=
  (Trie.walk_concat hwalk i).trans (Machine.child_eq_none_iff.mpr habsent)

/-- One step through a present upper entry: it is no large page, and forbids nothing but users. -/
theorem Readable.hwEntry_upper (h : Readable live s) (hlive : pml4 ∈ live) {q : List Index}
    {table : PhysAddr} (hwalk : walk s.child pml4 q = some table) (hq : q.length ≤ 2) (i : Index)
    (hpresent : (s.entry table i).getLsbD 0 = true) :
    s.hwEntry table i = some (s.entry table i)
      ∧ (s.entry table i).getLsbD 1 = true ∧ (s.entry table i).getLsbD 7 = false
      ∧ (s.entry table i).getLsbD 63 = false
      ∧ walk s.child pml4 (q ++ [i]) = some (s.entry table i &&& physAddrMask) := by
  have hbits := (h.upper table i ⟨pml4, hlive, q, hq, hwalk⟩).bits hpresent
  exact ⟨hwEntry_of_present hpresent h.nxe, hbits.1, hbits.2.1, hbits.2.2,
    (Trie.walk_concat hwalk i).trans (Machine.child_eq_some_iff.mpr ⟨hpresent, rfl⟩)⟩

/-- **The walk of a live space.** -/
theorem Readable.hwWalk_cases (h : Readable live s) (hlive : pml4 ∈ live) (vaddr : VirtAddr) :
    ((s.leaf pml4 (pageOf vaddr)).getLsbD 0 = false ∧ s.hwWalk pml4 vaddr = none)
      ∨ ((s.leaf pml4 (pageOf vaddr)).getLsbD 0 = true
        ∧ ∃ user, s.hwWalk pml4 vaddr = some (leafPage (s.leaf pml4 (pageOf vaddr)) user)
          ∧ (user = true ↔ (s.leaf pml4 (pageOf vaddr)).getLsbD 2 = true
              ∧ s.IsUserPath pml4 (pageOf vaddr).path)) := by
  have hpath := path_pageOf vaddr
  have hroot : walk s.child pml4 [] = some pml4 := rfl
  have hmask : pml4 &&& hwAddrMask = pml4 := h.root pml4 hlive
  rw [Machine.hwWalk, hmask]
  change (_ ∧ (s.hwEntry pml4 (tableIndex 3 vaddr)).bind _ = none)
    ∨ (_ ∧ ∃ user, (s.hwEntry pml4 (tableIndex 3 vaddr)).bind _ = _ ∧ _)
  -- Level by level: an absent entry ends both readings.
  cases hp4 : (s.entry pml4 (tableIndex 3 vaddr)).getLsbD 0 with
  | false =>
      rw [hwEntry_of_absent hp4]
      exact Or.inl ⟨leaf_absent_of_walk ⟨_, hpath.symm⟩ (walk_concat_of_absent hroot hp4), rfl⟩
  | true =>
  obtain ⟨hentry4, hw4, -, hnx4, hpdpt⟩ :=
    h.hwEntry_upper hlive hroot (Nat.zero_le 2) (tableIndex 3 vaddr) hp4
  rw [hentry4, Option.bind_some]
  generalize he4 : s.entry pml4 (tableIndex 3 vaddr) = e4 at *
  change (_ ∧ (s.hwEntry (e4 &&& physAddrMask) (tableIndex 2 vaddr)).bind _ = none)
    ∨ (_ ∧ ∃ user, (s.hwEntry (e4 &&& physAddrMask) (tableIndex 2 vaddr)).bind _ = _ ∧ _)
  cases hp3 : (s.entry (e4 &&& physAddrMask) (tableIndex 2 vaddr)).getLsbD 0 with
  | false =>
      rw [hwEntry_of_absent hp3]
      exact Or.inl ⟨leaf_absent_of_walk ⟨_, hpath.symm⟩ (walk_concat_of_absent hpdpt hp3), rfl⟩
  | true =>
  obtain ⟨hentry3, hw3, hps3, hnx3, hpd⟩ :=
    h.hwEntry_upper hlive hpdpt (by simp) (tableIndex 2 vaddr) hp3
  rw [hentry3, Option.bind_some]
  generalize he3 : s.entry (e4 &&& physAddrMask) (tableIndex 2 vaddr) = e3 at *
  rw [hps3]
  change (_ ∧ (s.hwEntry (e3 &&& physAddrMask) (tableIndex 1 vaddr)).bind _ = none)
    ∨ (_ ∧ ∃ user, (s.hwEntry (e3 &&& physAddrMask) (tableIndex 1 vaddr)).bind _ = _ ∧ _)
  cases hp2 : (s.entry (e3 &&& physAddrMask) (tableIndex 1 vaddr)).getLsbD 0 with
  | false =>
      rw [hwEntry_of_absent hp2]
      exact Or.inl ⟨leaf_absent_of_walk ⟨_, hpath.symm⟩ (walk_concat_of_absent hpd hp2), rfl⟩
  | true =>
  obtain ⟨hentry2, hw2, hps2, hnx2, hpt⟩ :=
    h.hwEntry_upper hlive hpd (by simp) (tableIndex 1 vaddr) hp2
  rw [hentry2, Option.bind_some]
  generalize he2 : s.entry (e3 &&& physAddrMask) (tableIndex 1 vaddr) = e2 at *
  rw [hps2]
  have hleaf : s.leaf pml4 (pageOf vaddr)
      = s.entry (e2 &&& physAddrMask) (tableIndex 0 vaddr) := by
    have hlast := (congrArg (walk s.child pml4) hpath).trans hpt
    rw [Machine.leaf, hlast, slot_pageOf]
  rw [hleaf]
  change (_ ∧ (s.hwEntry (e2 &&& physAddrMask) (tableIndex 0 vaddr)).bind _ = none)
    ∨ (_ ∧ ∃ user, (s.hwEntry (e2 &&& physAddrMask) (tableIndex 0 vaddr)).bind _ = _ ∧ _)
  cases hp1 : (s.entry (e2 &&& physAddrMask) (tableIndex 0 vaddr)).getLsbD 0 with
  | false =>
      rw [hwEntry_of_absent hp1]
      exact Or.inl ⟨rfl, rfl⟩
  | true =>
  rw [hwEntry_of_present hp1 h.nxe, Option.bind_some]
  generalize s.entry (e2 &&& physAddrMask) (tableIndex 0 vaddr) = e1 at *
  refine Or.inr ⟨rfl, e1.getLsbD 2 && (e4.getLsbD 2 && e3.getLsbD 2 && e2.getLsbD 2), ?_, ?_⟩
  · simp only [hwPage, leafPage, shiftRight_shiftLeft_of_mask, List.all_cons, List.any_cons,
      List.all_nil, List.any_nil, hw4, hw3, hw2, hnx4, hnx3, hnx2, Bool.and_true, Bool.or_false,
      Bool.and_assoc]
  · rw [hpath, isUserPath_iff hpdpt hpd, he4, he3, he2, Bool.and_eq_true, Bool.and_eq_true,
      Bool.and_eq_true]

/-- Where the path lets users through to every user page, the last-level entry alone decides. -/
theorem Readable.hwWalk_eq (h : Readable live s) (hlive : pml4 ∈ live) (vaddr : VirtAddr)
    (huser : (s.leaf pml4 (pageOf vaddr)).getLsbD 0 = true →
      (s.leaf pml4 (pageOf vaddr)).getLsbD 2 = true → s.IsUserPath pml4 (pageOf vaddr).path) :
    s.hwWalk pml4 vaddr = leafWalk (s.leaf pml4 (pageOf vaddr)) := by
  obtain ⟨habsent, hwalk⟩ | ⟨hpresent, user, hwalk, hiff⟩ := h.hwWalk_cases hlive vaddr
  · rw [hwalk, leafWalk, habsent]
    rfl
  · have heq : user = (s.leaf pml4 (pageOf vaddr)).getLsbD 2 := by
      rw [Bool.eq_iff_iff, hiff]
      exact ⟨fun hboth => hboth.1, fun hbit => ⟨hbit, huser hpresent hbit⟩⟩
    rw [hwalk, leafWalk, hpresent, heq]
    rfl

end

end RainstormOs
