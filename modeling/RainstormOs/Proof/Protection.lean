import RainstormOs.Proof.Coherence

/-!
# Protection

A last-level entry comes from the layout `paging_init` sets up or from a call of `paging_map`, and a
new address space gets only copies of entries that exist. So whatever the layout and all requests keep
to, every entry of every space keeps to. Two policies are worth stating for the processor's walk: no
page can be both written and executed, and users do not reach the kernel's half.
-/

namespace RainstormOs

/-- A condition on the last-level entry of a page. -/
structure Policy where
  allows : Page → BitVec 64 → Prop
  absent : ∀ page, allows page 0#64

/-- Every last-level entry of the spaces is allowed. -/
def Obeys (policy : Policy) (live : Set PhysAddr) (s : Machine) : Prop :=
  ∀ pml4 ∈ live, ∀ page, policy.allows page (s.leaf pml4 page)

/-- The call asks for an entry that is allowed. -/
def Op.Obeys (policy : Policy) : Op → Prop
  | .map _ virtAddr physAddr flags =>
      IsPageAligned physAddr → policy.allows (pageOf virtAddr) (physAddr ||| flags)
  | _ => True

section

variable {policy : Policy} {kernelPml4 : PhysAddr} {clients clients' : Clients} {s t : Machine}
  {event : Event}

theorem Obeys.step (hobeys : Obeys policy clients.live s) (h : Consistent kernelPml4 clients s)
    (hop : event.op.Obeys policy) (heffect : Effect clients s event clients' t) :
    Obeys policy clients'.live t := by
  intro pml4 hlive page
  rcases heffect.leaf_cases h hlive page with ⟨hold, hleaf⟩ | ⟨-, hleaf⟩ | hzero |
    ⟨pml4', virtAddr, physAddr, flags, rfl, hsees, hmapped, hleaf⟩
  · rw [hleaf]
    exact hobeys pml4 hold page
  · rw [hleaf]
    exact hobeys kernelPml4 h.kernel page
  · rw [hzero]
    exact policy.absent page
  · rw [hleaf, hsees.1]
    exact hop hmapped.aligned

theorem Run.obeys {s0 : Machine} {history : List Event}
    (hrun : Run kernelPml4 (fun _ op => op.Obeys policy) s0 history clients s)
    (h0 : Consistent kernelPml4 ⟨{kernelPml4}, ∅⟩ s0) (hobeys : Obeys policy {kernelPml4} s0) :
    Obeys policy clients.live s := by
  refine Run.induct h0 (fun _ clients s => Obeys policy clients.live s) hobeys ?_ hrun
  exact fun _ _ _ _ _ _ _ h _ hop heffect hobeys => hobeys.step h hop heffect

end

/-! ### The layout of `paging_init` -/

theorem RangeMapping.mapFirst_obeys {policy : Policy} {range : RangeMapping} {leaf : Page → BitVec 64}
    (haligned : range.IsAligned)
    (hflags : ∀ page addr, IsPageAligned addr → policy.allows page (addr ||| range.flags))
    (hleaf : ∀ page, policy.allows page (leaf page)) (count : Nat) (page : Page) :
    policy.allows page (range.mapFirst leaf count page) := by
  induction count with
  | zero => exact hleaf page
  | succ count ih =>
      rw [mapFirst, Function.update_apply]
      split
      · refine hflags page _ ?_
        have hphys := (isPageAligned_iff _).mp haligned.2
        rw [isPageAligned_iff, BitVec.toNat_add, BitVec.toNat_mul]
        change (_ + _ * 4096 % 2 ^ 64) % 2 ^ 64 % 4096 = 0
        omega
      · exact ih

theorem layoutOf_obeys {policy : Policy} {ranges : List RangeMapping}
    (hflags : ∀ range ∈ ranges, ∀ page addr, IsPageAligned addr →
      policy.allows page (addr ||| range.flags)) (page : Page) :
    policy.allows page (layoutOf ranges page) := by
  induction ranges using List.reverseRecOn generalizing page with
  | nil => exact policy.absent page
  | append_singleton ranges last ih =>
      have hrest := ih fun range hrange => hflags range (List.mem_append_left _ hrange)
      have hlast := hflags last (List.mem_append_right _ List.mem_cons_self)
      rw [layoutOf, List.foldl_append]
      change policy.allows page (last.apply (layoutOf ranges) page)
      rw [RangeMapping.apply]
      split
      · next haligned => exact RangeMapping.mapFirst_obeys haligned hlast hrest _ page
      · exact hrest page

theorem PagingInitialised.obeys {policy : Policy} {ranges : List RangeMapping} {s t : Machine}
    {pml4 : PhysAddr} (h : PagingInitialised ranges s pml4 t)
    (hflags : ∀ range ∈ ranges, ∀ page addr, IsPageAligned addr →
      policy.allows page (addr ||| range.flags)) : Obeys policy {pml4} t := by
  intro root hroot page
  rw [Set.mem_singleton_iff.mp hroot, h.leaf]
  exact layoutOf_obeys hflags page

/-! ### Writing and executing -/

/-- An entry that lets its page be written does not let it be executed. -/
def writeXorExecute : Policy where
  allows _ entry := entry.getLsbD 1 = true → entry.getLsbD 63 = true
  absent _ hbit := by cases hbit

/-- What is asked for writing is asked for as no-execute. -/
def Op.IsWriteXorExecute : Op → Prop
  | .map _ _ _ flags => flags &&& pageWritable ≠ 0#64 → flags &&& pageNoExecute ≠ 0#64
  | _ => True

theorem getLsbD_flag_iff (flags : BitVec 64) {k : Nat} (hk : k < 64) :
    flags.getLsbD k = true ↔ flags &&& 1#64 <<< k ≠ 0#64 := by
  rw [Ne, BitField.and_one_shiftLeft_eq_zero_iff hk, Bool.not_eq_false]

theorem Op.IsWriteXorExecute.obeys {op : Op} (h : op.IsWriteXorExecute) :
    op.Obeys writeXorExecute := by
  cases op with
  | map pml4 virtAddr physAddr flags =>
      intro haligned hbit
      have hno := h (and_flag_ne_zero haligned (by decide) hbit)
      have hflag : flags.getLsbD 63 = true := (getLsbD_flag_iff flags (by decide)).mpr hno
      rw [BitVec.getLsbD_or, hflag, Bool.or_true]
  | _ => trivial

section

variable {kernelPhysicalBase : PhysAddr} {kernelVirtualBase : VirtAddr} {info : KernelSegmentInfo}
  {boot s0 s : Machine} {kernelPml4 pml4 : PhysAddr} {history : List Event} {clients : Clients}
  {vaddr : VirtAddr} {found : Translation}

/-- **Write xor execute.** As long as no call asks for a page that is writable and not no-execute, the
processor finds none in any live space, those of `paging_init` included. -/
theorem run_writeXorExecute (hready : PmmReady boot)
    (hinit : (pagingInit kernelPhysicalBase kernelVirtualBase info).run boot
      = some (kernelPml4, s0))
    (hrun : Run kernelPml4 (fun _ op => op.IsWriteXorExecute) s0 history clients s)
    (hlive : pml4 ∈ clients.live) (hwalk : s.hwWalk pml4 vaddr = some found) :
    found.writable = true → found.noExecute = true := by
  have hstart := pagingInit_initialised hready hinit
  have h0 := hstart.consistent
  have hlayout : Obeys writeXorExecute {kernelPml4} s0 := by
    refine hstart.obeys fun range hrange page addr haligned hbit => ?_
    have hflags := isKernelFlags_of_mem_initRanges hrange
    rw [getLsbD_or_of_isPageAligned haligned (by decide)] at hbit
    obtain hread | hno := hflags.exclusive
    · rw [hread] at hbit
      cases hbit
    · rw [BitVec.getLsbD_or, hno, Bool.or_true]
  have hobeys := (hrun.mono fun _ _ hop => hop.obeys).obeys h0 hlayout
  obtain ⟨-, hnone⟩ | ⟨-, user, hfound, -⟩ := (hrun.consistent h0).readable.hwWalk_cases hlive vaddr
  · rw [hwalk] at hnone
    cases hnone
  · obtain rfl : found = _ := Option.some.inj (hwalk.symm.trans hfound)
    exact hobeys pml4 hlive (pageOf vaddr)

theorem run_writeXorExecute_bootMemmap :
    ∃ boot kernelPml4 s0 pml4 clients s found, PmmReady boot
      ∧ (pagingInit bootPhysicalBase bootVirtualBase bootSymbols.segmentInfo).run boot
          = some (kernelPml4, s0)
      ∧ Run kernelPml4 (fun _ op => op.IsWriteXorExecute) s0 [.created pml4,
          .mapped pml4 0x400000#64 0x5000#64
            (pagePresent ||| pageWritable ||| pageUser ||| pageNoExecute)] clients s
      ∧ s.hwWalk pml4 0x400000#64 = some found
      ∧ (found.writable = true → found.noExecute = true) := by
  obtain ⟨boot, kernelPml4, s0, pml4, clients, s, hpmm, hinit, -, hlive, hrun⟩ :=
    exists_run_bootMemmap (fun _ op => op.Valid ∧ op.IsWriteXorExecute) (fun _ => ⟨trivial, trivial⟩)
      fun _ _ _ _ => ⟨⟨by decide, by decide, by decide, by decide, by decide⟩, fun _ => by decide⟩
  have h0 := (pagingInit_initialised hpmm.ready hinit).consistent
  have hvalid := hrun.mono fun _ _ hop => hop.1
  have hseparated := hrun.mono fun _ _ hop => hop.2
  have hwalk := (hvalid.requested h0 [.created pml4] [] _ _ _ _ rfl (by simp) (by simp)).hwWalk
    (hvalid.consistent h0)
  exact ⟨boot, kernelPml4, s0, pml4, clients, s, _, hpmm.ready, hinit, hseparated, hwalk,
    run_writeXorExecute hpmm.ready hinit hseparated hlive hwalk⟩

/-! ### Users and the kernel's half -/

/-- An entry that is open to users is not in the kernel's half. -/
def supervisorHalf : Policy where
  allows page entry := entry.getLsbD 2 = true → ¬ page.IsKernel
  absent _ hbit := by cases hbit

/-- What is asked for users is asked for below `2 ^ 47`. -/
def Op.IsSupervisorHalf : Op → Prop
  | .map _ virtAddr _ flags => flags &&& pageUser ≠ 0#64 → virtAddr.toNat < 2 ^ 47
  | _ => True

theorem not_isKernel_of_lt (hlow : vaddr.toNat < 2 ^ 47) : ¬ (pageOf vaddr).IsKernel := by
  have hcanonical : IsCanonical vaddr := Or.inl hlow
  rw [isKernel_pageOf_iff hcanonical, IsHigherHalf]
  omega

theorem Op.IsSupervisorHalf.obeys {op : Op} (h : op.IsSupervisorHalf) :
    op.Obeys supervisorHalf := by
  cases op with
  | map pml4 virtAddr physAddr flags =>
      intro haligned hbit
      exact not_isKernel_of_lt (h (and_flag_ne_zero haligned (by decide) hbit))
  | _ => trivial

/-- **The kernel's half is the kernel's.** As long as pages for users are asked for in the lower half,
no address of the higher half is open to users in any live space, whatever is mapped, unmapped, created
and destroyed. -/
theorem run_supervisorHalf (hready : PmmReady boot)
    (hinit : (pagingInit kernelPhysicalBase kernelVirtualBase info).run boot
      = some (kernelPml4, s0))
    (hrun : Run kernelPml4 (fun _ op => op.IsSupervisorHalf) s0 history clients s)
    (hlive : pml4 ∈ clients.live) (hhigh : IsHigherHalf vaddr)
    (hwalk : s.hwWalk pml4 vaddr = some found) : found.user = false := by
  have hstart := pagingInit_initialised hready hinit
  have h0 := hstart.consistent
  have hlayout : Obeys supervisorHalf {kernelPml4} s0 := by
    refine hstart.obeys fun range hrange page addr haligned hbit => ?_
    rw [getLsbD_or_of_isPageAligned haligned (by decide),
      (isKernelFlags_of_mem_initRanges hrange).user] at hbit
    cases hbit
  have hobeys := (hrun.mono fun _ _ hop => hop.obeys).obeys h0 hlayout
  have hkernel : (pageOf vaddr).IsKernel := (isKernel_pageOf_iff (Or.inr hhigh)).mpr hhigh
  obtain ⟨-, hnone⟩ | ⟨-, user, hfound, huser⟩ :=
    (hrun.consistent h0).readable.hwWalk_cases hlive vaddr
  · rw [hwalk] at hnone
    cases hnone
  · obtain rfl : found = _ := Option.some.inj (hwalk.symm.trans hfound)
    rw [← Bool.not_eq_true]
    intro hopen
    exact hobeys pml4 hlive (pageOf vaddr) (huser.mp hopen).1 hkernel

/-- The first page of the direct map, after boot. -/
theorem run_supervisorHalf_bootMemmap :
    ∃ boot kernelPml4 s0 found, PmmReady boot
      ∧ (pagingInit bootPhysicalBase bootVirtualBase bootSymbols.segmentInfo).run boot
          = some (kernelPml4, s0)
      ∧ Run kernelPml4 (fun _ op => op.IsSupervisorHalf) s0 [] ⟨{kernelPml4}, ∅⟩ s0
      ∧ s0.hwWalk kernelPml4 0xFFFF800000000000#64 = some found ∧ found.user = false := by
  obtain ⟨boot, kernelPml4, s0, hinit, hpaging, -⟩ := memoryInit_bootMemmap
  have hle : boot.globals.totalFrames.toNat ≤ 2 ^ 40 := hinit.pmm.layout.total_le
  have hin : boot.globals.InWindow 0xFFFF800000000000#64 := by
    rw [Globals.InWindow, bootMemmap_totalFrames hinit.pmm, bootMemmap_hhdmOffset hinit.pmm]
    decide
  have hwindow : windowRange boot.globals
      ∈ initRanges boot.globals bootPhysicalBase bootVirtualBase bootSymbols.segmentInfo :=
    List.mem_cons_self
  have hpresent : (s0.leaf kernelPml4 (pageOf 0xFFFF800000000000#64)).getLsbD 0 = true := by
    rw [hinit.paging.leaf, (bootSymbols_wellPlaced hinit.pmm).layoutOf_eq_entryAt hle hwindow
      ((contains_windowRange_iff hle).mpr hin), RangeMapping.entryAt, BitVec.getLsbD_or,
      (isKernelFlags_of_mem_initRanges hwindow).present, Bool.or_true]
  have hrun : Run kernelPml4 (fun _ op => op.IsSupervisorHalf) s0 [] ⟨{kernelPml4}, ∅⟩ s0 := .init
  obtain ⟨habsent, -⟩ | ⟨-, user, hfound, -⟩ :=
    hinit.paging.consistent.readable.hwWalk_cases rfl 0xFFFF800000000000#64
  · rw [hpresent] at habsent
    cases habsent
  · exact ⟨boot, kernelPml4, s0, _, hinit.pmm.ready, hpaging, hrun, hfound,
      run_supervisorHalf hinit.pmm.ready hpaging hrun rfl (by decide) hfound⟩

end

end RainstormOs
