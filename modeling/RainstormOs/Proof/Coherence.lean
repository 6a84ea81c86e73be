import RainstormOs.Lib.Interleave
import RainstormOs.Proof.AddressSpaces
import RainstormOs.Proof.Permissions
import RainstormOs.Tlb

/-!
# The tables and the translation lookaside buffer

Cached translations are right at every point between calls, although the processor fills its buffer
in the middle of them. The last-level entry decides a translation as long as global pages stay in the
shared half and user pages in the private one (`Confined`). A call then changes at most one
translation of the active space, in its last store, and flushes that page before it returns; loading
another space drops everything that is not shared by all of them.
-/

namespace RainstormOs

open Trie (walk Reaches)

/-- The call maps and unmaps canonical addresses only, keeps global mappings to the higher half and user
mappings to the lower one, and does not destroy the active space. -/
def Op.IsConfined (s : Machine) : Op → Prop
  | .map _ virtAddr _ flags => IsCanonical virtAddr
      ∧ (flags &&& pageGlobal ≠ 0#64 → IsHigherHalf virtAddr)
      ∧ (flags &&& pageUser ≠ 0#64 → ¬ IsHigherHalf virtAddr)
  | .unmap _ virtAddr => IsCanonical virtAddr
  | .destroy pml4 => pml4 ≠ s.cr3
  | _ => True

/-- Runs from `s0` beside which the processor fills its buffer as it likes, starting from an empty
one. -/
inductive TlbRun (kernelPml4 : PhysAddr) (rule : Machine → Op → Prop) (s0 : Machine) :
    List Event → Clients → Machine → Tlb → Prop where
  | init {tlb : Tlb} (hfills : Tlb.Refills s0 ∅ tlb) :
      TlbRun kernelPml4 rule s0 [] ⟨{kernelPml4}, ∅⟩ s0 tlb
  | step {history : List Event} {clients clients' : Clients} {s t : Machine} {tlb tlb' : Tlb}
      {op : Op} {event : Event} (hrun : TlbRun kernelPml4 rule s0 history clients s tlb)
      (henabled : op.Enabled kernelPml4 clients) (hrule : rule s op)
      (hcall : Prog.Interleaved exec Tlb.Refills Tlb.notice (op.prog clients) s tlb
        (event, clients') t tlb') :
      TlbRun kernelPml4 rule s0 (history ++ [event]) clients' t tlb'

/-- A global page is shared, a user page is not, and the whole path to a user page is open. -/
structure Machine.ConfinedAt (s : Machine) (pml4 : PhysAddr) (page : Page) : Prop where
  global : (s.leaf pml4 page).getLsbD 8 = true → page.IsKernel
  user : (s.leaf pml4 page).getLsbD 2 = true → ¬ page.IsKernel
  path : (s.leaf pml4 page).getLsbD 0 = true → (s.leaf pml4 page).getLsbD 2 = true →
    s.IsUserPath pml4 page.path

def Confined (live : Set PhysAddr) (s : Machine) : Prop :=
  ∀ pml4 ∈ live, ∀ page, s.ConfinedAt pml4 page

theorem getLsbD_or_of_isPageAligned {addr flags : BitVec 64} (haligned : IsPageAligned addr)
    {k : Nat} (hk : k < 12) : (addr ||| flags).getLsbD k = flags.getLsbD k := by
  rw [BitVec.getLsbD_or, getLsbD_of_isPageAligned haligned hk, Bool.false_or]

/-- The bits of a last-level entry are those of the flags it was mapped with. -/
theorem and_flag_ne_zero {addr flags : BitVec 64} (haligned : IsPageAligned addr) {k : Nat}
    (hk : k < 12) (hbit : (addr ||| flags).getLsbD k = true) : flags &&& 1#64 <<< k ≠ 0#64 := by
  rw [getLsbD_or_of_isPageAligned haligned hk] at hbit
  rw [Ne, BitField.and_one_shiftLeft_eq_zero_iff (by omega), Bool.not_eq_false]
  exact hbit

section

variable {kernelPml4 pml4 : PhysAddr} {live : Set PhysAddr} {clients clients' : Clients}
  {s t : Machine} {event : Event} {page : Page} {vaddr : VirtAddr}

/-! ### The last-level entry decides -/

theorem Confined.hwWalk_eq (h : Confined live s) (hkeeps : KeepsTables live s t)
    (hreadable : Readable live t) (hlive : pml4 ∈ live)
    (hleaf : t.leaf pml4 (pageOf vaddr) = s.leaf pml4 (pageOf vaddr)) :
    t.hwWalk pml4 vaddr = leafWalk (s.leaf pml4 (pageOf vaddr)) := by
  rw [← hleaf]
  apply hreadable.hwWalk_eq hlive
  intro hpresent huser
  rw [hleaf] at hpresent huser
  exact hkeeps.isUserPath hlive hpresent ((h pml4 hlive _).path hpresent huser)

theorem Effect.leaf_cases (heffect : Effect clients s event clients' t)
    (h : Consistent kernelPml4 clients s) (hlive : pml4 ∈ clients'.live) (page : Page) :
    (pml4 ∈ clients.live ∧ t.leaf pml4 page = s.leaf pml4 page)
      ∨ (page.IsKernel ∧ t.leaf pml4 page = s.leaf kernelPml4 page)
      ∨ t.leaf pml4 page = 0#64
      ∨ ∃ pml4' virtAddr physAddr flags, event = .mapped pml4' virtAddr physAddr flags
        ∧ SeesEdit pml4' (pageOf virtAddr) pml4 page
        ∧ Mapped clients.live pml4' (pageOf virtAddr) physAddr flags s t
        ∧ t.leaf pml4 page = physAddr ||| flags := by
  rcases heffect.live_cases hlive with hold | rfl
  · by_cases hedits : event.Edits pml4 page
    · cases heffect with
      | mapped hlive' hmapped =>
          have hleaf := hmapped.edited.leaf_of_sees hlive' hold hedits
          exact Or.inr (Or.inr (Or.inr ⟨_, _, _, _, rfl, hedits, hmapped, hleaf⟩))
      | unmapped hlive' hedited =>
          exact Or.inr (Or.inr (Or.inl (hedited.leaf_of_sees hlive' hold hedits)))
      | mapRefused _ => exact Or.inl ⟨hold, rfl⟩
      | unmapAbsent _ _ => exact Or.inl ⟨hold, rfl⟩
      | unmapRefused _ => exact Or.inl ⟨hold, rfl⟩
      | created _ => exact hedits.elim
      | destroyed _ _ => exact hedits.elim
      | switched _ => exact hedits.elim
      | pmm _ => exact hedits.elim
    · exact Or.inl ⟨hold, heffect.leaf_of_not_edits h hold hedits⟩
  · cases heffect with
    | created hcreated =>
        have hleaf := hcreated.leaf_fresh h.tables h.snapshot h.kernel page
        by_cases hkernel : page.IsKernel
        · rw [if_pos hkernel] at hleaf
          exact Or.inr (Or.inl ⟨hkernel, hleaf⟩)
        · rw [if_neg hkernel] at hleaf
          exact Or.inr (Or.inr (Or.inl hleaf))

theorem Machine.ConfinedAt.of_leaf_eq_zero (hzero : s.leaf pml4 page = 0#64) :
    s.ConfinedAt pml4 page := by
  constructor <;> rw [hzero, BitVec.getLsbD_zero] <;> intro hbit <;> cases hbit

theorem Confined.step (hconfined : Confined clients.live s) (h : Consistent kernelPml4 clients s)
    (hop : event.op.IsConfined s) (heffect : Effect clients s event clients' t) :
    Confined clients'.live t := by
  intro pml4 hlive page
  rcases heffect.leaf_cases h hlive page with ⟨hold, hleaf⟩ | ⟨hkernel, hleaf⟩ | hzero |
    ⟨pml4', virtAddr, physAddr, flags, rfl, hsees, hmapped, hleaf⟩
  · have hat := hconfined pml4 hold page
    constructor <;> rw [hleaf]
    · exact hat.global
    · exact hat.user
    · intro hpresent hbit
      exact (heffect.keepsTables h).isUserPath hold hpresent (hat.path hpresent hbit)
  · -- The new space shares the page with the kernel's, so it is not a user page.
    have hat := hconfined kernelPml4 h.kernel page
    constructor <;> rw [hleaf]
    · exact hat.global
    · exact hat.user
    · intro _ hbit
      exact absurd hkernel (hat.user hbit)
  · exact .of_leaf_eq_zero hzero
  · obtain ⟨hcanonical, hhigher, hlower⟩ := hop
    obtain ⟨rfl, hroots⟩ := hsees
    have hkernel := isKernel_pageOf_iff hcanonical
    have huser : (physAddr ||| flags).getLsbD 2 = true → ¬ (pageOf virtAddr).IsKernel := by
      intro hbit
      rw [hkernel]
      exact hlower (and_flag_ne_zero hmapped.aligned (by decide) hbit)
    constructor <;> rw [hleaf]
    · intro hbit
      exact hkernel.mpr (hhigher (and_flag_ne_zero hmapped.aligned (by decide) hbit))
    · exact huser
    · intro _ hbit
      obtain rfl : pml4 = pml4' := hroots.resolve_right (huser hbit)
      rw [getLsbD_or_of_isPageAligned hmapped.aligned (by decide)] at hbit
      exact hmapped.user hbit

theorem PagingInitialised.confined {kernelPhysicalBase : PhysAddr} {kernelVirtualBase : VirtAddr}
    {info : KernelSegmentInfo}
    (h : PagingInitialised (initRanges s.globals kernelPhysicalBase kernelVirtualBase info) s pml4 t)
    (hlayout : HigherHalfLayout s.globals info) (htotal : s.globals.totalFrames.toNat ≤ 2 ^ 40) :
    Confined {pml4} t := by
  intro root hroot page
  rw [Set.mem_singleton_iff] at hroot
  rw [hroot]
  have huser : (t.leaf pml4 page).getLsbD 2 = false := by
    rw [h.leaf]
    apply layoutOf_getLsbD (by decide)
    exact fun range hrange => (isKernelFlags_of_mem_initRanges hrange).user
  constructor
  · intro hbit
    by_contra hkernel
    rw [h.leaf, hlayout.layoutOf_eq_zero htotal hkernel, BitVec.getLsbD_zero] at hbit
    cases hbit
  · intro hbit
    rw [huser] at hbit
    cases hbit
  · intro _ hbit
    rw [huser] at hbit
    cases hbit

/-! ### The buffer and the last-level entries -/

/-- Every cached translation is the one of a last-level entry. -/
def Tlb.FromLeaves (leaf : Page → BitVec 64) (tlb : Tlb) : Prop :=
  ∀ entry ∈ tlb, leafWalk (leaf entry.page) = some entry.found

theorem Tlb.notice_subset (c : Cmd) (tlb : Tlb) : Tlb.notice c tlb ⊆ tlb := by
  intro entry hentry
  cases c with
  | invlpg _ => exact hentry.1
  | writeCr3 _ => exact hentry.1
  | _ => exact hentry

theorem Tlb.FromLeaves.refills {leaf : Page → BitVec 64} {tlb tlb' : Tlb}
    (h : Tlb.FromLeaves leaf tlb) (hrefills : Tlb.Refills s tlb tlb')
    (hwalk : ∀ vaddr, s.hwWalk s.cr3 vaddr = leafWalk (leaf (pageOf vaddr))) :
    Tlb.FromLeaves leaf tlb' := by
  intro entry hentry
  cases hrefills entry hentry with
  | inl hold => exact h entry hold
  | inr hcaches =>
      obtain ⟨vaddr, -, hpage, hfound⟩ := hcaches
      rw [hwalk, show pageOf vaddr = entry.page from hpage] at hfound
      exact hfound

/-- Until its last store a call translates as before. -/
theorem Confined.walk_of_evolves (hconfined : Confined live s) (hactive : s.cr3 ∈ live)
    (hreadable : Readable live t) (hevolves : Evolves live s t) (vaddr : VirtAddr) :
    t.hwWalk t.cr3 vaddr = leafWalk (s.leaf s.cr3 (pageOf vaddr)) := by
  rw [hevolves.cr3]
  exact hconfined.hwWalk_eq hevolves.keepsTables hreadable hactive
    (hevolves.leaf s.cr3 hactive (pageOf vaddr))

/-- And after it, other pages do. -/
theorem Confined.walk_of_edited (hconfined : Confined clients.live s)
    (h : Consistent kernelPml4 clients s) (hactive : s.cr3 ∈ clients.live) {word : BitVec 64}
    (hlive : pml4 ∈ clients.live) (hedited : Edited clients.live pml4 page word s t)
    (hne : pageOf vaddr ≠ page) :
    t.hwWalk t.cr3 vaddr = leafWalk (s.leaf s.cr3 (pageOf vaddr)) := by
  rw [hedited.cr3]
  apply hconfined.hwWalk_eq (hedited.keepsTables hlive) (hedited.consistent h hlive).readable
    hactive
  apply hedited.leaf_of_not_sees hlive hactive
  intro hsees
  exact hne hsees.1

/-- No command of a call leaves a translation behind that was not right before the call. -/
theorem Within.fromLeaves {mid after : Machine} {c : Cmd} {reply : Cmd.Reply c} {tlb tlb' : Tlb}
    (hwithin : Within clients.live s mid c) (hconfined : Confined clients.live s)
    (h : Consistent kernelPml4 clients s) (hactive : s.cr3 ∈ clients.live)
    (hreply : exec c mid = some (reply, after)) (hrefills : Tlb.Refills mid tlb tlb')
    (htlb : Tlb.FromLeaves (s.leaf s.cr3) tlb) :
    Tlb.FromLeaves (s.leaf s.cr3) (Tlb.notice c tlb') := by
  cases hwithin with
  | plain hreadable hevolves _ =>
      have hfilled := htlb.refills hrefills
        (hconfined.walk_of_evolves hactive hreadable hevolves)
      intro entry hentry
      exact hfilled entry (Tlb.notice_subset c tlb' hentry)
  | flush hlive hedited =>
      rintro entry ⟨hentry, hpage⟩
      cases hrefills entry hentry with
      | inl hold => exact htlb entry hold
      | inr hcaches =>
          obtain ⟨vaddr, -, hvaddr, hfound⟩ := hcaches
          have hvaddr : pageOf vaddr = entry.page := hvaddr
          rw [hconfined.walk_of_edited h hactive hlive hedited (hvaddr ▸ hpage), hvaddr] at hfound
          exact hfound
  | load _ hmid =>
      subst hmid
      have hfilled := htlb.refills hrefills
        (hconfined.walk_of_evolves hactive h.readable (Evolves.refl _ mid))
      exact fun entry hentry => hfilled entry hentry.1
  | stop => cases hreply

/-! ### The end of a call -/

/-- The commands that `paging_map`, `paging_unmap` and `paging_switch_pml4` end with. -/
def Cmd.Settles : Cmd → Prop
  | .invlpg _ => True
  | .klogf _ _ _ => True
  | .writeCr3 _ => True
  | _ => False

theorem endsWith_klogf (level : KlogLevel) (string : String) (args : List (BitVec 64))
    (ended : Prop) : (klogf level string args).EndsWith Cmd.Settles ended :=
  fun _ => trivial

theorem endsWith_invlpg (addr : VirtAddr) (ended : Prop) :
    (invlpg addr).EndsWith Cmd.Settles ended :=
  fun _ => trivial

theorem endsWith_pagingMap (pml4Phys : PhysAddr) (virtAddr : VirtAddr) (physAddr : PhysAddr)
    (flags : BitVec 64) (ended : Prop) :
    (pagingMap pml4Phys virtAddr physAddr flags).EndsWith Cmd.Settles ended := by
  rw [pagingMap]
  split
  · exact endsWith_klogf _ _ _ ended
  split
  · exact endsWith_klogf _ _ _ ended
  split
  · exact endsWith_klogf _ _ _ ended
  iterate 5
    apply Prog.EndsWith.bind
    intro _ ended
  split
  · iterate 3
      apply Prog.EndsWith.bind
      intro _ ended
    exact endsWith_invlpg virtAddr ended
  · apply Prog.EndsWith.bind
    intro _ ended
    exact endsWith_invlpg virtAddr ended

theorem endsWith_pagingDescend {α : Type} {pml4Phys : PhysAddr} {virtAddr : VirtAddr}
    {absent : Kernel α} {found : Globals → PhysAddr → Kernel α}
    (habsent : ∀ ended, absent.EndsWith Cmd.Settles ended)
    (hfound : ∀ g ptPhys ended, (found g ptPhys).EndsWith Cmd.Settles ended) (ended : Prop) :
    (pagingDescend pml4Phys virtAddr absent found).EndsWith Cmd.Settles ended := by
  rw [pagingDescend]
  apply Prog.EndsWith.bind
  intro g ended
  iterate 4
    apply Prog.EndsWith.bind
    intro entry ended
    split
    · exact habsent ended
  exact hfound g _ ended

theorem endsWith_pagingUnmap (pml4Phys : PhysAddr) (virtAddr : VirtAddr) (ended : Prop) :
    (pagingUnmap pml4Phys virtAddr).EndsWith Cmd.Settles ended := by
  rw [pagingUnmap_eq]
  split
  · exact endsWith_klogf _ _ _ ended
  split
  · exact endsWith_klogf _ _ _ ended
  apply endsWith_pagingDescend
  · intro ended
    exact endsWith_klogf _ _ _ ended
  · intro g ptPhys ended
    apply Prog.EndsWith.bind
    intro _ ended
    exact endsWith_invlpg virtAddr ended

theorem endsWith_pagingSwitchPml4 (pml4Phys : PhysAddr) (ended : Prop) :
    (pagingSwitchPml4 pml4Phys).EndsWith Cmd.Settles ended := by
  rw [pagingSwitchPml4]
  split
  · exact endsWith_klogf _ _ _ ended
  · exact fun _ => trivial

/-- After such a command the buffer agrees with the tables the call leaves. -/
theorem Within.fromLeaves_of_settles {mid after : Machine} {c : Cmd} {reply : Cmd.Reply c}
    {tlb tlb' : Tlb} (hwithin : Within clients.live s mid c) (hsettles : c.Settles)
    (hconfined : Confined clients.live s) (h : Consistent kernelPml4 clients s)
    (hactive : s.cr3 ∈ clients.live) (hreply : exec c mid = some (reply, after))
    (hrefills : Tlb.Refills mid tlb tlb') (htlb : Tlb.FromLeaves (s.leaf s.cr3) tlb) :
    Tlb.FromLeaves (after.leaf after.cr3) (Tlb.notice c tlb') := by
  have hkept := hwithin.fromLeaves hconfined h hactive hreply hrefills htlb
  -- Neither `invlpg` nor a log line changes the machine.
  have hsame : (∀ pml4, c ≠ .writeCr3 pml4) → after = mid := by
    intro hne
    cases c with
    | invlpg _ => exact (Prod.mk.inj (Option.some.inj hreply)).2.symm
    | klogf _ _ _ => exact (Prod.mk.inj (Option.some.inj hreply)).2.symm
    | writeCr3 pml4 => exact absurd rfl (hne pml4)
    | _ => exact hsettles.elim
  cases hwithin with
  | plain _ hevolves hc =>
      rw [hsame (by rintro pml4 rfl; exact hc.plain trivial), hevolves.cr3]
      intro entry hentry
      rw [hevolves.leaf s.cr3 hactive]
      exact hkept entry hentry
  | flush hlive hedited =>
      rw [hsame (by rintro _ ⟨⟩), hedited.cr3]
      intro entry hentry
      have hleaf : mid.leaf s.cr3 entry.page = s.leaf s.cr3 entry.page :=
        hedited.leaf_of_not_sees hlive hactive fun hsees => hentry.2 hsees.1
      rw [hleaf]
      exact hkept entry hentry
  | @load pml4 hlive hmid =>
      subst hmid
      have hafter := (Prod.mk.inj (Option.some.inj hreply)).2
      rw [← hafter]
      intro entry hentry
      -- A translation that stays is global, so the page is one of the shared half.
      have hfound := hkept entry hentry
      have hglobal : (mid.leaf mid.cr3 entry.page).getLsbD 8 = true := by
        rw [leafWalk] at hfound
        split at hfound
        · rw [← hentry.2, ← Option.some.inj hfound]
          rfl
        · cases hfound
      have hleaf := h.tables.leaf_of_isKernel hlive hactive
        ((hconfined mid.cr3 hactive entry.page).global hglobal)
      change leafWalk (mid.leaf pml4 entry.page) = some entry.found
      rw [hleaf]
      exact hfound
  | stop => cases hreply

/-- **One call, with the processor filling its buffer all along.** -/
theorem Op.fromLeaves {op : Op} {tlb tlb' : Tlb} (hconfined : Confined clients.live s)
    (h : Consistent kernelPml4 clients s) (hactive : s.cr3 ∈ clients.live)
    (henabled : op.Enabled kernelPml4 clients) (hop : op.IsConfined s)
    (htlb : Tlb.FromLeaves (s.leaf s.cr3) tlb)
    (hcall : Prog.Interleaved exec Tlb.Refills Tlb.notice (op.prog clients) s tlb
      (event, clients') t tlb') :
    Tlb.FromLeaves (t.leaf t.cr3) tlb' := by
  obtain ⟨heffect, hconsistent⟩ := Op.effect h henabled hcall.run
  have hevent := Op.event_op hcall.run
  subst hevent
  have hactive' : t.cr3 ∈ clients'.live := by
    apply heffect.active hactive
    rintro rfl
    exact hop rfl
  have hwalk := (hconfined.step h hop heffect).walk_of_evolves hactive' hconsistent.readable
    (Evolves.refl _ t)
  have hwp := Op.wp_prog h henabled
  -- Calls that end by settling the buffer, and calls that leave every last-level entry alone.
  have hsettled : event.op.prog clients |>.EndsWith Cmd.Settles False →
      ∃ tlb'', Tlb.FromLeaves (t.leaf t.cr3) tlb'' ∧ Tlb.Refills t tlb'' tlb' := by
    intro hends
    apply hcall.finish hwp (Tlb.FromLeaves (s.leaf s.cr3)) ?_ hends
      (fun after tlb => Tlb.FromLeaves (after.leaf after.cr3) tlb) ?_ htlb False.elim
    · intro mid c reply after tlb tlb' hwithin hreply hrefills htlb
      exact hwithin.fromLeaves hconfined h hactive hreply hrefills htlb
    · intro mid c reply after tlb tlb' hwithin hsettles hreply hrefills htlb
      exact hwithin.fromLeaves_of_settles hsettles hconfined h hactive hreply hrefills htlb
  have hquiet : t.cr3 = s.cr3 → (∀ page, ¬ event.Edits s.cr3 page) →
      ∃ tlb'', Tlb.FromLeaves (t.leaf t.cr3) tlb'' ∧ Tlb.Refills t tlb'' tlb' := by
    intro hcr3 hedits
    obtain ⟨tlb'', hkept, hrefills, -⟩ := hcall.invariant hwp (Tlb.FromLeaves (s.leaf s.cr3))
      (fun _ _ _ _ _ _ hwithin hreply hrefills htlb =>
        hwithin.fromLeaves hconfined h hactive hreply hrefills htlb) htlb
    refine ⟨tlb'', ?_, hrefills⟩
    intro entry hentry
    rw [hcr3, heffect.leaf_of_not_edits h hactive (hedits entry.page)]
    exact hkept entry hentry
  suffices hend : ∃ tlb'', Tlb.FromLeaves (t.leaf t.cr3) tlb'' ∧ Tlb.Refills t tlb'' tlb' by
    obtain ⟨tlb'', hfrom, hrefills⟩ := hend
    exact hfrom.refills hrefills hwalk
  cases event with
  | created pml4 =>
      cases heffect with
      | created hcreated => exact hquiet hcreated.taken.cr3 fun _ => id
  | mapped pml4 virtAddr physAddr flags =>
      exact hsettled ((endsWith_pagingMap pml4 virtAddr physAddr flags False).bind_pure _)
  | unmapped pml4 virtAddr =>
      exact hsettled ((endsWith_pagingUnmap pml4 virtAddr False).bind_pure _)
  | destroyed pml4 =>
      cases heffect with
      | destroyed _ hfreed => exact hquiet hfreed.only.cr3 fun _ => id
  | switched pml4 => exact hsettled ((endsWith_pagingSwitchPml4 pml4 False).bind_pure _)
  | pmm call =>
      cases heffect with
      | pmm hpmm => exact hquiet hpmm.only.cr3 fun _ => id

/-! ### Runs -/

variable {rule : Machine → Op → Prop} {s0 : Machine} {history : List Event} {tlb : Tlb}

/-- The calls do not depend on the buffer. -/
theorem TlbRun.run (h : TlbRun kernelPml4 rule s0 history clients s tlb) :
    Run kernelPml4 rule s0 history clients s := by
  induction h with
  | init _ => exact .init
  | step _ henabled hrule hcall ih => exact .step ih henabled hrule hcall.run

theorem Run.exists_tlbRun (h : Run kernelPml4 rule s0 history clients s) :
    ∃ tlb, TlbRun kernelPml4 rule s0 history clients s tlb := by
  induction h with
  | init => exact ⟨{entry | s0.Caches entry}, .init fun entry hentry => Or.inr hentry⟩
  | step _ henabled hrule hcall ih =>
      obtain ⟨tlb, hrun⟩ := ih
      have hidle : ∀ t tlb, Tlb.Refills t tlb tlb := fun _ _ _ hentry => Or.inl hentry
      obtain ⟨tlb', hcall'⟩ := Prog.Interleaved.exists_of_run hidle hcall tlb
      exact ⟨tlb', .step hrun henabled hrule hcall'⟩

theorem TlbRun.fromLeaves (hrun : TlbRun kernelPml4 (fun t op => op.IsConfined t) s0 history clients
      s tlb) (h0 : Consistent kernelPml4 ⟨{kernelPml4}, ∅⟩ s0)
    (hconfined0 : Confined {kernelPml4} s0) (hactive0 : s0.cr3 = kernelPml4) :
    Confined clients.live s ∧ s.cr3 ∈ clients.live ∧ Tlb.FromLeaves (s.leaf s.cr3) tlb := by
  induction hrun with
  | init hfills =>
      have hempty : Tlb.FromLeaves (s0.leaf s0.cr3) ∅ := fun entry hentry => hentry.elim
      refine ⟨hconfined0, hactive0, hempty.refills hfills ?_⟩
      exact hconfined0.walk_of_evolves hactive0 h0.readable (Evolves.refl _ s0)
  | step hrun henabled hop hcall ih =>
      obtain ⟨hconfined, hactive, htlb⟩ := ih
      have h := hrun.run.consistent h0
      obtain ⟨heffect, -⟩ := Op.effect h henabled hcall.run
      have hevent := Op.event_op hcall.run
      have hfrom := Op.fromLeaves hconfined h hactive henabled hop htlb hcall
      subst hevent
      refine ⟨hconfined.step h hop heffect, ?_, hfrom⟩
      apply heffect.active hactive
      rintro rfl
      exact hop rfl

end

/-- **The buffer is coherent.** From the state `paging_init` leaves, with an empty buffer, and for any
calls that map and unmap canonical addresses, keep global mappings to the higher half and user mappings
to the lower one and do not destroy the active space: whatever walks the processor cached before, between and in the middle of
these calls, every cached translation is the one a walk of the active space would find, and a page
that is not mapped has none. -/
theorem tlbRun_coherent {kernelPhysicalBase : PhysAddr} {kernelVirtualBase : VirtAddr}
    {info : KernelSegmentInfo} {boot s0 s : Machine} {kernelPml4 : PhysAddr}
    {history : List Event} {clients : Clients} {tlb : Tlb} (hready : PmmReady boot)
    (hinit : (pagingInit kernelPhysicalBase kernelVirtualBase info).run boot
      = some (kernelPml4, s0))
    (hlayout : HigherHalfLayout boot.globals info)
    (hrun : TlbRun kernelPml4 (fun t op => op.IsConfined t) s0 history clients s tlb) :
    Tlb.Coherent s tlb := by
  have hpaging := pagingInit_initialised hready hinit
  have h0 := hpaging.consistent
  obtain ⟨hconfined, hactive, hfrom⟩ :=
    hrun.fromLeaves h0 (hpaging.confined hlayout hready.layout.total_le) hpaging.cr3
  intro vaddr _ found hcached
  have hfound : leafWalk (s.leaf s.cr3 (pageOf vaddr)) = some found :=
    hfrom ⟨pageOf vaddr, found⟩ hcached
  have hwalk := hconfined.walk_of_evolves hactive (hrun.run.consistent h0).readable
    (Evolves.refl _ s) vaddr
  exact hwalk.trans hfound

theorem tlbRun_coherent_bootMemmap :
    ∃ boot kernelPml4 s0 pml4 clients s tlb, PmmReady boot
      ∧ HigherHalfLayout boot.globals bootSymbols.segmentInfo
      ∧ (pagingInit bootPhysicalBase bootVirtualBase bootSymbols.segmentInfo).run boot
          = some (kernelPml4, s0)
      ∧ TlbRun kernelPml4 (fun t op => op.IsConfined t) s0 [.created pml4, .mapped pml4 0x400000#64
          0x5000#64 (pagePresent ||| pageWritable ||| pageUser ||| pageNoExecute)] clients s tlb
      ∧ Tlb.Coherent s tlb := by
  obtain ⟨boot, kernelPml4, s0, pml4, clients, s, hpmm, hinit, -, -, hrun⟩ :=
    exists_run_bootMemmap (fun t op => op.IsConfined t) (fun _ => trivial)
      fun _ _ _ _ => ⟨by decide, by decide, by decide⟩
  obtain ⟨tlb, htlb⟩ := hrun.exists_tlbRun
  have hlayout := (bootSymbols_wellPlaced hpmm).higherHalf
  exact ⟨boot, kernelPml4, s0, pml4, clients, s, tlb, hpmm.ready, hlayout, hinit, htlb,
    tlbRun_coherent hpmm.ready hinit hlayout htlb⟩

end RainstormOs
