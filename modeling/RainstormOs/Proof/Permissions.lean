import RainstormOs.Proof.Boot

/-!
# Effective permissions

An upper entry is shared by all pages below it and only ever gains bits, so a mapping can neither
withhold a permission from its own page nor lend one to a neighbour: writing and no-execute are
decided by the last-level entry alone, and users reach a page exactly if its own mapping asked for
it. This holds for the most recent mapping of a page, whatever came before or after it elsewhere.
-/

namespace RainstormOs

open Trie (walk Reaches)

/-! ### What calls leave alone -/

/-- The call changes what the page of the space is mapped to. -/
def Event.Edits (pml4 : PhysAddr) (page : Page) : Event → Prop
  | .mapped pml4' virtAddr _ _ => SeesEdit pml4' (pageOf virtAddr) pml4 page
  | .unmapped pml4' virtAddr => SeesEdit pml4' (pageOf virtAddr) pml4 page
  | _ => False

/-- The tables of a space stay, and their entries lose nothing. -/
structure KeepsTables (live : Set PhysAddr) (s t : Machine) : Prop where
  walks : ∀ pml4 ∈ live, ∀ q : List Index, q.length ≤ 3 → ∀ table,
    walk s.child pml4 q = some table → walk t.child pml4 q = some table
  entry : ∀ table i, Reaches s.child live 2 table → (s.entry table i).getLsbD 0 = true →
    t.entry table i = s.entry table i ∨ t.entry table i = s.entry table i ||| pageUser

section

variable {live : Set PhysAddr} {kernelPml4 pml4 : PhysAddr} {page : Page} {s t : Machine}
  {clients clients' : Clients} {event : Event}

theorem Evolves.keepsTables (h : Evolves live s t) : KeepsTables live s t where
  walks _ hlive _ hq _ hwalk := h.walk_mono hlive hq hwalk
  entry := h.entry

theorem Edited.keepsTables {word : BitVec 64} (h : Edited live pml4 page word s t)
    (hlive : pml4 ∈ live) : KeepsTables live s t where
  walks _ hlive' _ hq _ hwalk := h.walk_mono hlive hlive' hq hwalk
  entry _ _ hreach hpresent := h.entry hlive hreach hpresent

/-- A path that lets users through keeps doing so, as long as it leads somewhere. -/
theorem KeepsTables.isUserPath (h : KeepsTables live s t) (hlive : pml4 ∈ live)
    (hpresent : (s.leaf pml4 page).getLsbD 0 = true) (huser : s.IsUserPath pml4 page.path) :
    t.IsUserPath pml4 page.path := by
  intro q i hq table htable
  have hlength := hq.length_le
  rw [List.length_append, List.length_singleton, page.length_path] at hlength
  -- The table of the entry below `q` exists already in `s`, since the page has a last table.
  obtain ⟨next, hnext⟩ : ∃ next, walk s.child pml4 (q ++ [i]) = some next := by
    rw [← Option.isSome_iff_exists]
    by_contra hnone
    rw [Bool.not_eq_true, Option.isSome_eq_false_iff, Option.isNone_iff_eq_none] at hnone
    rw [leaf_eq_zero_of_walk hq hnone, BitVec.getLsbD_zero] at hpresent
    cases hpresent
  obtain ⟨last, hlast, hchild⟩ := Trie.walk_concat_eq_some.mp hnext
  have hsame := h.walks pml4 hlive q (by omega) last hlast
  obtain rfl : last = table := Option.some.inj (hsame.symm.trans htable)
  have hbit := huser q i hq last hlast
  obtain heq | heq := h.entry last i ⟨pml4, hlive, q, by omega, hlast⟩
    (Machine.child_eq_some_iff.mp hchild).1
  · rwa [heq]
  · rw [heq, BitVec.getLsbD_or, hbit, Bool.true_or]

theorem Effect.keepsTables (heffect : Effect clients s event clients' t)
    (h : Consistent kernelPml4 clients s) : KeepsTables clients.live s t := by
  have hsame : ∀ {u : Machine}, SameTables clients.live s u → KeepsTables clients.live s u :=
    fun htables => (htables.evolves h.tables.toForest).keepsTables
  cases heffect with
  | created hcreated =>
      exact hsame (hcreated.taken.sameTables h.tables.toForest hcreated.free)
  | mapped hlive hmapped => exact hmapped.edited.keepsTables hlive
  | unmapped hlive hedited => exact hedited.keepsTables hlive
  | destroyed _ hfreed => exact hsame (hfreed.only.sameTables h.tables.toForest)
  | pmm hpmm => exact hsame (hpmm.only.sameTables h.tables.toForest)
  | switched _ => exact ⟨fun _ _ _ _ _ hwalk => hwalk, fun _ _ _ _ => Or.inl rfl⟩
  | mapRefused _ => exact (Evolves.refl clients.live s).keepsTables
  | unmapAbsent _ _ => exact (Evolves.refl clients.live s).keepsTables
  | unmapRefused _ => exact (Evolves.refl clients.live s).keepsTables

theorem Effect.leaf_of_not_edits (heffect : Effect clients s event clients' t)
    (h : Consistent kernelPml4 clients s) (hlive : pml4 ∈ clients.live)
    (hedits : ¬ event.Edits pml4 page) : t.leaf pml4 page = s.leaf pml4 page := by
  have hsame : ∀ {u : Machine}, SameTables clients.live s u → u.leaf pml4 page = s.leaf pml4 page :=
    fun htables => htables.leaf h.tables.toForest hlive page
  cases heffect with
  | created hcreated =>
      exact hsame (hcreated.taken.sameTables h.tables.toForest hcreated.free)
  | mapped hlive' hmapped => exact hmapped.edited.leaf_of_not_sees hlive' hlive hedits
  | unmapped hlive' hedited => exact hedited.leaf_of_not_sees hlive' hlive hedits
  | destroyed _ hfreed => exact hsame (hfreed.only.sameTables h.tables.toForest)
  | pmm hpmm => exact hsame (hpmm.only.sameTables h.tables.toForest)
  | switched _ => rfl
  | mapRefused _ => rfl
  | unmapAbsent _ _ => rfl
  | unmapRefused _ => rfl

theorem Effect.mem_live (heffect : Effect clients s event clients' t) (hlive : pml4 ∈ clients.live)
    (hdestroyed : event ≠ .destroyed pml4) : pml4 ∈ clients'.live := by
  cases heffect with
  | created _ => exact Set.mem_insert_of_mem _ hlive
  | destroyed _ _ =>
      refine ⟨hlive, ?_⟩
      rintro rfl
      exact hdestroyed rfl
  | _ => exact hlive

theorem Effect.active (h : Effect clients s event clients' t) (hactive : s.cr3 ∈ clients.live)
    (hspared : event ≠ .destroyed s.cr3) : t.cr3 ∈ clients'.live := by
  have hkept := h.mem_live hactive hspared
  cases h with
  | created hcreated =>
      rw [hcreated.taken.cr3]
      exact hkept
  | mapped _ hmapped =>
      rw [hmapped.edited.cr3]
      exact hkept
  | unmapped _ hedited =>
      rw [hedited.cr3]
      exact hkept
  | destroyed _ hfreed =>
      rw [hfreed.only.cr3]
      exact hkept
  | pmm hpmm =>
      rw [hpmm.only.cr3]
      exact hkept
  | switched hlive => exact hlive
  | mapRefused _ => exact hkept
  | unmapAbsent _ _ => exact hkept
  | unmapRefused _ => exact hkept

theorem Effect.live_cases (h : Effect clients s event clients' t) {pml4 : PhysAddr}
    (hlive : pml4 ∈ clients'.live) : pml4 ∈ clients.live ∨ event = .created pml4 := by
  cases h with
  | created _ =>
      cases hlive with
      | inl hnew =>
          rw [hnew]
          exact Or.inr rfl
      | inr hold => exact Or.inl hold
  | destroyed _ _ => exact Or.inl hlive.1
  | _ => exact Or.inl hlive

/-! ### The most recent mapping of a page -/

/-- What the tables hold for a page that was mapped last by the given call. -/
structure Requested (clients : Clients) (s : Machine) (pml4 : PhysAddr) (page : Page)
    (physAddr : PhysAddr) (flags : BitVec 64) : Prop where
  live : pml4 ∈ clients.live
  leaf : s.leaf pml4 page = physAddr ||| flags
  user : flags.getLsbD 2 = true → s.IsUserPath pml4 page.path
  addr : physAddr &&& physAddrMask = physAddr
  flags : IsPageFlags flags

theorem Requested.present {physAddr : PhysAddr} {flags : BitVec 64}
    (h : Requested clients s pml4 page physAddr flags) : (s.leaf pml4 page).getLsbD 0 = true := by
  rw [h.leaf, BitVec.getLsbD_or, h.flags.2, Bool.or_true]

theorem Requested.of_mapped {physAddr : PhysAddr} {flags : BitVec 64}
    (hlive : pml4 ∈ clients.live) (hmapped : Mapped clients.live pml4 page physAddr flags s t)
    (haligned : IsPageAligned physAddr) (hlt : physAddr.toNat < 2 ^ 52)
    (hflags : IsPageFlags flags) : Requested clients t pml4 page physAddr flags where
  live := hlive
  leaf := hmapped.edited.leaf_of_sees hlive hlive ⟨rfl, Or.inl rfl⟩
  user := hmapped.user
  addr := and_physAddrMask_eq_self_iff.mpr ⟨haligned, hlt⟩
  flags := hflags

/-- Calls that neither edit the page nor destroy the space keep it. -/
theorem Requested.step {physAddr : PhysAddr} {flags : BitVec 64}
    (hreq : Requested clients s pml4 page physAddr flags)
    (heffect : Effect clients s event clients' t) (h : Consistent kernelPml4 clients s)
    (hedits : ¬ event.Edits pml4 page) (hdestroyed : event ≠ .destroyed pml4) :
    Requested clients' t pml4 page physAddr flags where
  live := heffect.mem_live hreq.live hdestroyed
  leaf := (heffect.leaf_of_not_edits h hreq.live hedits).trans hreq.leaf
  user hbit := (heffect.keepsTables h).isUserPath hreq.live hreq.present (hreq.user hbit)
  addr := hreq.addr
  flags := hreq.flags

/-- The page the processor finds where a mapping was requested. -/
theorem Requested.hwWalk {physAddr : PhysAddr} {flags : BitVec 64} {vaddr : VirtAddr}
    (hreq : Requested clients s pml4 (pageOf vaddr) physAddr flags)
    (h : Consistent kernelPml4 clients s) :
    s.hwWalk pml4 vaddr = some ⟨physAddr, 12, flags.getLsbD 1, flags.getLsbD 2, flags.getLsbD 63,
      flags.getLsbD 8⟩ := by
  have huser : (s.leaf pml4 (pageOf vaddr)).getLsbD 2 = flags.getLsbD 2 := by
    rw [hreq.leaf, getLsbD_or_flags hreq.addr hreq.flags.plain (by decide) (Or.inl (by decide))]
  have hwalk := h.readable.hwWalk_eq hreq.live vaddr fun _ hbit => hreq.user (huser ▸ hbit)
  rw [hwalk, leafWalk, if_pos hreq.present, huser, hreq.leaf, leafPage_or hreq.addr hreq.flags.plain]

end

theorem Run.requested {kernelPml4 : PhysAddr} {s0 s : Machine} {history : List Event}
    {clients : Clients} (hrun : Run kernelPml4 (fun _ op => op.Valid) s0 history clients s)
    (h0 : Consistent kernelPml4 ⟨{kernelPml4}, ∅⟩ s0) :
    ∀ before after pml4 virtAddr physAddr flags,
      history = before ++ .mapped pml4 virtAddr physAddr flags :: after →
      (∀ event ∈ after, ¬ event.Edits pml4 (pageOf virtAddr)) → .destroyed pml4 ∉ after →
      Requested clients s pml4 (pageOf virtAddr) physAddr flags := by
  refine Run.induct h0 (fun history clients s => ∀ before after pml4 virtAddr physAddr flags,
    history = before ++ .mapped pml4 virtAddr physAddr flags :: after →
    (∀ event ∈ after, ¬ event.Edits pml4 (pageOf virtAddr)) → .destroyed pml4 ∉ after →
    Requested clients s pml4 (pageOf virtAddr) physAddr flags) ?_ ?_ hrun
  · intro before after pml4 virtAddr physAddr flags hhistory
    cases before <;> cases hhistory
  intro history clients clients' s t event _ h _ hvalid heffect ih before after pml4 virtAddr
    physAddr flags hhistory hedits hdestroyed
  -- The mapping is the newest call, or the newest call came after it.
  induction after using List.reverseRecOn with
  | nil =>
      obtain ⟨-, hevent⟩ := List.append_inj' hhistory rfl
      obtain rfl : event = .mapped pml4 virtAddr physAddr flags := by simpa using hevent
      obtain ⟨hvirt, -, hphys, hlt, hflags⟩ := hvalid
      cases heffect with
      | mapped hlive hmapped => exact .of_mapped hlive hmapped hphys hlt hflags
      | mapRefused hmisaligned => exact absurd ⟨hvirt, hphys⟩ hmisaligned
  | append_singleton after last _ =>
      have hsplit : history ++ [event]
          = (before ++ .mapped pml4 virtAddr physAddr flags :: after) ++ [last] := by
        rw [hhistory]
        simp
      obtain ⟨hfront, hback⟩ := List.append_inj' hsplit rfl
      obtain rfl : event = last := by simpa using hback
      have hreq := ih before after pml4 virtAddr physAddr flags hfront
        (fun e he => hedits e (by simp [he])) fun hmem => hdestroyed (by simp [hmem])
      refine hreq.step heffect h (hedits event (by simp)) ?_
      rintro rfl
      exact hdestroyed (by simp)

/-- **Effective permissions are the requested ones.** Where a valid call `paging_map(A, v, p, flags)`
is the most recent edit of the page that `A` sees, and `A` has not been destroyed since, the
processor's walk of `A` reaches frame `p` through a 4 KiB entry, writable, user-accessible and
no-execute exactly as `flags` says. -/
theorem run_permissions {kernelPhysicalBase : PhysAddr} {kernelVirtualBase : VirtAddr}
    {info : KernelSegmentInfo} {boot s0 s : Machine} {kernelPml4 : PhysAddr}
    {before after : List Event} {clients : Clients} (hready : PmmReady boot)
    (hinit : (pagingInit kernelPhysicalBase kernelVirtualBase info).run boot
      = some (kernelPml4, s0))
    {pml4 : PhysAddr} {virtAddr : VirtAddr} {physAddr : PhysAddr} {flags : BitVec 64}
    (hrun : Run kernelPml4 (fun _ op => op.Valid) s0
      (before ++ .mapped pml4 virtAddr physAddr flags :: after) clients s)
    (hlatest : ∀ event ∈ after, ¬ event.Edits pml4 (pageOf virtAddr))
    (halive : Event.destroyed pml4 ∉ after) :
    pml4 ∈ clients.live
      ∧ ∀ vaddr, pageOf vaddr = pageOf virtAddr → ∃ found, s.hwWalk pml4 vaddr = some found
        ∧ found.base = physAddr ∧ found.pageBits = 12
        ∧ (found.writable = true ↔ flags &&& pageWritable ≠ 0#64)
        ∧ (found.user = true ↔ flags &&& pageUser ≠ 0#64)
        ∧ (found.noExecute = true ↔ flags &&& pageNoExecute ≠ 0#64) := by
  have h0 := (pagingInit_initialised hready hinit).consistent
  have hreq := hrun.requested h0 before after pml4 virtAddr physAddr flags rfl hlatest halive
  refine ⟨hreq.live, fun vaddr hpage => ?_⟩
  rw [← hpage] at hreq
  have hbit : ∀ k, k < 64 → (flags.getLsbD k = true ↔ flags &&& 1#64 <<< k ≠ 0#64) := by
    intro k hk
    rw [Ne, BitField.and_one_shiftLeft_eq_zero_iff hk, Bool.not_eq_false]
  exact ⟨_, hreq.hwWalk (hrun.consistent h0), rfl, rfl, hbit 1 (by decide), hbit 2 (by decide),
    hbit 63 (by decide)⟩

theorem run_permissions_bootMemmap :
    ∃ boot kernelPml4 s0 pml4 clients s, PmmReady boot
      ∧ (pagingInit bootPhysicalBase bootVirtualBase bootSymbols.segmentInfo).run boot
          = some (kernelPml4, s0)
      ∧ Run kernelPml4 (fun _ op => op.Valid) s0 [.created pml4, .mapped pml4 0x400000#64 0x5000#64
          (pagePresent ||| pageWritable ||| pageUser ||| pageNoExecute)] clients s
      ∧ ∃ found, s.hwWalk pml4 0x400000#64 = some found ∧ found.base = 0x5000#64
        ∧ found.user = true := by
  obtain ⟨boot, kernelPml4, s0, pml4, clients, s, hpmm, hinit, -, -, hrun⟩ :=
    exists_run_bootMemmap (fun _ op => op.Valid) (fun _ => trivial)
      fun _ _ _ _ => ⟨by decide, by decide, by decide, by decide, by decide⟩
  have hlast : Run kernelPml4 (fun _ op => op.Valid) s0 ([.created pml4] ++ .mapped pml4 0x400000#64
      0x5000#64 (pagePresent ||| pageWritable ||| pageUser ||| pageNoExecute) :: []) clients s := hrun
  obtain ⟨-, hpermissions⟩ := run_permissions hpmm.ready hinit hlast (by simp) (by simp)
  obtain ⟨found, hfound, hbase, -, -, huser, -⟩ := hpermissions 0x400000#64 rfl
  exact ⟨boot, kernelPml4, s0, pml4, clients, s, hpmm.ready, hinit, hrun, found, hfound, hbase,
    huser.mpr (by decide)⟩

end RainstormOs
