import RainstormOs.Proof.Translate
import RainstormOs.Proof.PmmClients

/-!
# The memory managers and their callers

The kernel's other parts call the two memory managers in any order. They are held to little: an
address space is used only between its creation and its destruction, the kernel's own is never
destroyed, and only frames that were handed out are given back. `Clients` is what they have in hand,
and a `Run` is any sequence of calls that all return.

What one call can do is said once, twice over: `Effect` is the state it returns in, `Within` is what
holds at every command on the way. The invariant over runs, `Consistent`, and everything later rest
on these two.
-/

namespace RainstormOs

open Trie (walk Reaches)

/-- A call of `paging.h` that changes something, or of `pmm.h`. -/
inductive Op where
  | create
  | map (pml4 : PhysAddr) (virtAddr : VirtAddr) (physAddr : PhysAddr) (flags : BitVec 64)
  | unmap (pml4 : PhysAddr) (virtAddr : VirtAddr)
  | destroy (pml4 : PhysAddr)
  | switch (pml4 : PhysAddr)
  | pmm (call : PmmCall)

/-- A call that has returned. Only the creation of a space has a result that matters later. -/
inductive Event where
  | created (pml4 : PhysAddr)
  | mapped (pml4 : PhysAddr) (virtAddr : VirtAddr) (physAddr : PhysAddr) (flags : BitVec 64)
  | unmapped (pml4 : PhysAddr) (virtAddr : VirtAddr)
  | destroyed (pml4 : PhysAddr)
  | switched (pml4 : PhysAddr)
  | pmm (call : PmmCall)

def Event.op : Event → Op
  | .created _ => .create
  | .mapped pml4 virtAddr physAddr flags => .map pml4 virtAddr physAddr flags
  | .unmapped pml4 virtAddr => .unmap pml4 virtAddr
  | .destroyed pml4 => .destroy pml4
  | .switched pml4 => .switch pml4
  | .pmm call => .pmm call

/-- The address spaces that exist and the frames that have been handed out. -/
structure Clients where
  live : Set PhysAddr
  held : Finset Nat

def Op.Enabled (kernelPml4 : PhysAddr) (clients : Clients) : Op → Prop
  | .create => True
  | .map pml4 _ _ _ => pml4 ∈ clients.live
  | .unmap pml4 _ => pml4 ∈ clients.live
  | .destroy pml4 => pml4 ∈ clients.live ∧ pml4 ≠ kernelPml4
  | .switch pml4 => pml4 ∈ clients.live
  | .pmm call => call.Allowed clients.held

/-- The call, and what its callers have in hand after it. -/
def Op.prog (clients : Clients) : Op → Kernel (Event × Clients)
  | .create => do
      let pml4 ← pagingCreatePml4
      pure (.created pml4, { clients with live := insert pml4 clients.live })
  | .map pml4 virtAddr physAddr flags => do
      pagingMap pml4 virtAddr physAddr flags
      pure (.mapped pml4 virtAddr physAddr flags, clients)
  | .unmap pml4 virtAddr => do
      pagingUnmap pml4 virtAddr
      pure (.unmapped pml4 virtAddr, clients)
  | .destroy pml4 => do
      let _ ← pagingDestroyPml4 pml4
      pure (.destroyed pml4, { clients with live := clients.live \ {pml4} })
  | .switch pml4 => do
      pagingSwitchPml4 pml4
      pure (.switched pml4, clients)
  | .pmm call => do
      let held ← call.prog clients.held
      pure (.pmm call, { clients with held := held })

def pageFlags : BitVec 64 :=
  pagePresent ||| pageWritable ||| pageUser ||| pageWriteThrough ||| pageCacheDisable
    ||| pageGlobal ||| pageNoExecute

/-- Some of the `PAGE_*` bits, `PAGE_PRESENT` among them. -/
def IsPageFlags (flags : BitVec 64) : Prop :=
  flags &&& pageFlags = flags ∧ flags.getLsbD 0 = true

instance (flags : BitVec 64) : Decidable (IsPageFlags flags) := inferInstanceAs (Decidable (_ ∧ _))

def Op.Valid : Op → Prop
  | .map _ virtAddr physAddr flags =>
      IsPageAligned virtAddr ∧ IsCanonical virtAddr ∧ IsPageAligned physAddr
        ∧ physAddr.toNat < 2 ^ 52 ∧ IsPageFlags flags
  | .unmap _ virtAddr => IsPageAligned virtAddr ∧ IsCanonical virtAddr
  | _ => True

/-- Runs from `s0` whose calls all keep to `rule`, with the calls so far, oldest first. -/
inductive Run (kernelPml4 : PhysAddr) (rule : Machine → Op → Prop) (s0 : Machine) :
    List Event → Clients → Machine → Prop where
  | init : Run kernelPml4 rule s0 [] ⟨{kernelPml4}, ∅⟩ s0
  | step {history : List Event} {clients clients' : Clients} {s t : Machine} {op : Op}
      {event : Event} (hrun : Run kernelPml4 rule s0 history clients s)
      (henabled : op.Enabled kernelPml4 clients) (hrule : rule s op)
      (hcall : (op.prog clients).run s = some ((event, clients'), t)) :
      Run kernelPml4 rule s0 (history ++ [event]) clients' t

theorem Run.mono {kernelPml4 : PhysAddr} {rule rule' : Machine → Op → Prop} {s0 s : Machine}
    {history : List Event} {clients : Clients} (h : Run kernelPml4 rule s0 history clients s)
    (hrule : ∀ t op, rule t op → rule' t op) : Run kernelPml4 rule' s0 history clients s := by
  induction h with
  | init => exact .init
  | step hrun henabled hop hcall ih => exact .step ih henabled (hrule _ _ hop) hcall

/-! ### The invariant -/

/-- What holds between calls. -/
structure Consistent (kernelPml4 : PhysAddr) (clients : Clients) (s : Machine) : Prop where
  tables : Tables clients.live s
  snapshot : Snapshot clients.live s
  kernel : kernelPml4 ∈ clients.live
  nxe : s.nxe = true
  held : ∀ f ∈ clients.held, f < s.globals.totalFrames.toNat ∧ s.frameBit f = true
    ∧ ¬ s.globals.IsBitmapFrame f
    ∧ ∀ table, Reaches s.child clients.live 3 table → frameOf table ≠ f

/-- What one call does, by its event. -/
inductive Effect (clients : Clients) (s : Machine) : Event → Clients → Machine → Prop where
  | created {f : Nat} {t : Machine} (h : Created s f t) :
      Effect clients s (.created (frameAddr f))
        { clients with live := insert (frameAddr f) clients.live } t
  | mapped {pml4 : PhysAddr} {virtAddr : VirtAddr} {physAddr : PhysAddr} {flags : BitVec 64}
      {t : Machine} (hlive : pml4 ∈ clients.live)
      (h : Mapped clients.live pml4 (pageOf virtAddr) physAddr flags s t) :
      Effect clients s (.mapped pml4 virtAddr physAddr flags) clients t
  | mapRefused {pml4 : PhysAddr} {virtAddr : VirtAddr} {physAddr : PhysAddr} {flags : BitVec 64}
      (hmisaligned : ¬ (IsPageAligned virtAddr ∧ IsPageAligned physAddr)) :
      Effect clients s (.mapped pml4 virtAddr physAddr flags) clients s
  | unmapped {pml4 : PhysAddr} {virtAddr : VirtAddr} {t : Machine} (hlive : pml4 ∈ clients.live)
      (h : Edited clients.live pml4 (pageOf virtAddr) 0#64 s t) :
      Effect clients s (.unmapped pml4 virtAddr) clients t
  | unmapAbsent {pml4 : PhysAddr} {virtAddr : VirtAddr} (hlive : pml4 ∈ clients.live)
      (habsent : (s.leaf pml4 (pageOf virtAddr)).getLsbD 0 = false) :
      Effect clients s (.unmapped pml4 virtAddr) clients s
  | unmapRefused {pml4 : PhysAddr} {virtAddr : VirtAddr} (hmisaligned : ¬ IsPageAligned virtAddr) :
      Effect clients s (.unmapped pml4 virtAddr) clients s
  | destroyed {pml4 : PhysAddr} {t : Machine} (hlive : pml4 ∈ clients.live)
      (h : Freed s (freedTrace (s.privateTables pml4)) t) :
      Effect clients s (.destroyed pml4) { clients with live := clients.live \ {pml4} } t
  | switched {pml4 : PhysAddr} (hlive : pml4 ∈ clients.live) :
      Effect clients s (.switched pml4) clients { s with cr3 := pml4 }
  | pmm {call : PmmCall} {held : Finset Nat} {t : Machine}
      (h : PmmEffect s clients.held t held) :
      Effect clients s (.pmm call) { clients with held := held } t

/-- What holds at every command of a call. Until the last-level store nothing a translation depends
on has changed, and that store is followed by `invlpg`. -/
inductive Within (live : Set PhysAddr) (s t : Machine) : Cmd → Prop where
  | plain {c : Cmd} (hreadable : Readable live t) (hevolves : Evolves live s t)
      (hc : c.Tracked s.globals) : Within live s t c
  | flush {pml4 : PhysAddr} {virtAddr : VirtAddr} {word : BitVec 64} (hlive : pml4 ∈ live)
      (h : Edited live pml4 (pageOf virtAddr) word s t) : Within live s t (.invlpg virtAddr)
  | load {pml4 : PhysAddr} (hlive : pml4 ∈ live) (h : t = s) : Within live s t (.writeCr3 pml4)
  | stop {string : String} : Within live s t (.kpanic string)

section

variable {kernelPml4 : PhysAddr} {clients clients' : Clients} {s t : Machine} {event : Event}
  {op : Op}

theorem IsPageFlags.plain {flags : BitVec 64} (h : IsPageFlags flags) :
    flags &&& physAddrMask = 0#64 := by
  have hzero : pageFlags &&& physAddrMask = 0#64 := by decide
  rw [← h.1, BitVec.and_assoc, hzero, BitVec.and_zero]

theorem Consistent.held_set (h : Consistent kernelPml4 clients s) :
    ∀ f ∈ clients.held, f < s.globals.totalFrames.toNat ∧ s.frameBit f = true :=
  fun f hf => ⟨(h.held f hf).1, (h.held f hf).2.1⟩

theorem Consistent.readable (h : Consistent kernelPml4 clients s) : Readable clients.live s :=
  h.tables.readable h.nxe

/-- Stores outside the tables are unnoticed by translation. -/
theorem Consistent.within_sameTables (h : Consistent kernelPml4 clients s)
    (hsame : SameTables clients.live s t) {c : Cmd} (hc : c.Tracked s.globals) :
    Within clients.live s t c :=
  .plain (hsame.readable h.tables.toForest h.nxe) (hsame.evolves h.tables.toForest) hc

theorem Consistent.within_pmm (h : Consistent kernelPml4 clients s) (honly : PmmOnly s t) {c : Cmd}
    (hc : c.Tracked s.globals) : Within clients.live s t c :=
  h.within_sameTables (honly.sameTables h.tables.toForest) hc

/-- **One call.** -/
theorem Op.wp_prog (h : Consistent kernelPml4 clients s) (hop : op.Enabled kernelPml4 clients) :
    Prog.Wp exec (Within clients.live s) (op.prog clients) s
      fun out t => Effect clients s out.1 out.2 t := by
  have hhere : ∀ c : Cmd, c.Tracked s.globals → Within clients.live s s c :=
    fun c hc => h.within_pmm (PmmOnly.refl s) hc
  have htracked : ∀ t c, PmmOnly s t → PmmCommand s.globals c → Within clients.live s t c :=
    fun t c honly hc => h.within_pmm honly (hc.tracked h.tables.layout)
  cases op with
  | create =>
      rw [Op.prog, Prog.wp_bind]
      refine wp_pagingCreatePml4 h.tables.toPmmReady
        (fun c hc => htracked s c (PmmOnly.refl s) hc) (fun _ => .stop) ?_ ?_
      · intro f t c hfree htaken hc
        exact h.within_sameTables (htaken.sameTables h.tables.toForest hfree) hc
      · intro f t hcreated
        exact .created hcreated
  | map pml4 virtAddr physAddr flags =>
      have hlive : pml4 ∈ clients.live := hop
      rw [Op.prog, Prog.wp_bind]
      refine wp_pagingMap h.tables hlive ?_ (fun _ _ _ => .stop) ?_ ?_ ?_
      · intro t c htables hevolves hc
        exact .plain (htables.readable (hevolves.nxe.trans h.nxe)) hevolves hc
      · intro t hmapped
        exact .flush hlive hmapped.edited
      · intro hmisaligned
        exact .mapRefused hmisaligned
      · intro _ _ t hmapped
        exact .mapped hlive hmapped
  | unmap pml4 virtAddr =>
      have hlive : pml4 ∈ clients.live := hop
      rw [Op.prog, Prog.wp_bind]
      refine wp_pagingUnmap h.tables hlive hhere ?_ ?_ ?_ ?_
      · intro t hedited
        exact .flush hlive hedited
      · intro hmisaligned
        exact .unmapRefused hmisaligned
      · intro _ habsent
        exact .unmapAbsent hlive habsent
      · intro _ t hedited
        exact .unmapped hlive hedited
  | destroy pml4 =>
      rw [Op.prog, Prog.wp_bind]
      refine wp_pagingDestroyPml4 h.tables hop.1 (fun t c honly hc => h.within_pmm honly hc) ?_
      intro t hfreed
      exact .destroyed hop.1 hfreed
  | switch pml4 =>
      have hlive : pml4 ∈ clients.live := hop
      have haligned := h.tables.isPageAligned hlive
      rw [Op.prog, pagingSwitchPml4, if_neg (not_not_intro haligned), Prog.wp_bind, wp_writeCr3]
      exact ⟨.load hlive rfl, .switched hlive⟩
  | pmm call =>
      rw [Op.prog, Prog.wp_bind]
      refine (PmmCall.wp_prog h.tables.layout htracked (fun _ => .stop) h.held_set hop).post ?_
      intro held t heffect
      exact .pmm heffect

/-! ### Every call keeps the invariant -/

theorem Edited.consistent {pml4 : PhysAddr} {page : Page} {word : BitVec 64}
    (hedited : Edited clients.live pml4 page word s t) (h : Consistent kernelPml4 clients s)
    (hlive : pml4 ∈ clients.live) : Consistent kernelPml4 clients t := by
  refine ⟨hedited.tables hlive, ?_, h.kernel, hedited.nxe.trans h.nxe, ?_⟩
  · refine h.snapshot.of_child hedited.globals ?_
    intro root hroot i next hchild
    have hwalk : walk s.child root [i] = some next := by
      rw [walk, hchild]
      rfl
    have hwalk' := hedited.walk_mono hlive hroot (by simp) hwalk
    obtain ⟨last, hlast, hchild'⟩ := Trie.walk_concat_eq_some.mp
      (show walk t.child root ([] ++ [i]) = some next from hwalk')
    obtain rfl : root = last := Option.some.inj hlast
    exact hchild'
  · intro f hf
    obtain ⟨hlt, hbit, hbitmap, hout⟩ := h.held f hf
    rw [hedited.globals]
    refine ⟨hlt, ?_, hbitmap, ?_⟩
    · rw [hedited.bits hlive (h.tables.layout.frame_byte hlt)]
      exact Or.inl hbit
    · rintro table ⟨root, hroot, path, hlength, hwalk⟩ heq
      obtain hold | ⟨hfree, -⟩ := hedited.walks hlive hroot hlength hwalk
      · exact hout table ⟨root, hroot, path, hlength, hold⟩ heq
      · rw [heq, Machine.IsFree, hbit] at hfree
        cases hfree.2

theorem Created.consistent {f : Nat} (hcreated : Created s f t)
    (h : Consistent kernelPml4 clients s) :
    Consistent kernelPml4 { clients with live := insert (frameAddr f) clients.live } t := by
  have htotal := h.tables.layout.total_le
  have hlt := hcreated.free.1
  refine ⟨hcreated.tables h.tables h.snapshot h.kernel,
    hcreated.snapshot h.tables h.snapshot h.kernel, Set.mem_insert_of_mem _ h.kernel,
    hcreated.taken.nxe.trans h.nxe, ?_⟩
  intro f' hf'
  obtain ⟨hlt', hbit, hbitmap, hout⟩ := h.held f' hf'
  rw [hcreated.taken.globals]
  refine ⟨hlt', ?_, hbitmap, ?_⟩
  · rw [hcreated.taken.bits h.tables.toPmmReady hcreated.free
      (h.tables.layout.frame_byte hlt')]
    exact Or.inl hbit
  · intro table hreach
    obtain rfl | hold := hcreated.reaches h.tables h.snapshot h.kernel (Nat.le_refl 3) hreach
    · rw [frameOf_frameAddr (by omega)]
      rintro rfl
      have hfree := hcreated.free.2
      rw [hbit] at hfree
      cases hfree
    · exact hout table hold

theorem Freed.consistent {pml4 : PhysAddr}
    (hfreed : Freed s (freedTrace (s.privateTables pml4)) t)
    (h : Consistent kernelPml4 clients s) (hlive : pml4 ∈ clients.live) (hne : pml4 ≠ kernelPml4) :
    Consistent kernelPml4 { clients with live := clients.live \ {pml4} } t := by
  have hsame := hfreed.only.sameTables h.tables.toForest
  refine ⟨hfreed.tables h.tables hlive, ?_, ⟨h.kernel, Ne.symm hne⟩,
    hfreed.only.nxe.trans h.nxe, ?_⟩
  · have hrest : Snapshot (clients.live \ {pml4}) s :=
      ⟨h.snapshot.flags, fun i hi root hroot => h.snapshot.child i hi root hroot.1⟩
    refine hrest.of_child hfreed.only.globals ?_
    intro root hroot i next hchild
    rw [hsame.child h.tables.toForest root i ⟨root, hroot.1, [], Nat.zero_le _, rfl⟩, hchild]
  · intro f hf
    obtain ⟨hlt, hbit, hbitmap, hout⟩ := h.held f hf
    have htotal := h.tables.layout.total_le
    rw [hfreed.only.globals]
    refine ⟨hlt, ?_, hbitmap, ?_⟩
    · rw [hfreed.bits f (by omega)]
      refine ⟨hbit, fun step hstep => ?_⟩
      obtain ⟨table, htable, rfl⟩ := List.mem_map.mp hstep
      obtain ⟨path, hlength, hwalk, -⟩ := mem_privateTables.mp htable
      exact hout table ⟨pml4, hlive, path, hlength, hwalk⟩
    · rintro table ⟨root, hroot, path, hlength, hwalk⟩
      rw [walk_eq_of_child (hsame.child h.tables.toForest) hroot.1 hlength] at hwalk
      exact hout table ⟨root, hroot.1, path, hlength, hwalk⟩

theorem PmmEffect.consistent {held : Finset Nat} (heffect : PmmEffect s clients.held t held)
    (h : Consistent kernelPml4 clients s) :
    Consistent kernelPml4 { clients with held := held } t := by
  have htotal := h.tables.layout.total_le
  have htracked := h.tables.layout.tracked
  have hsame := heffect.only.sameTables h.tables.toForest
  have hkeep : ∀ f, f < s.globals.totalFrames.toNat → s.frameBit f = true → f ∉ clients.held →
      t.frameBit f = true := by
    intro f hlt hbit hout
    rw [heffect.bits f (by omega)]
    exact Or.inl ⟨hbit, hout⟩
  have hchild := hsame.child h.tables.toForest
  refine ⟨h.tables.of_child (hsame.forest h.tables.toForest ?_ ?_) hchild, ?_, h.kernel,
    heffect.only.nxe.trans h.nxe, ?_⟩
  · intro table hreach
    have hframe := h.tables.frame table hreach
    exact hkeep _ hframe.tracked hframe.allocated fun hmem => (h.held _ hmem).2.2.2 table hreach rfl
  · intro f hf
    exact hkeep f (by have := hf.2; omega) (h.tables.bitmap f hf)
      fun hmem => (h.held f hmem).2.2.1 hf
  · refine h.snapshot.of_child heffect.only.globals ?_
    intro root hroot i next hnext
    rw [hchild root i ⟨root, hroot, [], Nat.zero_le _, rfl⟩, hnext]
  · intro f hf
    rw [heffect.only.globals]
    have hset : f < 2 ^ 64 → t.frameBit f = true := fun hlt => (heffect.bits f hlt).mpr (Or.inr hf)
    have hreaches : ∀ table, Reaches t.child clients.live 3 table →
        Reaches s.child clients.live 3 table :=
      fun table => (reaches_iff_of_child hchild (Nat.le_refl 3)).mp
    obtain hold | hfree := heffect.taken f hf
    · obtain ⟨hlt, -, hbitmap, hout⟩ := h.held f hold
      exact ⟨hlt, hset (by omega), hbitmap, fun table hreach => hout table (hreaches table hreach)⟩
    · have hlt := hfree.1
      exact ⟨hlt, hset (by omega), h.tables.toPmmReady.not_bitmap_of_isFree hfree,
        fun table hreach => h.tables.not_reaches_of_isFree hfree (hreaches table hreach)⟩

theorem Effect.globals (h : Effect clients s event clients' t) : t.globals = s.globals := by
  cases h with
  | created hcreated => exact hcreated.taken.globals
  | mapped _ hmapped => exact hmapped.edited.globals
  | unmapped _ hedited => exact hedited.globals
  | destroyed _ hfreed => exact hfreed.only.globals
  | pmm hpmm => exact hpmm.only.globals
  | _ => rfl

/-- **The invariant is kept by every call.** -/
theorem Effect.consistent (heffect : Effect clients s event clients' t)
    (h : Consistent kernelPml4 clients s) (hkernel : event ≠ .destroyed kernelPml4) :
    Consistent kernelPml4 clients' t := by
  cases heffect with
  | created hcreated => exact hcreated.consistent h
  | mapped hlive hmapped => exact hmapped.edited.consistent h hlive
  | mapRefused _ => exact h
  | unmapped hlive hedited => exact hedited.consistent h hlive
  | unmapAbsent _ _ => exact h
  | unmapRefused _ => exact h
  | destroyed hlive hfreed =>
      refine hfreed.consistent h hlive ?_
      rintro rfl
      exact hkernel rfl
  | switched _ =>
      exact ⟨h.tables.withRegisters s.globals.kernelPml4Entries _ s.nxe, ⟨h.snapshot.flags,
        h.snapshot.child⟩, h.kernel, h.nxe, h.held⟩
  | pmm hpmm => exact hpmm.consistent h

theorem Op.event_op (hcall : (op.prog clients).run s = some ((event, clients'), t)) :
    event.op = op := by
  have hany : ∀ {α : Type} (prog : Kernel α) (next : α → Event × Clients),
      (∀ value, (next value).1.op = op) →
      Prog.Wp exec (fun _ _ => True) (prog >>= fun value => pure (next value)) s
        fun out _ => out.1.op = op := by
    intro α prog next hnext
    rw [Prog.wp_bind]
    exact (Prog.wp_run prog s).post fun value _ _ => hnext value
  have hwp : Prog.Wp exec (fun _ _ => True) (op.prog clients) s fun out _ => out.1.op = op := by
    cases op <;> exact hany _ _ fun _ => rfl
  exact hwp.of_run hcall

/-! ### Runs -/

variable {rule : Machine → Op → Prop} {s0 : Machine} {history : List Event}

theorem Op.effect (h : Consistent kernelPml4 clients s) (hop : op.Enabled kernelPml4 clients)
    (hcall : (op.prog clients).run s = some ((event, clients'), t)) :
    Effect clients s event clients' t ∧ Consistent kernelPml4 clients' t := by
  have heffect := (Op.wp_prog h hop).of_run hcall
  refine ⟨heffect, heffect.consistent h ?_⟩
  rintro rfl
  rw [← Op.event_op hcall] at hop
  exact hop.2 rfl

theorem Run.consistent (hrun : Run kernelPml4 rule s0 history clients s)
    (h0 : Consistent kernelPml4 ⟨{kernelPml4}, ∅⟩ s0) : Consistent kernelPml4 clients s := by
  induction hrun with
  | init => exact h0
  | step _ henabled _ hcall ih => exact (Op.effect ih henabled hcall).2

/-! ### Single calls -/

theorem Op.run_create {pml4 : PhysAddr} (hcall : pagingCreatePml4.run s = some (pml4, t)) :
    (Op.create.prog clients).run s
      = some ((.created pml4, { clients with live := insert pml4 clients.live }), t) := by
  rw [Op.prog, Kernel.run_bind, hcall]
  rfl

theorem Op.run_map {pml4 : PhysAddr} {virtAddr : VirtAddr} {physAddr : PhysAddr}
    {flags : BitVec 64} (hcall : (pagingMap pml4 virtAddr physAddr flags).run s = some ((), t)) :
    ((Op.map pml4 virtAddr physAddr flags).prog clients).run s
      = some ((.mapped pml4 virtAddr physAddr flags, clients), t) := by
  rw [Op.prog, Kernel.run_bind, hcall]
  rfl

theorem Op.run_unmap {pml4 : PhysAddr} {virtAddr : VirtAddr}
    (hcall : (pagingUnmap pml4 virtAddr).run s = some ((), t)) :
    ((Op.unmap pml4 virtAddr).prog clients).run s
      = some ((.unmapped pml4 virtAddr, clients), t) := by
  rw [Op.prog, Kernel.run_bind, hcall]
  rfl

theorem Consistent.effect_create (h : Consistent kernelPml4 clients s) {pml4 : PhysAddr}
    (hcall : pagingCreatePml4.run s = some (pml4, t)) :
    Effect clients s (.created pml4) { clients with live := insert pml4 clients.live } t := by
  have hop : Op.create.Enabled kernelPml4 clients := trivial
  exact (Op.effect h hop (Op.run_create hcall)).1

theorem Consistent.effect_map (h : Consistent kernelPml4 clients s) {pml4 : PhysAddr}
    (hlive : pml4 ∈ clients.live) {virtAddr : VirtAddr} {physAddr : PhysAddr} {flags : BitVec 64}
    (hcall : (pagingMap pml4 virtAddr physAddr flags).run s = some ((), t)) :
    Effect clients s (.mapped pml4 virtAddr physAddr flags) clients t := by
  have hop : (Op.map pml4 virtAddr physAddr flags).Enabled kernelPml4 clients := hlive
  exact (Op.effect h hop (Op.run_map hcall)).1

theorem Consistent.effect_unmap (h : Consistent kernelPml4 clients s) {pml4 : PhysAddr}
    (hlive : pml4 ∈ clients.live) {virtAddr : VirtAddr}
    (hcall : (pagingUnmap pml4 virtAddr).run s = some ((), t)) :
    Effect clients s (.unmapped pml4 virtAddr) clients t := by
  have hop : (Op.unmap pml4 virtAddr).Enabled kernelPml4 clients := hlive
  exact (Op.effect h hop (Op.run_unmap hcall)).1

/-- An invariant that every call keeps, given the effect it has, holds over every run. -/
theorem Run.induct (h0 : Consistent kernelPml4 ⟨{kernelPml4}, ∅⟩ s0)
    (inv : List Event → Clients → Machine → Prop) (hinit : inv [] ⟨{kernelPml4}, ∅⟩ s0)
    (hstep : ∀ history clients clients' s t event, Run kernelPml4 rule s0 history clients s →
      Consistent kernelPml4 clients s → event.op.Enabled kernelPml4 clients → rule s event.op →
      Effect clients s event clients' t → inv history clients s →
      inv (history ++ [event]) clients' t)
    (hrun : Run kernelPml4 rule s0 history clients s) : inv history clients s := by
  induction hrun with
  | init => exact hinit
  | step hrun henabled hrule hcall ih =>
      have h := hrun.consistent h0
      have heffect := (Op.effect h henabled hcall).1
      rw [← Op.event_op hcall] at henabled hrule
      exact hstep _ _ _ _ _ _ hrun h henabled hrule heffect ih

/-! ### Calls return while there are frames -/

theorem Machine.exists_isFree (hpos : 0 < s.freeCount) : ∃ f, s.IsFree f := by
  obtain ⟨f, hf⟩ := Finset.card_pos.mp hpos
  rw [Finset.mem_filter, Finset.mem_range] at hf
  exact ⟨f, hf⟩

theorem ne_kpanic_of_plain {c : Cmd} (hc : ¬ c.IsControl) (string : String) :
    c ≠ .kpanic string := by
  rintro rfl
  exact hc trivial

theorem Consistent.create_returns (h : Consistent kernelPml4 clients s) (hpos : 0 < s.freeCount) :
    ∃ pml4 t, pagingCreatePml4.run s = some (pml4, t) ∧ s.freeCount = t.freeCount + 1 := by
  obtain ⟨f, hf⟩ := Machine.exists_isFree hpos
  have hwp : Prog.Wp exec (fun _ c => ∀ string, c ≠ .kpanic string) pagingCreatePml4 s
      fun _ t => s.freeCount = t.freeCount + 1 := by
    refine wp_pagingCreatePml4 h.tables.toPmmReady ?_ (fun hfull => absurd hf (hfull f)) ?_ ?_
    · exact fun c hc => ne_kpanic_of_plain (hc.tracked h.tables.layout).plain
    · exact fun _ _ c _ _ hc => ne_kpanic_of_plain hc.plain
    · intro f' t hcreated
      have hcount := Machine.freeCount_of_taken hcreated.taken.globals hcreated.free
        fun f'' hlt => hcreated.taken.bits h.tables.toPmmReady hcreated.free
          (h.tables.layout.frame_byte hlt)
      exact hcount.symm
  exact Kernel.returns hwp

theorem Consistent.map_returns (h : Consistent kernelPml4 clients s) {pml4 : PhysAddr}
    (hlive : pml4 ∈ clients.live) {virtAddr : VirtAddr} (hvirt : IsPageAligned virtAddr)
    {physAddr : PhysAddr} (hphys : IsPageAligned physAddr) (flags : BitVec 64)
    (hframes : 3 ≤ s.freeCount) :
    ∃ t, (pagingMap pml4 virtAddr physAddr flags).run s = some ((), t)
      ∧ s.freeCount ≤ t.freeCount + 3 := by
  -- The root and the three tables below it, one for each prefix of the path.
  let paths : Finset (List Index) :=
    {[], (pageOf virtAddr).path.take 1, (pageOf virtAddr).path.take 2, (pageOf virtAddr).path}
  have hmem : ∀ q, q <+: (pageOf virtAddr).path → q ∈ paths := by
    intro q hq
    have hlength := hq.length_le
    rw [(pageOf virtAddr).length_path] at hlength
    rw [List.prefix_iff_eq_take.mp hq]
    have hcases : q.length = 0 ∨ q.length = 1 ∨ q.length = 2 ∨ q.length = 3 := by omega
    obtain hq | hq | hq | hq := hcases <;> rw [hq] <;> simp [paths, Page.path]
  have hshort : ∀ q ∈ paths, q.length ≤ 3 := by
    intro q hq
    simp only [paths, Finset.mem_insert, Finset.mem_singleton] at hq
    obtain rfl | rfl | rfl | rfl := hq <;> simp [Page.path]
  have hcard : paths.card ≤ 4 := Finset.card_le_four
  have hroot : 1 ≤ (paths.filter fun q => (walk s.child pml4 q).isSome).card := by
    refine Finset.card_pos.mpr ⟨[], ?_⟩
    rw [Finset.mem_filter]
    exact ⟨hmem [] ⟨_, rfl⟩, rfl⟩
  have hwp : Prog.Wp exec (fun _ c => ∀ string, c ≠ .kpanic string)
      (pagingMap pml4 virtAddr physAddr flags) s fun _ t => s.freeCount ≤ t.freeCount + 3 := by
    refine wp_pagingMap_aligned h.tables hlive hvirt hphys ?_ ?_ ?_ ?_
    · exact fun _ c _ _ hc => ne_kpanic_of_plain hc.plain
    · rintro t hgrows ⟨hfull, q, hq, hnone⟩
      have hlt := Machine.potential_lt hfull (hmem q hq) hnone
      rw [hgrows.count paths hshort hmem, Machine.potential] at hlt
      omega
    · exact fun _ _ string => by rintro ⟨⟩
    · intro t hmapped
      have hcount := hmapped.edited.count hlive hshort hmem
      rw [Machine.potential, Machine.potential] at hcount
      have hle := Finset.card_filter_le paths fun q => (walk t.child pml4 q).isSome
      omega
  obtain ⟨⟨⟩, t, hrun, hcount⟩ := Kernel.returns hwp
  exact ⟨t, hrun, hcount⟩

end

end RainstormOs
