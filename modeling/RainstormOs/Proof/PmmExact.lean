import RainstormOs.Proof.PmmAccounting

/-!
# What the allocator's functions promise

In every state the last module reaches, a contiguous allocation is first fit and the bits it changes
are the bits of its range. Two functions promise less than they seem to. `pmm_free_frames` adds in
64-bit arithmetic and so comes back to low frames at the end of the address space; `pmm_init` uses
address 0 both for a region and for none. What each of them does is proved exactly, with the inputs
that make the difference.
-/

namespace RainstormOs

/-! ### First fit -/

/-- `count` frames in a row from `start`, all of them tracked and free. -/
def freeWindows (s : Machine) (count : Nat) : Set Nat :=
  {start | start + count ≤ s.globals.totalFrames.toNat
    ∧ ∀ f, start ≤ f → f < start + count → f ∈ freeFrames s}

theorem mem_freeWindows_iff {s : Machine} (hfits : s.globals.BitmapFits) {start count : Nat}
    (hcount : count ≠ 0) : start ∈ freeWindows s count ↔ s.FreeWindow start count := by
  constructor
  · intro ⟨_, hfree⟩ f hlo hhi
    exact (mem_freeFrames_iff hfits).mp (hfree f hlo hhi)
  · intro hwindow
    refine ⟨hwindow.end_le hcount, ?_⟩
    intro f hlo hhi
    exact (mem_freeFrames_iff hfits).mpr (hwindow f hlo hhi)

/-- What a first fit does: panic without a window, take the first one with. -/
structure FirstFit (s : Machine) (count : Nat) (out : Option (PhysAddr × Machine)) : Prop where
  panics : out = none ↔ freeWindows s count = ∅
  takes : ∀ start, IsLeast (freeWindows s count) start → ∃ physAddr t, out = some (physAddr, t)
    ∧ physAddr.toNat = 4096 * start ∧ t.globals = s.globals
    ∧ ∀ f, f < 8 * s.globals.bitmapSize.toNat →
        (t.frameBit f = true ↔ s.frameBit f = true ∨ start ≤ f ∧ f < start + count)

/-- **Contiguous allocation is first fit**, for one frame as for more than there are. -/
theorem pmmAllocFrames_firstFit {memmap : List LimineMemmapEntry} {hhdmOffset : BitVec 64}
    {boot s0 s : Machine} (hinit : (pmmInit memmap hhdmOffset).run boot = some ((), s0))
    (hreach : PmmReach s0 s) {count : BitVec 64} (hcount : count ≠ 0#64) :
    FirstFit s count.toNat ((pmmAllocFrames count).run s) := by
  have hs : s.PmmSound := hreach.sound ((wp_pmmInit_sound memmap hhdmOffset boot).of_run hinit)
  have htotal := hs.fits.total_lt
  have hsize := hs.fits.size_eq
  have hpos : count.toNat ≠ 0 := fun h => hcount (BitVec.eq_of_toNat_eq h)
  have hwindow : ∀ start, start ∈ freeWindows s count.toNat ↔ s.FreeWindow start count.toNat :=
    fun start => mem_freeWindows_iff hs.fits hpos
  have hwp : Prog.Wp exec
      (fun _ c => ∀ string, c = .kpanic string → ∀ start, ¬ s.FreeWindow start count.toNat)
      (pmmAllocFrames count) s fun physAddr t => ∃ start, s.FreeWindow start count.toNat
        ∧ (∀ start', start' < start → ¬ s.FreeWindow start' count.toNat)
        ∧ physAddr = frameAddr start ∧ t = s.markRange start count.toNat := by
    apply wp_pmmAllocFrames hs.fits
    · intro t c _ hc string heq
      cases hc <;> cases heq
    · exact fun hnone _ _ _ => hnone
    · exact fun hzero => absurd hzero hcount
    · exact fun _ start hfree hleast => ⟨start, hfree, hleast, rfl, rfl⟩
  constructor
  · rw [Set.eq_empty_iff_forall_notMem]
    constructor
    · intro hnone start hmem
      obtain ⟨value, t, hrun, -⟩ := hwp.returns fun mid c hc => by
        cases c with
        | kpanic string => exact absurd ((hwindow start).mp hmem) (hc string rfl start)
        | _ => simp [exec]
      cases hnone.symm.trans hrun
    · intro hempty
      rw [Option.eq_none_iff_forall_ne_some]
      rintro ⟨physAddr, t⟩ hrun
      obtain ⟨start, hfree, -⟩ := hwp.of_run hrun
      exact hempty start ((hwindow start).mpr hfree)
  · rintro start ⟨hmem, hleast⟩
    obtain ⟨physAddr, t, hrun, start', hfree, hfirst, haddr, ht⟩ := hwp.returns fun mid c hc => by
      cases c with
      | kpanic string => exact absurd ((hwindow start).mp hmem) (hc string rfl start)
      | _ => simp [exec]
    have hsame : start' = start := by
      have hle := hleast ((hwindow start').mpr hfree)
      have hge := hfirst start
      have hhere := (hwindow start).mp hmem
      by_contra hne
      exact hge (by omega) hhere
    have hend := hmem.1
    refine ⟨physAddr, t, hrun, ?_, ?_, ?_⟩
    · rw [haddr, hsame, toNat_frameAddr (by omega), Nat.mul_comm]
    · rw [ht]
      exact (BitmapOnly.markRange hs.fits (hfree.end_le hpos)).globals
    · intro f hf
      rw [ht, hsame, Machine.frameBit_markRange (by omega) (by omega), Finset.mem_Ico]

theorem pmmAllocFrames_firstFit_sampleMemmap :
    ∃ s0, (pmmInit sampleMemmap 0xFFFF800000000000#64).run bareMachine = some ((), s0)
      ∧ FirstFit s0 3 ((pmmAllocFrames 3#64).run s0) := by
  obtain ⟨s0, hboot, -⟩ :=
    pmmInit_returns sampleMemmap_ok 0xFFFF800000000000#64 bareMachine (by decide)
  have hcount : 3#64 ≠ 0#64 := by decide
  exact ⟨s0, hboot, pmmAllocFrames_firstFit hboot .init hcount⟩

/-! ### Ranges past the end of the address space -/

/-- The range, in unbounded integers, is what becomes free. -/
def FreesExactly (s : Machine) (physAddr : PhysAddr) (count : BitVec 64) (t : Machine) : Prop :=
  if IsPageAligned physAddr then
    ∀ f, f < s.globals.totalFrames.toNat → (f ∈ freeFrames t ↔ f ∈ freeFrames s
      ∨ physAddr.toNat / 4096 ≤ f ∧ f < physAddr.toNat / 4096 + count.toNat)
  else t = s

/-- The frame lies below the range and the range, wrapping, comes back to it. -/
def WrapsTo (physAddr : PhysAddr) (count : BitVec 64) (f : Nat) : Prop :=
  f < physAddr.toNat / 4096 ∧ f + 2 ^ 52 < physAddr.toNat / 4096 + count.toNat

theorem mem_freeFrames_afterFrees {s : Machine} (hs : s.PmmSound) {physAddr : PhysAddr}
    (haligned : IsPageAligned physAddr) (count : BitVec 64) {f : Nat}
    (hf : f < s.globals.totalFrames.toNat) :
    f ∈ freeFrames (s.afterFrees physAddr count.toNat) ↔ f ∈ freeFrames s
      ∨ (physAddr.toNat / 4096 ≤ f ∧ f < physAddr.toNat / 4096 + count.toNat)
      ∨ WrapsTo physAddr count f := by
  have htotal := hs.fits.total_lt
  have hpage : physAddr.toNat / 4096 < 2 ^ 52 := frameOf_lt physAddr
  have hchange := PmmChange.afterFrees hs.fits physAddr count.toNat
  have hbit : (s.afterFrees physAddr count.toNat).frameBit f = true ↔ _ :=
    Machine.frameBit_afterFrees_iff hs.fits haligned (by omega)
  -- The index of a frame in the range is its distance from the start, around the end if need be.
  have hindex : (∃ i, i < count.toNat ∧ (frameOf physAddr + i) % 2 ^ 52 = f) ↔
      (physAddr.toNat / 4096 ≤ f ∧ f < physAddr.toNat / 4096 + count.toNat)
        ∨ WrapsTo physAddr count f := by
    unfold WrapsTo frameOf
    constructor
    · rintro ⟨i, hi, rfl⟩
      omega
    · rintro (⟨hlo, hhi⟩ | ⟨hlo, hhi⟩)
      · exact ⟨f - physAddr.toNat / 4096, by omega, by omega⟩
      · exact ⟨f + 2 ^ 52 - physAddr.toNat / 4096, by omega, by omega⟩
  rw [mem_freeFrames_iff (hchange.sound hs).fits, mem_freeFrames_iff hs.fits, Machine.IsFree,
    Machine.IsFree, hchange.only.globals, ← Bool.not_eq_true, ← Bool.not_eq_true, hbit, hindex]
  simp only [and_iff_right hf, not_and_not_right, imp_iff_not_or]

/-- **Freeing a range** frees exactly that range unless it wraps around the end of the address space
and comes back to an allocated frame below its start. -/
theorem pmmFreeFrames_exact_iff {memmap : List LimineMemmapEntry} {hhdmOffset : BitVec 64}
    {boot s0 s : Machine} (hinit : (pmmInit memmap hhdmOffset).run boot = some ((), s0))
    (hreach : PmmReach s0 s) (physAddr : PhysAddr) (count : BitVec 64) :
    ∃ t, (pmmFreeFrames physAddr count).run s = some ((), t)
      ∧ (FreesExactly s physAddr count t ↔
        (IsPageAligned physAddr → ∀ f, f < s.globals.totalFrames.toNat → WrapsTo physAddr count f →
          f ∈ freeFrames s)) := by
  have hs : s.PmmSound := hreach.sound ((wp_pmmInit_sound memmap hhdmOffset boot).of_run hinit)
  refine ⟨_, pmmFreeFrames_run hs.fits physAddr count, ?_⟩
  rw [FreesExactly]
  split
  · next haligned =>
      have hmem := fun f => mem_freeFrames_afterFrees hs haligned count (f := f)
      constructor
      · intro hexact _ f hf hwraps
        have hrange : ¬ (physAddr.toNat / 4096 ≤ f ∧ f < physAddr.toNat / 4096 + count.toNat) :=
          fun h => Nat.not_lt.mpr h.1 hwraps.1
        have hfreed := (hmem f hf).mpr (Or.inr (Or.inr hwraps))
        exact ((hexact f hf).mp hfreed).resolve_right hrange
      · intro hwrapped f hf
        have hwraps := hwrapped haligned f hf
        rw [hmem f hf]
        tauto
  · next haligned =>
      constructor
      · exact fun _ h => absurd h haligned
      · exact fun _ => Machine.afterFrees_of_not_aligned haligned _

theorem pmmFreeFrames_exact_iff_sampleMemmap :
    ∃ s0 t, (pmmInit sampleMemmap 0xFFFF800000000000#64).run bareMachine = some ((), s0)
      ∧ (pmmFreeFrames 0xA000#64 2#64).run s0 = some ((), t)
      ∧ FreesExactly s0 0xA000#64 2#64 t := by
  obtain ⟨s0, hboot, -⟩ :=
    pmmInit_returns sampleMemmap_ok 0xFFFF800000000000#64 bareMachine (by decide)
  obtain ⟨t, hrun, hiff⟩ := pmmFreeFrames_exact_iff hboot .init 0xA000#64 2#64
  refine ⟨s0, t, hboot, hrun, hiff.mpr ?_⟩
  intro _ f _ hwraps
  have hend : f + 2 ^ 52 < 10 + 2 := hwraps.2
  omega

/-- From the second frame on and `2 ^ 52` frames long: the last one is the first frame of all, which
the sample map does not list. -/
theorem pmmFreeFrames_frees_frame_zero :
    ∃ s0 t, (pmmInit sampleMemmap 0xFFFF800000000000#64).run bareMachine = some ((), s0)
      ∧ (pmmFreeFrames 0x1000#64 0x10000000000000#64).run s0 = some ((), t)
      ∧ 0 ∉ freeFrames s0 ∧ 0 ∈ freeFrames t
      ∧ ¬ FreesExactly s0 0x1000#64 0x10000000000000#64 t := by
  obtain ⟨s0, hboot, hinit⟩ :=
    pmmInit_returns sampleMemmap_ok 0xFFFF800000000000#64 bareMachine (by decide)
  have hs : s0.PmmSound := (wp_pmmInit_sound _ _ bareMachine).of_run hboot
  have hglobals := hinit.globals
  have htracked : 0 < s0.globals.totalFrames.toNat := by
    rw [hglobals]
    decide
  have hunusable : ¬ UsableFrame sampleMemmap 0 := by
    intro ⟨entry, hentry, htype, hlo, hhi⟩
    simp only [sampleMemmap, List.mem_cons, List.not_mem_nil, or_false] at hentry
    obtain rfl | rfl | rfl | rfl := hentry
    · exact absurd hlo (by decide)
    · exact absurd htype (by decide)
    · exact absurd hlo (by decide)
    · exact absurd htype (by decide)
  have hbefore : 0 ∉ freeFrames s0 := by
    rw [mem_freeFrames_iff hs.fits]
    intro hfree
    have hset := (hinit.bits 0 (by rw [hglobals]; decide)).mpr (Or.inl hunusable)
    rw [hfree.2] at hset
    cases hset
  have haligned : IsPageAligned 0x1000#64 := by decide
  have hafter : 0 ∈ freeFrames (s0.afterFrees 0x1000#64 (0x10000000000000#64).toNat) :=
    (mem_freeFrames_afterFrees hs haligned _ htracked).mpr (Or.inr (Or.inr ⟨by decide, by decide⟩))
  refine ⟨s0, _, hboot, pmmFreeFrames_run hs.fits _ _, hbefore, hafter, ?_⟩
  intro hexact
  rw [FreesExactly, if_pos haligned] at hexact
  cases (hexact 0 htracked).mp hafter with
  | inl hfree => exact hbefore hfree
  | inr hrange => exact absurd hrange.1 (by decide)

/-! ### Giving up -/

/-- The entry can hold the bitmap. -/
def FitsBitmap (memmap : List LimineMemmapEntry) (entry : LimineMemmapEntry) : Prop :=
  entry.type = limineMemmapUsable
    ∧ (bitmapSizeFromFrames (pageCount (highestAddr memmap))).toNat ≤ entry.length.toNat

/-- The call ends in this panic. -/
def PanicsWith {α : Type} (prog : Kernel α) (s : Machine) (string : String) : Prop :=
  ∃ mid, Prog.Visits exec prog s mid (.kpanic string)

theorem pmmInit_panicsWith_iff (memmap : List LimineMemmapEntry) (hhdmOffset : BitVec 64)
    (s : Machine) :
    PanicsWith (pmmInit memmap hhdmOffset) s "pmm_init: No usable region found for bitmap"
      ↔ bitmapPlace memmap = 0#64 := by
  constructor
  · intro ⟨mid, hvisit⟩
    exact (wp_pmmInit_sound memmap hhdmOffset s).of_visits hvisit _ rfl
  · intro hplace
    refine ⟨{ s with
      globals := { s.globals with
        hhdmOffset := hhdmOffset
        totalFrames := pageCount (highestAddr memmap)
        bitmapSize := bitmapSizeFromFrames (pageCount (highestAddr memmap)) } },
      Or.inr ⟨s.globals, s, rfl, Or.inr ⟨(), _, rfl, ?_⟩⟩⟩
    change Prog.Visits exec (if bitmapPlace memmap = 0#64 then kpanic _ else _) _ _ _
    rw [if_pos hplace]
    exact Or.inl ⟨rfl, rfl⟩

/-- The first entry that can hold the bitmap, which is the one the placement pass takes. -/
def IsFirstFit (memmap : List LimineMemmapEntry) (entry : LimineMemmapEntry) : Prop :=
  ∃ before after, memmap = before ++ entry :: after ∧ FitsBitmap memmap entry
    ∧ ∀ e ∈ before, ¬ FitsBitmap memmap e

theorem bitmapPlace_eq_zero_iff (memmap : List LimineMemmapEntry) :
    bitmapPlace memmap = 0#64 ↔ (∀ entry ∈ memmap, ¬ FitsBitmap memmap entry)
      ∨ ∃ entry, IsFirstFit memmap entry ∧ entry.base = 0#64 := by
  have hfits : ∀ entry, (decide (entry.type = limineMemmapUsable)
      && decide (¬ entry.length < bitmapSizeFromFrames (pageCount (highestAddr memmap)))) = true
        ↔ FitsBitmap memmap entry := by
    intro entry
    simp [FitsBitmap, BitVec.lt_def]
  have hfirst : ∀ entry, memmap.find? (fun entry => decide (entry.type = limineMemmapUsable)
      && decide (¬ entry.length < bitmapSizeFromFrames (pageCount (highestAddr memmap))))
        = some entry ↔ IsFirstFit memmap entry := by
    intro entry
    rw [List.find?_eq_some_iff_append, hfits]
    simp only [Bool.not_eq_true', ← Bool.not_eq_true, hfits, IsFirstFit]
    tauto
  unfold bitmapPlace bitmapStartPhys
  split
  · next entry hfind =>
      obtain ⟨before, after, hsplit, hfit, -⟩ := (hfirst entry).mp hfind
      constructor
      · exact fun hbase => Or.inr ⟨entry, (hfirst entry).mp hfind, hbase⟩
      · rintro (hall | ⟨entry', hfirst', hbase⟩)
        · exact absurd hfit (hall entry (hsplit ▸ by simp))
        · rw [← hfirst, hfind] at hfirst'
          cases hfirst'
          exact hbase
  · next hfind =>
      rw [List.find?_eq_none] at hfind
      refine iff_of_true rfl (Or.inl ?_)
      intro entry hentry hfit
      exact hfind entry hentry ((hfits entry).mpr hfit)

/-- **Giving up.** `pmm_init` panics exactly when no usable entry can hold the bitmap, unless the
first one that can lies at address 0. -/
theorem pmmInit_panics_iff (memmap : List LimineMemmapEntry) (hhdmOffset : BitVec 64)
    (s : Machine) :
    (PanicsWith (pmmInit memmap hhdmOffset) s "pmm_init: No usable region found for bitmap" ↔
        ∀ entry ∈ memmap, ¬ FitsBitmap memmap entry)
      ↔ ∀ entry, IsFirstFit memmap entry → entry.base ≠ 0#64 := by
  rw [pmmInit_panicsWith_iff, bitmapPlace_eq_zero_iff]
  constructor
  · intro hiff entry hfirst hbase
    have ⟨before, after, hsplit, hfit, _⟩ := hfirst
    have hmem : entry ∈ memmap := hsplit ▸ by simp
    exact hiff.mp (Or.inr ⟨entry, hfirst, hbase⟩) entry hmem hfit
  · intro hne
    constructor
    · rintro (hnone | ⟨entry, hfirst, hbase⟩)
      · exact hnone
      · exact absurd hbase (hne entry hfirst)
    · exact Or.inl

/-- One usable megabyte at address 0. -/
def lowMemmap : List LimineMemmapEntry := [⟨0#64, 0x100000#64, limineMemmapUsable⟩]

theorem pmmInit_panics_at_address_zero :
    LimineMemmap lowMemmap
      ∧ PanicsWith (pmmInit lowMemmap 0xFFFF800000000000#64) bareMachine
          "pmm_init: No usable region found for bitmap"
      ∧ ¬ ∀ entry ∈ lowMemmap, ¬ FitsBitmap lowMemmap entry := by
  refine ⟨⟨by decide, by decide⟩, (pmmInit_panicsWith_iff _ _ _).mpr (by decide), ?_⟩
  intro hnone
  exact hnone _ List.mem_cons_self ⟨rfl, by decide⟩

end RainstormOs
