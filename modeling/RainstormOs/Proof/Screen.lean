import RainstormOs.Proof.Framebuffer
import RainstormOs.Proof.Ranges

/-!
# The screen

`screen_init` maps `pitch * height` bytes at the framebuffer's address, and the driver stores a word
of four bytes for every pixel, whatever the depth the boot loader reports. So two things decide
whether a store finds memory: where the last word of the last row ends against the mapped pages, and
whether `paging_map_range` mapped anything at all. It refuses an address that is not page-aligned
without telling its caller, and then the driver writes through the window that `paging_init` left.
-/

namespace RainstormOs

namespace LimineFramebuffer

/-- Where the framebuffer lies in physical memory. -/
def base (g : Globals) (fb : LimineFramebuffer) : PhysAddr := g.hhdmVirtToPhys fb.address

def size (fb : LimineFramebuffer) : Nat := fb.pitch.toNat * fb.height.toNat

/-- The end of `[base, base + pitch * height)`, rounded up to pages. -/
def pagesEnd (g : Globals) (fb : LimineFramebuffer) : Nat := roundUp ((fb.base g).toNat + fb.size)

/-- The argument of `fb_init`. -/
def framebuffer (fb : LimineFramebuffer) : Framebuffer where
  address := fb.address
  width := fb.width
  height := fb.height
  pitch := fb.pitch
  isReady := false

/-- The call of `paging_map_range`. -/
def range (g : Globals) (fb : LimineFramebuffer) : RangeMapping where
  virtAddr := fb.address
  physAddr := fb.base g
  size := fb.pitch * fb.height
  flags := pageCacheDisable ||| pageWritable ||| pageNoExecute ||| pageGlobal ||| pagePresent

/-- The framebuffer is physical memory, and the boot loader's direct map shows the whole of it. -/
structure IsPlaced (g : Globals) (fb : LimineFramebuffer) : Prop where
  address_eq : fb.address.toNat = g.hhdmOffset.toNat + (fb.base g).toNat
  phys_end : (fb.base g).toNat + fb.size ≤ 2 ^ 52
  virt_end : fb.address.toNat + fb.size ≤ 2 ^ 64

/-- The bytes from the first pixel's word to the end of the last one's. -/
def extent (fb : LimineFramebuffer) : Nat :=
  ((fb.height.toNat - 1) * fb.framebuffer.stride + fb.width.toNat) * 4

/-- If there are pixels at all, the last word ends within the framebuffer's pages; where nothing was
mapped because the address is not page-aligned, it ends within the window as well. -/
def Covered (g : Globals) (fb : LimineFramebuffer) : Prop :=
  fb.width = 0#64 ∨ fb.height = 0#64
    ∨ (fb.base g).toNat + fb.extent ≤ fb.pagesEnd g
      ∧ (IsPageAligned fb.address
        ∨ (fb.base g).toNat + fb.extent ≤ 4096 * g.totalFrames.toNat)

/-- The framebuffer's pages hold nothing of the kernel image. -/
def ApartFrom (fb : LimineFramebuffer) (g : Globals) (kernelPhysicalBase : PhysAddr)
    (kernelVirtualBase : VirtAddr) (info : KernelSegmentInfo) : Prop :=
  ∀ segment ∈ info.segments, ∀ vaddr, InSegment segment vaddr →
    ¬ ((fb.base g).toNat ≤ (vaddr - kernelVirtualBase + kernelPhysicalBase).toNat
      ∧ (vaddr - kernelVirtualBase + kernelPhysicalBase).toNat < fb.pagesEnd g)

end LimineFramebuffer

/-- The address is mapped writable, to a physical address in `[first, last)`. -/
def Machine.WritesInto (s : Machine) (pml4 : PhysAddr) (first last : Nat) (vaddr : VirtAddr) :
    Prop :=
  IsCanonical vaddr ∧ ∃ found, s.hwWalk pml4 vaddr = some found ∧ found.writable = true
    ∧ first ≤ (found.physOf vaddr).toNat ∧ (found.physOf vaddr).toNat < last

/-- The driver from `fb_init` on: the clear that ends `screen_init`, and calls after it. -/
def screenSession (framebuffer : Framebuffer) (calls : List FbCall) : FbProg Unit := do
  screenClear framebuffer
  Prog.forList FbCall.prog calls

/-- Every byte the driver stores goes to the framebuffer's pages. -/
def ScreenMapped (g : Globals) (fb : LimineFramebuffer) (pml4 : PhysAddr)
    (framebuffer : Framebuffer) (t : Machine) : Prop :=
  ∀ calls driver mid addr word,
    Prog.Visits fbExec (screenSession framebuffer calls) driver mid (.store32 addr word) →
    ∀ j, j < 4 →
      t.WritesInto pml4 (fb.base g).toNat (fb.pagesEnd g) (addr + BitVec.ofNat 64 j)

/-! ### The bytes the driver stores -/

section

variable {g : Globals} {fb : LimineFramebuffer} {pml4 : PhysAddr} {t : Machine}

theorem wp_screenSession_stores (framebuffer : Framebuffer) (calls : List FbCall)
    (driver : FbState) :
    Prog.Wp fbExec (fun _ c => c.StoresTo framebuffer.addrOf) (screenSession framebuffer calls)
      driver fun _ _ => True := by
  rw [screenSession, Prog.wp_bind, screenClear, Prog.wp_bind, fbInit, wp_setFramebuffer]
  refine ⟨trivial, ?_⟩
  apply (@wp_fbClearScreen_stores { framebuffer with isReady := true } _ rfl _).post
  intro _ mid hmid
  apply (wp_calls_stores hmid calls).post
  exact fun _ _ _ => trivial

theorem exists_visits_screenSession (framebuffer : Framebuffer) (p : framebuffer.Pixel)
    (driver : FbState) :
    ∃ mid, Prog.Visits fbExec (screenSession framebuffer []) driver mid
      (.store32 (framebuffer.addrOf p) (FbColor.toWord ⟨40#8, 40#8, 60#8⟩)) := by
  obtain ⟨mid, hmid⟩ := exists_visits_fbClearScreen
    (s := { driver with framebuffer := { framebuffer with isReady := true } }) rfl p
    ⟨40#8, 40#8, 60#8⟩
  refine ⟨mid, ?_⟩
  rw [screenSession, Prog.visits_bind, screenClear, Prog.visits_bind]
  exact Or.inl (Or.inr ⟨(), _, rfl, hmid⟩)

theorem Framebuffer.addrOf_add (framebuffer : Framebuffer) (p : framebuffer.Pixel) (j : Nat) :
    framebuffer.addrOf p + BitVec.ofNat 64 j
      = framebuffer.address + BitVec.ofNat 64 (framebuffer.slotOf p * 4 + j) := by
  rw [Framebuffer.addrOf, ByteMemory.slotAddr, BitVec.ofNat_add, BitVec.add_assoc]

theorem screenMapped_iff :
    ScreenMapped g fb pml4 fb.framebuffer t ↔ ∀ (p : fb.framebuffer.Pixel) j, j < 4 →
      t.WritesInto pml4 (fb.base g).toNat (fb.pagesEnd g)
        (fb.address + BitVec.ofNat 64 (fb.framebuffer.slotOf p * 4 + j)) := by
  constructor
  · intro h p j hj
    obtain ⟨mid, hvisit⟩ :=
      exists_visits_screenSession fb.framebuffer p ⟨fb.framebuffer, fun _ => 0#8⟩
    have hbyte := h [] _ mid _ _ hvisit j hj
    rwa [Framebuffer.addrOf_add] at hbyte
  · intro h calls driver mid addr word hvisit j hj
    obtain ⟨p, rfl⟩ := (wp_screenSession_stores fb.framebuffer calls driver).of_visits hvisit
    rw [Framebuffer.addrOf_add]
    exact h p j hj

theorem LimineFramebuffer.slotOf_lt_extent (fb : LimineFramebuffer) (p : fb.framebuffer.Pixel)
    {j : Nat} (hj : j < 4) : fb.framebuffer.slotOf p * 4 + j < fb.extent := by
  have hcol : p.1.val < fb.width.toNat := p.1.isLt
  have hrow : p.2.val ≤ fb.height.toNat - 1 := Nat.le_sub_one_of_lt p.2.isLt
  have hrows := Nat.mul_le_mul_right fb.framebuffer.stride hrow
  rw [Framebuffer.slotOf, LimineFramebuffer.extent]
  omega

theorem LimineFramebuffer.rows_le_size (fb : LimineFramebuffer) :
    (fb.height.toNat - 1) * fb.framebuffer.stride * 4 ≤ fb.size := by
  have hpitch : fb.framebuffer.stride * 4 ≤ fb.pitch.toNat := Nat.div_mul_le_self _ 4
  calc (fb.height.toNat - 1) * fb.framebuffer.stride * 4
      = (fb.height.toNat - 1) * (fb.framebuffer.stride * 4) := Nat.mul_assoc _ _ _
    _ ≤ fb.height.toNat * fb.pitch.toNat := Nat.mul_le_mul (Nat.sub_le _ _) hpitch
    _ = fb.size := Nat.mul_comm _ _

/-- In the last row the bytes go on without a gap. -/
theorem LimineFramebuffer.exists_slotOf (fb : LimineFramebuffer) (hheight : fb.height ≠ 0#64)
    {k : Nat} (hrow : (fb.height.toNat - 1) * fb.framebuffer.stride * 4 ≤ k) (hk : k < fb.extent) :
    ∃ (p : fb.framebuffer.Pixel) (j : Nat), j < 4 ∧ fb.framebuffer.slotOf p * 4 + j = k := by
  have hpos : fb.height.toNat ≠ 0 := fun hzero => hheight (BitVec.eq_of_toNat_eq hzero)
  rw [LimineFramebuffer.extent] at hk
  have hcol : k / 4 - (fb.height.toNat - 1) * fb.framebuffer.stride < fb.width.toNat := by omega
  refine ⟨(⟨_, hcol⟩, ⟨fb.height.toNat - 1, Nat.sub_one_lt hpos⟩), k % 4, by omega, ?_⟩
  change ((fb.height.toNat - 1) * fb.framebuffer.stride
    + (k / 4 - (fb.height.toNat - 1) * fb.framebuffer.stride)) * 4 + k % 4 = k
  omega

end

/-! ### What `screen_init` maps -/

/-- `screen_init` has come to `fb_init`: the range is mapped, or refused and nothing has changed. -/
structure ScreenInitialised (g : Globals) (fb : LimineFramebuffer) (kernelPml4 : PhysAddr)
    (clients : Clients) (s : Machine) (framebuffer : Framebuffer) (t : Machine) : Prop where
  framebuffer : framebuffer = fb.framebuffer
  mapped : (fb.range g).IsAligned → MapsRange kernelPml4 clients kernelPml4 (fb.range g)
    (pageCount (fb.range g).size).toNat s t
  refused : ¬ (fb.range g).IsAligned → t = s

section

variable {g : Globals} {fb : LimineFramebuffer} {kernelPml4 : PhysAddr} {clients : Clients}
  {s t : Machine}

/-- The reasons for which `screen_init` panics. -/
def ScreenPanics (g : Globals) (fb : LimineFramebuffer) (kernelPml4 : PhysAddr) (s : Machine) :
    Prop :=
  fb.memoryModel ≠ 1#8 ∨ s.reportsFree (fb.base g) = true
    ∨ s.freeCount < s.missingTables kernelPml4 (fb.range g)

theorem Consistent.wp_screenInit (h : Consistent kernelPml4 clients s)
    (hoffset : s.globals.hhdmOffset = g.hhdmOffset) :
    Prog.Wp exec (fun _ c => ∀ string, c = .kpanic string → ScreenPanics g fb kernelPml4 s)
      (screenInit kernelPml4 fb) s (ScreenInitialised g fb kernelPml4 clients s) := by
  have hbase : s.globals.hhdmVirtToPhys fb.address = fb.base g := by
    rw [LimineFramebuffer.base, Globals.hhdmVirtToPhys, hoffset]
    rfl
  have hplain : ∀ {c : Cmd}, ¬ c.IsControl → ∀ string, c = .kpanic string →
      ScreenPanics g fb kernelPml4 s :=
    fun hc string heq => absurd heq (ne_kpanic_of_plain hc string)
  rw [screenInit]
  split
  · next hmodel => exact wp_kpanic.mpr fun _ _ => Or.inl hmodel
  · rw [Prog.wp_bind, wp_getGlobals]
    refine ⟨hplain id, ?_⟩
    rw [Prog.wp_bind, hbase]
    apply wp_pmmIsFrameFree h.tables.layout.fits fun _ hc =>
      hplain (hc.tracked h.tables.layout).plain
    split
    · next hfree => exact wp_kpanic.mpr fun _ _ => Or.inr (Or.inl hfree)
    · rw [Prog.wp_bind]
      by_cases haligned : (fb.range g).IsAligned
      · apply (h.wp_pagingMapRange h.kernel haligned).imp
        · exact fun _ _ hc string heq => Or.inr (Or.inr (hc string heq))
        · exact fun _ t hmaps => ⟨rfl, fun _ => hmaps, fun hnot => absurd haligned hnot⟩
      · have hrefused : ¬ (IsPageAligned kernelPml4 ∧ (fb.range g).IsAligned) :=
          fun hboth => haligned hboth.2
        apply (wp_pagingMapRange_refused hrefused s).imp
        · exact fun _ _ hc string heq => absurd heq (hc string)
        · exact fun _ t heq => ⟨rfl, fun hnot => absurd hnot haligned, fun _ => heq⟩

theorem Consistent.screenInit_returns (h : Consistent kernelPml4 clients s)
    (hoffset : s.globals.hhdmOffset = g.hhdmOffset) (hnot : ¬ ScreenPanics g fb kernelPml4 s) :
    ∃ framebuffer t, (screenInit kernelPml4 fb).run s = some (framebuffer, t)
      ∧ ScreenInitialised g fb kernelPml4 clients s framebuffer t := by
  have hwp : Prog.Wp exec (fun _ c => ∀ string, c ≠ .kpanic string) (screenInit kernelPml4 fb) s
      (ScreenInitialised g fb kernelPml4 clients s) := by
    apply (h.wp_screenInit hoffset).imp
    · exact fun _ _ hc string heq => hnot (hc string heq)
    · exact fun _ _ hscreen => hscreen
  exact Kernel.returns hwp

namespace LimineFramebuffer

theorem IsPlaced.toNat_size (h : fb.IsPlaced g) : (fb.range g).size.toNat = fb.size := by
  have hend := h.phys_end
  change (fb.pitch * fb.height).toNat = _
  rw [BitVec.toNat_mul]
  exact Nat.mod_eq_of_lt (by rw [← size]; omega)

/-- The window shows the framebuffer where the boot loader's direct map did. -/
theorem add_sub_hhdmOffset (g : Globals) (fb : LimineFramebuffer) (k : Nat) :
    fb.address + BitVec.ofNat 64 k - g.hhdmOffset = fb.base g + BitVec.ofNat 64 k := by
  rw [base, Globals.hhdmVirtToPhys]
  exact add_sub_right_comm _ _ _

theorem IsPlaced.toNat_base_add (h : fb.IsPlaced g) {k : Nat}
    (hk : (fb.base g).toNat + k ≤ fb.pagesEnd g) :
    (fb.base g + BitVec.ofNat 64 k).toNat = (fb.base g).toNat + k := by
  have hend := h.phys_end
  rw [pagesEnd] at hk
  unfold roundUp at hk
  rw [BitVec.toNat_add, BitVec.toNat_ofNat]
  omega

theorem IsPlaced.toNat_address_add (h : fb.IsPlaced g) (hwindow : IsPageAligned g.hhdmOffset)
    {k : Nat} (hk : (fb.base g).toNat + k < fb.pagesEnd g) :
    (fb.address + BitVec.ofNat 64 k).toNat = g.hhdmOffset.toNat + ((fb.base g).toNat + k) := by
  have haddress := h.address_eq
  have hend := h.virt_end
  have hmod := (isPageAligned_iff _).mp hwindow
  rw [pagesEnd] at hk
  unfold roundUp at hk
  rw [BitVec.toNat_add, BitVec.toNat_ofNat]
  omega

theorem IsPlaced.isAligned_range_iff (h : fb.IsPlaced g) (hwindow : IsPageAligned g.hhdmOffset) :
    (fb.range g).IsAligned ↔ IsPageAligned fb.address := by
  have haddress := h.address_eq
  have hmod := (isPageAligned_iff _).mp hwindow
  refine ⟨fun haligned => haligned.1, fun haligned => ⟨haligned, ?_⟩⟩
  rw [isPageAligned_iff] at haligned
  rw [isPageAligned_iff]
  change (fb.base g).toNat % 4096 = 0
  omega

theorem IsPlaced.isValid_range (h : fb.IsPlaced g) (hhigh : IsHigherHalf g.hhdmOffset)
    (haligned : (fb.range g).IsAligned) : (fb.range g).IsValid where
  aligned := haligned
  half := by
    have haddress := h.address_eq
    have hend := h.virt_end
    have hmod := (isPageAligned_iff _).mp haligned.1
    change fb.address.toNat % 4096 = 0 at hmod
    rw [h.toNat_size]
    change _ ∨ 2 ^ 64 - 2 ^ 47 ≤ fb.address.toNat ∧ fb.address.toNat + roundUp fb.size ≤ 2 ^ 64
    unfold IsHigherHalf at hhigh
    unfold roundUp
    omega
  phys_end := by
    rw [h.toNat_size]
    exact h.phys_end
  flags := by
    simp only [range]
    decide

/-- The pages end with the range, also where they end with the address space. -/
theorem IsPlaced.not_meets_pagesEnd (h : fb.IsPlaced g) (hhigh : IsHigherHalf g.hhdmOffset)
    (haligned : (fb.range g).IsAligned) {k : Nat} (hk : (fb.base g).toNat + k = fb.pagesEnd g) :
    ¬ (fb.range g).Meets (fb.address + BitVec.ofNat 64 k) := by
  rintro ⟨k', hk', hframe⟩
  have hvalid := h.isValid_range hhigh haligned
  have hvalue : (fb.address + BitVec.ofNat 64 k').toNat = fb.address.toNat + k' :=
    hvalid.toNat_add (hk'.trans_le (le_roundUp _))
  have hmod : fb.address.toNat % 4096 = 0 := (isPageAligned_iff _).mp haligned.1
  have hmod' : (fb.base g).toNat % 4096 = 0 := (isPageAligned_iff _).mp haligned.2
  have haddress := h.address_eq
  have hend := h.virt_end
  change frameOf (fb.address + BitVec.ofNat 64 k') = _ at hframe
  rw [h.toNat_size] at hk'
  rw [frameOf, frameOf, hvalue, BitVec.toNat_add, BitVec.toNat_ofNat] at hframe
  unfold IsHigherHalf at hhigh
  rw [pagesEnd] at hk
  unfold roundUp at hk
  omega

end LimineFramebuffer

end

/-! ### Where a byte of the framebuffer is found -/

/-- The space that `paging_init` left, asked for a layout that makes sense. -/
structure KernelPlaced (kernelPhysicalBase : PhysAddr) (kernelVirtualBase : VirtAddr)
    (info : KernelSegmentInfo) (boot : Machine) (kernelPml4 : PhysAddr) (s : Machine) : Prop extends
    PagingInitialised (initRanges boot.globals kernelPhysicalBase kernelVirtualBase info) boot
      kernelPml4 s where
  placed : WellPlaced boot.globals kernelPhysicalBase kernelVirtualBase info
  total_le : boot.globals.totalFrames.toNat ≤ 2 ^ 40

theorem Machine.translate_of_hwWalk {s : Machine} {pml4 : PhysAddr} {vaddr : VirtAddr}
    {found : Translation} (h : s.hwWalk pml4 vaddr = some found) :
    s.translate pml4 vaddr = some (found.physOf vaddr) := by
  rw [Machine.translate, h, Option.map_some]

/-- A mapped framebuffer is found up to the end of its pages. -/
theorem ScreenInitialised.writesInto_of_mapped {g : Globals} {fb : LimineFramebuffer}
    {kernelPml4 : PhysAddr} {clients : Clients} {s t : Machine} {framebuffer : Framebuffer}
    (h : ScreenInitialised g fb kernelPml4 clients s framebuffer t)
    (hlive : kernelPml4 ∈ clients.live) (hscreen : fb.IsPlaced g)
    (hhigh : IsHigherHalf g.hhdmOffset) (haligned : (fb.range g).IsAligned) {k : Nat}
    (hk : (fb.base g).toNat + k < fb.pagesEnd g) :
    t.WritesInto kernelPml4 (fb.base g).toNat (fb.pagesEnd g)
      (fb.address + BitVec.ofNat 64 k) := by
  have hvalid := hscreen.isValid_range hhigh haligned
  have hround : k < roundUp (fb.range g).size.toNat := by
    have hmod : (fb.base g).toNat % 4096 = 0 := (isPageAligned_iff _).mp haligned.2
    rw [LimineFramebuffer.pagesEnd] at hk
    rw [hscreen.toNat_size]
    unfold roundUp at hk ⊢
    omega
  obtain ⟨found, hfound, hto, hwritable⟩ :=
    (h.mapped haligned).hwWalk hlive hvalid hlive (Or.inl rfl) hround
  have htoNat : (found.physOf (fb.address + BitVec.ofNat 64 k)).toNat = (fb.base g).toNat + k :=
    (congrArg BitVec.toNat hto).trans (hscreen.toNat_base_add hk.le)
  refine ⟨hvalid.isCanonical hround, found, hfound, hwritable.trans ?_, ?_, ?_⟩
  · simp only [LimineFramebuffer.range]
    decide
  · omega
  · omega

section

variable {fb : LimineFramebuffer} {kernelPhysicalBase : PhysAddr} {kernelVirtualBase : VirtAddr}
  {info : KernelSegmentInfo} {kernelPml4 : PhysAddr} {boot s t : Machine}
  {framebuffer : Framebuffer} {vaddr : VirtAddr} {physAddr : PhysAddr} {k : Nat}

namespace KernelPlaced

/-- Every address that is mapped is in the window or in the kernel image. -/
theorem translate_cases (h : KernelPlaced kernelPhysicalBase kernelVirtualBase info boot kernelPml4 s)
    (hcanonical : IsCanonical vaddr) (htranslate : s.translate kernelPml4 vaddr = some physAddr) :
    (boot.globals.InWindow vaddr ∧ physAddr = vaddr - boot.globals.hhdmOffset)
      ∨ ∃ segment ∈ info.segments, InSegment segment vaddr
        ∧ physAddr = vaddr - kernelVirtualBase + kernelPhysicalBase := by
  have hlayout := h.kernelLayout h.placed h.total_le
  obtain ⟨found, hfound, rfl⟩ := Option.map_eq_some_iff.mp htranslate
  rw [← h.cr3] at hfound
  have hsame : ∀ {physAddr : PhysAddr} {writable noExecute : Bool},
      s.Translates vaddr physAddr writable noExecute → found.physOf vaddr = physAddr := by
    rintro _ _ _ ⟨found', hfound', hphys, -⟩
    rw [Option.some.inj (hfound.symm.trans hfound'), hphys]
  have hsome : (s.hwWalk s.cr3 vaddr).isSome = true := by
    rw [hfound]
    rfl
  obtain hin | ⟨segment, hsegment, hin⟩ := (hlayout.mapped_iff vaddr hcanonical).mp hsome
  · exact Or.inl ⟨hin, hsame (hlayout.window vaddr hin)⟩
  · obtain ⟨flags, hrange⟩ :=
      exists_segmentRange_mem boot.globals kernelPhysicalBase kernelVirtualBase hsegment
    exact Or.inr ⟨segment, hsegment, hin,
      hsame (h.placed.segment_translates h.toPagingInitialised h.total_le flags hsegment hrange hin)⟩

/-- If the framebuffer is apart from the image, only the window leads to it. -/
theorem inWindow_of_translate
    (h : KernelPlaced kernelPhysicalBase kernelVirtualBase info boot kernelPml4 s)
    (hapart : fb.ApartFrom boot.globals kernelPhysicalBase kernelVirtualBase info)
    (hcanonical : IsCanonical vaddr) (htranslate : s.translate kernelPml4 vaddr = some physAddr)
    (hfirst : (fb.base boot.globals).toNat ≤ physAddr.toNat)
    (hlast : physAddr.toNat < fb.pagesEnd boot.globals) :
    boot.globals.InWindow vaddr ∧ physAddr = vaddr - boot.globals.hhdmOffset := by
  obtain hwindow | ⟨segment, hsegment, hin, rfl⟩ := h.translate_cases hcanonical htranslate
  · exact hwindow
  · exact absurd ⟨hfirst, hlast⟩ (hapart segment hsegment vaddr hin)

theorem writesInto_of_lt_window
    (h : KernelPlaced kernelPhysicalBase kernelVirtualBase info boot kernelPml4 s)
    (hscreen : fb.IsPlaced boot.globals)
    (hk : (fb.base boot.globals).toNat + k < fb.pagesEnd boot.globals)
    (hwindow : (fb.base boot.globals).toNat + k < 4096 * boot.globals.totalFrames.toNat) :
    s.WritesInto kernelPml4 (fb.base boot.globals).toNat (fb.pagesEnd boot.globals)
      (fb.address + BitVec.ofNat 64 k) := by
  have hvalue := hscreen.toNat_address_add h.placed.window_aligned hk
  have hin : boot.globals.InWindow (fb.address + BitVec.ofNat 64 k) := by
    rw [Globals.InWindow, hvalue]
    omega
  obtain ⟨found, hfound, hto, hwritable, -⟩ := (h.kernelLayout h.placed h.total_le).window _ hin
  rw [h.cr3] at hfound
  rw [LimineFramebuffer.add_sub_hhdmOffset] at hto
  have htoNat := (congrArg BitVec.toNat hto).trans (hscreen.toNat_base_add hk.le)
  have hhigh := h.placed.window_high
  unfold IsHigherHalf at hhigh
  refine ⟨Or.inr ?_, found, hfound, hwritable, by omega, by omega⟩
  rw [hvalue]
  omega

/-- Where nothing is mapped over it, a byte of the framebuffer is found only if the window reaches
that far. -/
theorem lt_window_of_writesInto
    (h : KernelPlaced kernelPhysicalBase kernelVirtualBase info boot kernelPml4 s)
    (hscreen : fb.IsPlaced boot.globals)
    (hapart : fb.ApartFrom boot.globals kernelPhysicalBase kernelVirtualBase info)
    (hk : (fb.base boot.globals).toNat + k < fb.pagesEnd boot.globals)
    (hwrites : s.WritesInto kernelPml4 (fb.base boot.globals).toNat (fb.pagesEnd boot.globals)
      (fb.address + BitVec.ofNat 64 k)) :
    (fb.base boot.globals).toNat + k < 4096 * boot.globals.totalFrames.toNat := by
  obtain ⟨hcanonical, found, hfound, -, hfirst, hlast⟩ := hwrites
  obtain ⟨⟨-, hin⟩, -⟩ := h.inWindow_of_translate hapart hcanonical
    (Machine.translate_of_hwWalk hfound) hfirst hlast
  rw [hscreen.toNat_address_add h.placed.window_aligned hk] at hin
  omega

end KernelPlaced

namespace ScreenInitialised

/-- The first byte after the framebuffer's pages is never found in them. -/
theorem not_writesInto_pagesEnd
    (h : ScreenInitialised boot.globals fb kernelPml4 ⟨{kernelPml4}, ∅⟩ s framebuffer t)
    (hinit : KernelPlaced kernelPhysicalBase kernelVirtualBase info boot kernelPml4 s)
    (hscreen : fb.IsPlaced boot.globals)
    (hapart : fb.ApartFrom boot.globals kernelPhysicalBase kernelVirtualBase info)
    (hk : (fb.base boot.globals).toNat + k = fb.pagesEnd boot.globals) :
    ¬ t.WritesInto kernelPml4 (fb.base boot.globals).toNat (fb.pagesEnd boot.globals)
      (fb.address + BitVec.ofNat 64 k) := by
  rintro ⟨hcanonical, found, hfound, -, hfirst, hlast⟩
  have hbefore : t.translate kernelPml4 (fb.address + BitVec.ofNat 64 k)
      = s.translate kernelPml4 (fb.address + BitVec.ofNat 64 k) := by
    by_cases haligned : (fb.range boot.globals).IsAligned
    · have hvalid := hscreen.isValid_range hinit.placed.window_high haligned
      apply (h.mapped haligned).toEditsRange.translate_eq hinit.consistent hvalid rfl hcanonical
      exact fun hshown =>
        hscreen.not_meets_pagesEnd hinit.placed.window_high haligned hk hshown.2
    · rw [h.refused haligned]
  have htranslate := hbefore.symm.trans (Machine.translate_of_hwWalk hfound)
  obtain ⟨-, hto⟩ := hinit.inWindow_of_translate hapart hcanonical htranslate hfirst hlast
  rw [LimineFramebuffer.add_sub_hhdmOffset] at hto
  have htoNat := (congrArg BitVec.toNat hto).trans (hscreen.toNat_base_add hk.le)
  omega

/-! ### Which framebuffers are covered -/

theorem screenMapped_of_covered
    (h : ScreenInitialised boot.globals fb kernelPml4 ⟨{kernelPml4}, ∅⟩ s framebuffer t)
    (hinit : KernelPlaced kernelPhysicalBase kernelVirtualBase info boot kernelPml4 s)
    (hscreen : fb.IsPlaced boot.globals) (hcovered : fb.Covered boot.globals) :
    ScreenMapped boot.globals fb kernelPml4 framebuffer t := by
  rw [h.framebuffer, screenMapped_iff]
  intro p j hj
  have hbyte := fb.slotOf_lt_extent p hj
  obtain hwidth | hheight | ⟨hpages, hreach⟩ := hcovered
  · have hcol : p.1.val < fb.width.toNat := p.1.isLt
    rw [hwidth] at hcol
    exact absurd hcol (Nat.not_lt_zero _)
  · have hrow : p.2.val < fb.height.toNat := p.2.isLt
    rw [hheight] at hrow
    exact absurd hrow (Nat.not_lt_zero _)
  · by_cases haligned : (fb.range boot.globals).IsAligned
    · exact h.writesInto_of_mapped rfl hscreen hinit.placed.window_high haligned (by omega)
    · rw [h.refused haligned]
      have hwindow := hreach.resolve_left fun haddress =>
        haligned ((hscreen.isAligned_range_iff hinit.placed.window_aligned).mpr haddress)
      exact hinit.writesInto_of_lt_window hscreen (by omega) (by omega)

theorem covered_of_screenMapped
    (h : ScreenInitialised boot.globals fb kernelPml4 ⟨{kernelPml4}, ∅⟩ s framebuffer t)
    (hinit : KernelPlaced kernelPhysicalBase kernelVirtualBase info boot kernelPml4 s)
    (hscreen : fb.IsPlaced boot.globals)
    (hapart : fb.ApartFrom boot.globals kernelPhysicalBase kernelVirtualBase info)
    (hmapped : ScreenMapped boot.globals fb kernelPml4 framebuffer t) :
    fb.Covered boot.globals := by
  rw [h.framebuffer, screenMapped_iff] at hmapped
  rw [LimineFramebuffer.Covered, or_iff_not_imp_left, or_iff_not_imp_left]
  intro hwidth hheight
  -- A byte of the last row that is written is found in the framebuffer's pages.
  have hfound : ∀ k, (fb.height.toNat - 1) * fb.framebuffer.stride * 4 ≤ k → k < fb.extent →
      t.WritesInto kernelPml4 (fb.base boot.globals).toNat (fb.pagesEnd boot.globals)
        (fb.address + BitVec.ofNat 64 k) := by
    intro k hrow hk
    obtain ⟨p, j, hj, rfl⟩ := fb.exists_slotOf hheight hrow hk
    exact hmapped p j hj
  have hrows := fb.rows_le_size
  have hpages : (fb.base boot.globals).toNat + fb.extent ≤ fb.pagesEnd boot.globals := by
    by_contra hlong
    have hle : (fb.base boot.globals).toNat + fb.size ≤ fb.pagesEnd boot.globals := le_roundUp _
    exact h.not_writesInto_pagesEnd hinit hscreen hapart (Nat.add_sub_of_le (by omega))
      (hfound _ (by omega) (by omega))
  refine ⟨hpages, ?_⟩
  rw [or_iff_not_imp_left]
  intro haddress
  have hwidth' : fb.width.toNat ≠ 0 := fun hzero => hwidth (BitVec.eq_of_toNat_eq hzero)
  have hextent : fb.extent = (fb.height.toNat - 1) * fb.framebuffer.stride * 4
      + fb.width.toNat * 4 := Nat.add_mul _ _ _
  have hlast := hfound (fb.extent - 1) (by omega) (by omega)
  rw [h.refused fun haligned => haddress haligned.1] at hlast
  have hreach := hinit.lt_window_of_writesInto hscreen hapart (by omega) hlast
  omega

end ScreenInitialised

theorem KernelPlaced.hhdmOffset_eq
    (h : KernelPlaced kernelPhysicalBase kernelVirtualBase info boot kernelPml4 s) :
    s.globals.hhdmOffset = boot.globals.hhdmOffset := by
  obtain ⟨entries, hglobals⟩ := h.globals
  rw [hglobals]

/-- **The stores of the driver.** When `screen_init` comes to the driver, every byte stored by the
clear and by any calls after it goes to the framebuffer's pages if and only if the framebuffer is
covered. -/
theorem screenInit_screenMapped_iff_covered (hready : PmmReady boot)
    (hinit : (pagingInit kernelPhysicalBase kernelVirtualBase info).run boot = some (kernelPml4, s))
    (hplaced : WellPlaced boot.globals kernelPhysicalBase kernelVirtualBase info)
    (hscreen : fb.IsPlaced boot.globals)
    (hrun : (screenInit kernelPml4 fb).run s = some (framebuffer, t)) :
    (fb.Covered boot.globals → ScreenMapped boot.globals fb kernelPml4 framebuffer t)
      ∧ (fb.ApartFrom boot.globals kernelPhysicalBase kernelVirtualBase info →
        ScreenMapped boot.globals fb kernelPml4 framebuffer t → fb.Covered boot.globals) := by
  have hkernel : KernelPlaced kernelPhysicalBase kernelVirtualBase info boot kernelPml4 s :=
    ⟨pagingInit_initialised hready hinit, hplaced, hready.layout.total_le⟩
  have h := (hkernel.consistent.wp_screenInit hkernel.hhdmOffset_eq).of_run hrun
  exact ⟨h.screenMapped_of_covered hkernel hscreen, h.covered_of_screenMapped hkernel hscreen⟩

end

/-! ### Two framebuffers -/

def pageScreen : LimineFramebuffer := ⟨0xFFFF8000FD000000#64, 1024#64, 1#64, 4096#64, 32#16, 1#8⟩

/-- A row of 2048 pixels of 16 bits: a page for the boot loader, two for the driver. -/
def wideScreen : LimineFramebuffer := ⟨0xFFFF8000FD000000#64, 2048#64, 1#64, 4096#64, 16#16, 1#8⟩

section

variable {boot s : Machine} {kernelPml4 : PhysAddr} {fb : LimineFramebuffer}

theorem bootMemmap_base {bare : Machine}
    (h : PmmInitialised bootMemmap 0xFFFF800000000000#64 bare boot)
    (haddress : fb.address = 0xFFFF8000FD000000#64) : fb.base boot.globals = 0xFD000000#64 := by
  rw [LimineFramebuffer.base, Globals.hhdmVirtToPhys, haddress, bootMemmap_hhdmOffset h]
  rfl

theorem bootMemmap_isPlaced {bare : Machine}
    (h : PmmInitialised bootMemmap 0xFFFF800000000000#64 bare boot)
    (haddress : fb.address = 0xFFFF8000FD000000#64) (hsize : fb.size ≤ 4096) :
    fb.IsPlaced boot.globals where
  address_eq := by
    rw [bootMemmap_base h haddress, haddress, bootMemmap_hhdmOffset h]
    rfl
  phys_end := by
    rw [bootMemmap_base h haddress]
    change 0xFD000000 + fb.size ≤ 2 ^ 52
    omega
  virt_end := by
    rw [haddress]
    change 0xFFFF8000FD000000 + fb.size ≤ 2 ^ 64
    omega

theorem bootMemmap_apartFrom {bare : Machine}
    (h : PmmInitialised bootMemmap 0xFFFF800000000000#64 bare boot)
    (haddress : fb.address = 0xFFFF8000FD000000#64) :
    fb.ApartFrom boot.globals bootPhysicalBase bootVirtualBase bootSymbols.segmentInfo := by
  rintro segment hsegment vaddr hin ⟨hfirst, -⟩
  have htarget := bootSymbols_target_lt hsegment hin
  rw [bootMemmap_base h haddress] at hfirst
  change 0xFD000000 ≤ _ at hfirst
  omega

theorem bootMemmap_kernelPlaced
    (h : MemoryInitialised bootMemmap 0xFFFF800000000000#64 bootPhysicalBase bootVirtualBase
      bootSymbols bareMachine boot kernelPml4 s) :
    KernelPlaced bootPhysicalBase bootVirtualBase bootSymbols.segmentInfo boot kernelPml4 s :=
  ⟨h.paging, bootSymbols_wellPlaced h.pmm, h.pmm.layout.total_le⟩

/-- A framebuffer of at most a page is accepted: its frame is not tracked, and there are frames for
the tables. -/
theorem bootMemmap_screenInit_returns
    (h : MemoryInitialised bootMemmap 0xFFFF800000000000#64 bootPhysicalBase bootVirtualBase
      bootSymbols bareMachine boot kernelPml4 s)
    (haddress : fb.address = 0xFFFF8000FD000000#64) (hsize : fb.size ≤ 4096)
    (hmodel : fb.memoryModel = 1#8) :
    ∃ framebuffer t, (screenInit kernelPml4 fb).run s = some (framebuffer, t)
      ∧ ScreenInitialised boot.globals fb kernelPml4 ⟨{kernelPml4}, ∅⟩ s framebuffer t := by
  have hkernel := bootMemmap_kernelPlaced h
  apply hkernel.consistent.screenInit_returns hkernel.hhdmOffset_eq
  rintro (hne | hfree | hfull)
  · exact hne hmodel
  · obtain ⟨entries, hglobals⟩ := h.paging.globals
    rw [Machine.reportsFree, Bool.and_eq_true, decide_eq_true_eq, bootMemmap_base h.pmm haddress,
      hglobals] at hfree
    have htracked : frameOf 0xFD000000#64 < boot.globals.totalFrames.toNat := hfree.1.2
    rw [bootMemmap_totalFrames h.pmm] at htracked
    exact absurd htracked (by decide)
  · refine absurd hfull (Nat.not_lt.mpr (bootMemmap_missingTables_le h ?_))
    have hbytes := (bootMemmap_isPlaced h.pmm haddress hsize).toNat_size
    rw [toNat_pageCount (by omega), hbytes]
    omega

theorem screenInit_screenMapped_iff_covered_bootMemmap :
    ∃ boot kernelPml4 s framebuffer t, PmmReady boot
      ∧ (pagingInit bootPhysicalBase bootVirtualBase bootSymbols.segmentInfo).run boot
          = some (kernelPml4, s)
      ∧ (screenInit kernelPml4 pageScreen).run s = some (framebuffer, t)
      ∧ ScreenMapped boot.globals pageScreen kernelPml4 framebuffer t := by
  obtain ⟨boot, kernelPml4, s, hinit, hpaging, -⟩ := memoryInit_bootMemmap
  have hready := hinit.pmm.ready
  obtain ⟨framebuffer, t, hrun, -⟩ :=
    bootMemmap_screenInit_returns hinit rfl (by decide : pageScreen.size ≤ 4096) rfl
  have hcovered : pageScreen.Covered boot.globals := by
    refine Or.inr (Or.inr ⟨?_, Or.inl (by decide)⟩)
    rw [LimineFramebuffer.pagesEnd, bootMemmap_base hinit.pmm rfl]
    decide
  exact ⟨boot, kernelPml4, s, framebuffer, t, hready, hpaging, hrun,
    (screenInit_screenMapped_iff_covered hready hpaging (bootSymbols_wellPlaced hinit.pmm)
      (bootMemmap_isPlaced hinit.pmm rfl (by decide)) hrun).1 hcovered⟩

/-- The second half of a wide row is stored past the page that was mapped. -/
theorem screenInit_not_screenMapped :
    ∃ boot kernelPml4 s framebuffer t, PmmReady boot
      ∧ (pagingInit bootPhysicalBase bootVirtualBase bootSymbols.segmentInfo).run boot
          = some (kernelPml4, s)
      ∧ WellPlaced boot.globals bootPhysicalBase bootVirtualBase bootSymbols.segmentInfo
      ∧ wideScreen.address = boot.globals.hhdmOffset + 0xFD000000#64
      ∧ wideScreen.width.toNat * wideScreen.bpp.toNat ≤ wideScreen.pitch.toNat * 8
      ∧ wideScreen.pitch.toNat * wideScreen.height.toNat < 2 ^ 64
      ∧ (screenInit kernelPml4 wideScreen).run s = some (framebuffer, t)
      ∧ ¬ ScreenMapped boot.globals wideScreen kernelPml4 framebuffer t := by
  obtain ⟨boot, kernelPml4, s, hinit, hpaging, -⟩ := memoryInit_bootMemmap
  obtain ⟨framebuffer, t, hrun, hscreen⟩ :=
    bootMemmap_screenInit_returns hinit rfl (by decide : wideScreen.size ≤ 4096) rfl
  have hbase : wideScreen.base boot.globals = 0xFD000000#64 := bootMemmap_base hinit.pmm rfl
  refine ⟨boot, kernelPml4, s, framebuffer, t, hinit.pmm.ready, hpaging,
    bootSymbols_wellPlaced hinit.pmm, ?_, by decide, by decide, hrun, ?_⟩
  · rw [bootMemmap_hhdmOffset hinit.pmm]
    rfl
  · intro hmapped
    obtain hwidth | hheight | ⟨hpages, -⟩ := hscreen.covered_of_screenMapped
      (bootMemmap_kernelPlaced hinit) (bootMemmap_isPlaced hinit.pmm rfl (by decide))
      (bootMemmap_apartFrom hinit.pmm rfl) hmapped
    · exact absurd hwidth (by decide)
    · exact absurd hheight (by decide)
    · rw [LimineFramebuffer.pagesEnd, hbase] at hpages
      exact absurd hpages (by decide)

end

end RainstormOs
