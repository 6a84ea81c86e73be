import RainstormOs.Proof.Address

/-!
# What each call of the frame allocator does

The bitmap is a set of frames packed into bytes. Each allocator function is given one rule: which
bits it changes, which branch it takes, and which memory it touches on the way. Nothing after this
module opens the scanning loops again.

The rules take the guarantee the caller needs as a hypothesis on the commands an allocator call can
issue. Those are loads and stores inside the bitmap and log lines, issued in states that differ from
the first one inside the bitmap only.
-/

namespace RainstormOs

/-! ### The bitmap inside memory -/

def Globals.bitmapPhys (g : Globals) : PhysAddr := g.hhdmVirtToPhys g.bitmapStart

/-- The frames the bitmap itself is stored in. -/
def Globals.IsBitmapFrame (g : Globals) (frame : Nat) : Prop :=
  frameOf g.bitmapPhys ≤ frame
    ∧ frame < frameOf g.bitmapPhys + (g.bitmapSize.toNat + 4095) / 4096

/-- The bit of a frame: set while the frame is allocated. -/
def Machine.frameBit (s : Machine) (frame : Nat) : Bool :=
  (s.mem (s.globals.bitmapPhys + BitVec.ofNat 64 (frame / 8))).getLsbD (frame % 8)

/-- A frame the allocator may hand out. -/
def Machine.IsFree (s : Machine) (frame : Nat) : Prop :=
  frame < s.globals.totalFrames.toNat ∧ s.frameBit frame = false

/-- The bitmap has a bit for every tracked frame, wherever in memory it lies. -/
structure Globals.BitmapFits (g : Globals) : Prop where
  total_lt : g.totalFrames.toNat < 2 ^ 52
  size_eq : g.bitmapSize.toNat = (g.totalFrames.toNat + 7) / 8

/-- The static variables `pmm_init` leaves: the bitmap has a bit for every tracked frame and lies in
whole tracked frames. -/
structure Globals.PmmLayout (g : Globals) : Prop where
  total_le : g.totalFrames.toNat ≤ 2 ^ 40
  size_eq : g.bitmapSize.toNat = (g.totalFrames.toNat + 7) / 8
  aligned : IsPageAligned g.bitmapPhys
  tracked : frameOf g.bitmapPhys + (g.bitmapSize.toNat + 4095) / 4096 ≤ g.totalFrames.toNat

/-- A byte of the bitmap, in the frames the bitmap occupies. -/
theorem Globals.PmmLayout.byte {g : Globals} (h : g.PmmLayout) {k : Nat}
    (hk : k < g.bitmapSize.toNat) :
    (g.bitmapPhys + BitVec.ofNat 64 k).toNat = g.bitmapPhys.toNat + k
      ∧ g.IsBitmapFrame (frameOf (g.bitmapPhys + BitVec.ofNat 64 k)) := by
  obtain ⟨htotal, hsize, haligned, htracked⟩ := h
  rw [isPageAligned_iff] at haligned
  have hval : (g.bitmapPhys + BitVec.ofNat 64 k).toNat = g.bitmapPhys.toNat + k := by
    unfold frameOf at htracked
    rw [BitVec.toNat_add, BitVec.toNat_ofNat]
    omega
  refine ⟨hval, ?_⟩
  unfold Globals.IsBitmapFrame frameOf
  unfold frameOf at htracked
  rw [hval]
  omega

theorem Globals.PmmLayout.fits {g : Globals} (h : g.PmmLayout) : g.BitmapFits :=
  ⟨Nat.lt_of_le_of_lt h.total_le (by decide), h.size_eq⟩

theorem Globals.BitmapFits.frame_byte {g : Globals} (h : g.BitmapFits) {frame : Nat}
    (hframe : frame < g.totalFrames.toNat) : frame / 8 < g.bitmapSize.toNat := by
  rw [h.size_eq]
  omega

theorem Globals.PmmLayout.frame_byte {g : Globals} (h : g.PmmLayout) {frame : Nat}
    (hframe : frame < g.totalFrames.toNat) : frame / 8 < g.bitmapSize.toNat :=
  h.fits.frame_byte hframe

theorem hhdmVirtToPhys_bitmapStart_add (g : Globals) (k : BitVec 64) :
    g.hhdmVirtToPhys (g.bitmapStart + k) = g.bitmapPhys + k :=
  hhdmVirtToPhys_add g g.bitmapStart k

/-- The state `pmm_init` starts from: after `memset(bitmap, 0xFF, size)` every bit is set. -/
theorem Machine.frameBit_fill {s : Machine} {frame : Nat}
    (hframe : frame < 8 * s.globals.bitmapSize.toNat) :
    (s.fill s.globals.bitmapStart s.globals.bitmapSize.toNat 0xFF#8).frameBit frame = true := by
  have hones : ∀ i, i < 8 → (0xFF#8).getLsbD i = true := by decide
  have hsize := s.globals.bitmapSize.isLt
  have hin : (s.globals.bitmapPhys + BitVec.ofNat 64 (frame / 8) - s.globals.bitmapPhys).toNat
      < s.globals.bitmapSize.toNat := by
    rw [ByteMemory.toNat_add_ofNat_sub _ (by omega)]
    omega
  simp only [Machine.frameBit, Machine.fill]
  rw [show s.globals.hhdmVirtToPhys s.globals.bitmapStart = s.globals.bitmapPhys from rfl,
    ByteMemory.fill_of_lt hin]
  exact hones _ (Nat.mod_lt _ (by decide))

/-! ### Setting and clearing bits -/

def Machine.markFrame (s : Machine) (frame : Nat) : Machine :=
  { s with
    mem := s.mem.writeByte (s.globals.bitmapPhys + BitVec.ofNat 64 (frame / 8))
      (s.mem (s.globals.bitmapPhys + BitVec.ofNat 64 (frame / 8)) ||| frameMask frame) }

def Machine.clearFrame (s : Machine) (frame : Nat) : Machine :=
  { s with
    mem := s.mem.writeByte (s.globals.bitmapPhys + BitVec.ofNat 64 (frame / 8))
      (s.mem (s.globals.bitmapPhys + BitVec.ofNat 64 (frame / 8)) &&& ~~~frameMask frame) }

/-- The machine with the bits of `count` frames from `start` set, lowest first. -/
def Machine.markRange (s : Machine) (start : Nat) : Nat → Machine
  | 0 => s
  | count + 1 => (s.markRange start count).markFrame (start + count)

@[simp]
theorem Machine.markFrame_globals (s : Machine) (frame : Nat) :
    (s.markFrame frame).globals = s.globals := rfl

@[simp]
theorem Machine.clearFrame_globals (s : Machine) (frame : Nat) :
    (s.clearFrame frame).globals = s.globals := rfl

theorem and_frameMask_eq_zero_iff {byte : BitVec 8} {frame : Nat} :
    byte &&& frameMask frame = 0#8 ↔ byte.getLsbD (frame % 8) = false :=
  BitField.and_one_shiftLeft_eq_zero_iff (Nat.mod_lt _ (by decide))

/-- Distinct frames whose bits share no byte have their bits at different addresses. -/
theorem bitmapPhys_add_inj {base : PhysAddr} {f g : Nat} (hf : f < 2 ^ 64) (hg : g < 2 ^ 64) :
    base + BitVec.ofNat 64 (f / 8) = base + BitVec.ofNat 64 (g / 8) ↔ f / 8 = g / 8 := by
  refine ⟨fun h => ?_, fun h => h ▸ rfl⟩
  have hval := congrArg BitVec.toNat (BitVec.add_right_inj base |>.mp h)
  rw [BitVec.toNat_ofNat, BitVec.toNat_ofNat, Nat.mod_eq_of_lt (by omega),
    Nat.mod_eq_of_lt (by omega)] at hval
  exact hval

theorem Machine.frameBit_markFrame (s : Machine) {f g : Nat} (hf : f < 2 ^ 64) (hg : g < 2 ^ 64) :
    (s.markFrame f).frameBit g = (s.frameBit g || decide (g = f)) := by
  simp only [Machine.frameBit, Machine.markFrame]
  by_cases hbyte : g / 8 = f / 8
  · rw [hbyte, ByteMemory.writeByte_self, frameMask,
      BitField.getLsbD_or_one_shiftLeft (Nat.mod_lt _ (by decide))]
    have hiff : g % 8 = f % 8 ↔ g = f := by omega
    simp [hiff]
  · have hne : g ≠ f := fun h => hbyte (h ▸ rfl)
    rw [ByteMemory.writeByte_of_ne fun h => hbyte ((bitmapPhys_add_inj hg hf).mp h)]
    simp [hne]

theorem Machine.frameBit_clearFrame (s : Machine) {f g : Nat} (hf : f < 2 ^ 64)
    (hg : g < 2 ^ 64) : (s.clearFrame f).frameBit g = (s.frameBit g && !decide (g = f)) := by
  simp only [Machine.frameBit, Machine.clearFrame]
  by_cases hbyte : g / 8 = f / 8
  · rw [hbyte, ByteMemory.writeByte_self, frameMask, BitField.getLsbD_and_not_one_shiftLeft]
    have hiff : g % 8 = f % 8 ↔ g = f := by omega
    simp [hiff]
  · have hne : g ≠ f := fun h => hbyte (h ▸ rfl)
    rw [ByteMemory.writeByte_of_ne fun h => hbyte ((bitmapPhys_add_inj hg hf).mp h)]
    simp [hne]

/-! ### The commands an allocator call issues -/

/-- Everything but the bytes of the bitmap is as it was. -/
structure BitmapOnly (s t : Machine) : Prop where
  globals : t.globals = s.globals
  cr3 : t.cr3 = s.cr3
  nxe : t.nxe = s.nxe
  mem : ∀ x, (∀ k, k < s.globals.bitmapSize.toNat → x ≠ s.globals.bitmapPhys + BitVec.ofNat 64 k) →
    t.mem x = s.mem x

theorem BitmapOnly.refl (s : Machine) : BitmapOnly s s := ⟨rfl, rfl, rfl, fun _ _ => rfl⟩

theorem BitmapOnly.trans {s t u : Machine} (h : BitmapOnly s t) (h' : BitmapOnly t u) :
    BitmapOnly s u where
  globals := h'.globals.trans h.globals
  cr3 := h'.cr3.trans h.cr3
  nxe := h'.nxe.trans h.nxe
  mem x hx := (h'.mem x (by rwa [h.globals])).trans (h.mem x hx)

/-- Everything but the bitmap's own frames is as it was. -/
structure PmmOnly (s t : Machine) : Prop where
  globals : t.globals = s.globals
  cr3 : t.cr3 = s.cr3
  nxe : t.nxe = s.nxe
  mem : ∀ x, ¬ s.globals.IsBitmapFrame (frameOf x) → t.mem x = s.mem x

theorem PmmOnly.refl (s : Machine) : PmmOnly s s := ⟨rfl, rfl, rfl, fun _ _ => rfl⟩

theorem PmmOnly.trans {s t u : Machine} (h : PmmOnly s t) (h' : PmmOnly t u) : PmmOnly s u where
  globals := h'.globals.trans h.globals
  cr3 := h'.cr3.trans h.cr3
  nxe := h'.nxe.trans h.nxe
  mem x hx := (h'.mem x (by rwa [h.globals])).trans (h.mem x hx)

/-- What an allocator call may ask of the machine. -/
inductive PmmCommand (g : Globals) : Cmd → Prop where
  | globals : PmmCommand g .globals
  | klogf (level : KlogLevel) (string : String) (args : List (BitVec 64)) :
      PmmCommand g (.klogf level string args)
  | load8 {k : Nat} (hk : k < g.bitmapSize.toNat) :
      PmmCommand g (.load8 (g.bitmapStart + BitVec.ofNat 64 k))
  | store8 {k : Nat} (byte : BitVec 8) (hk : k < g.bitmapSize.toNat) :
      PmmCommand g (.store8 (g.bitmapStart + BitVec.ofNat 64 k) byte)

theorem BitmapOnly.pmmOnly {s t : Machine} (h : BitmapOnly s t) (hlayout : s.globals.PmmLayout) :
    PmmOnly s t where
  globals := h.globals
  cr3 := h.cr3
  nxe := h.nxe
  mem x hx := by
    refine h.mem x fun k hk heq => hx ?_
    rw [heq]
    exact (hlayout.byte hk).2

theorem BitmapOnly.writeByte {s : Machine} {k : Nat} (hk : k < s.globals.bitmapSize.toNat)
    (byte : BitVec 8) :
    BitmapOnly s
      { s with mem := s.mem.writeByte (s.globals.bitmapPhys + BitVec.ofNat 64 k) byte } where
  globals := rfl
  cr3 := rfl
  nxe := rfl
  mem _ hx := ByteMemory.writeByte_of_ne (hx k hk)

theorem BitmapOnly.markFrame {s : Machine} (hfits : s.globals.BitmapFits) {frame : Nat}
    (hframe : frame < s.globals.totalFrames.toNat) : BitmapOnly s (s.markFrame frame) :=
  BitmapOnly.writeByte (hfits.frame_byte hframe) _

theorem BitmapOnly.clearFrame {s : Machine} (hfits : s.globals.BitmapFits) {frame : Nat}
    (hframe : frame < s.globals.totalFrames.toNat) : BitmapOnly s (s.clearFrame frame) :=
  BitmapOnly.writeByte (hfits.frame_byte hframe) _

theorem BitmapOnly.markRange {s : Machine} (hfits : s.globals.BitmapFits) {start count : Nat}
    (hrange : start + count ≤ s.globals.totalFrames.toNat) :
    BitmapOnly s (s.markRange start count) := by
  induction count with
  | zero => exact BitmapOnly.refl s
  | succ count ih =>
      have hprev := ih (by omega)
      have hglobals := hprev.globals
      refine hprev.trans (BitmapOnly.markFrame ?_ ?_)
      · rwa [hglobals]
      · rw [hglobals]
        omega

/-! ### One rule per function -/

def Machine.freeBranch (s : Machine) (physAddr : PhysAddr) : FreeBranch :=
  if ¬ IsPageAligned physAddr then .unaligned
  else if s.globals.totalFrames.toNat ≤ frameOf physAddr then .untracked
  else if s.frameBit (frameOf physAddr) = false then .alreadyFree
  else .freed

def Machine.afterFree (s : Machine) (physAddr : PhysAddr) : Machine :=
  if s.freeBranch physAddr = .freed then s.clearFrame (frameOf physAddr) else s

theorem Machine.freeBranch_of_tracked {s : Machine} {physAddr : PhysAddr}
    (haligned : IsPageAligned physAddr)
    (htracked : frameOf physAddr < s.globals.totalFrames.toNat) :
    s.freeBranch physAddr
      = if s.frameBit (frameOf physAddr) = false then .alreadyFree else .freed := by
  rw [Machine.freeBranch, if_neg (not_not_intro haligned), if_neg (Nat.not_le.mpr htracked)]

/-- Freeing a tracked frame clears its bit, whether or not it was set before. -/
theorem Machine.frameBit_afterFree {s : Machine} {physAddr : PhysAddr}
    (haligned : IsPageAligned physAddr)
    (htracked : frameOf physAddr < s.globals.totalFrames.toNat) {g : Nat} (hg : g < 2 ^ 64) :
    (s.afterFree physAddr).frameBit g = (s.frameBit g && !decide (g = frameOf physAddr)) := by
  rw [Machine.afterFree, Machine.freeBranch_of_tracked haligned htracked]
  by_cases hbit : s.frameBit (frameOf physAddr) = false
  · rw [if_pos hbit, if_neg (by decide)]
    by_cases heq : g = frameOf physAddr
    · simp [heq, hbit]
    · simp [heq]
  · rw [if_neg hbit, if_pos rfl,
      Machine.frameBit_clearFrame s (by have := frameOf_lt physAddr; omega) hg]

theorem Machine.tracked_of_freeBranch {s : Machine} {physAddr : PhysAddr}
    (hbranch : s.freeBranch physAddr = .freed) :
    IsPageAligned physAddr ∧ frameOf physAddr < s.globals.totalFrames.toNat := by
  rw [Machine.freeBranch] at hbranch
  split at hbranch
  · cases hbranch
  · next haligned =>
      split at hbranch
      · cases hbranch
      · next htracked => exact ⟨not_not.mp haligned, Nat.lt_of_not_le htracked⟩

theorem BitmapOnly.afterFree {s : Machine} (hfits : s.globals.BitmapFits) (physAddr : PhysAddr) :
    BitmapOnly s (s.afterFree physAddr) := by
  rw [Machine.afterFree]
  split
  · next hbranch =>
      exact BitmapOnly.clearFrame hfits (Machine.tracked_of_freeBranch hbranch).2
  · exact BitmapOnly.refl s

def Machine.afterFrees (s : Machine) (physAddr : PhysAddr) : Nat → Machine
  | 0 => s
  | count + 1 =>
      (s.afterFrees physAddr count).afterFree (physAddr + BitVec.ofNat 64 count * pageSize)

theorem BitmapOnly.afterFrees {s : Machine} (hfits : s.globals.BitmapFits) (physAddr : PhysAddr)
    (count : Nat) : BitmapOnly s (s.afterFrees physAddr count) := by
  induction count with
  | zero => exact BitmapOnly.refl s
  | succ count ih => exact ih.trans (BitmapOnly.afterFree (by rwa [ih.globals]) _)

/-- A misaligned range frees nothing: every one of its addresses is misaligned. -/
theorem Machine.afterFrees_of_not_aligned {s : Machine} {physAddr : PhysAddr}
    (hmisaligned : ¬ IsPageAligned physAddr) (count : Nat) : s.afterFrees physAddr count = s := by
  induction count with
  | zero => rfl
  | succ count ih =>
      have hpage : (BitVec.ofNat 64 count * pageSize).toNat % 4096 = 0 := by
        rw [BitVec.toNat_mul]
        change (_ * 4096) % 2 ^ 64 % 4096 = 0
        omega
      have hstill : ¬ IsPageAligned (physAddr + BitVec.ofNat 64 count * pageSize) := by
        rw [isPageAligned_iff] at hmisaligned ⊢
        rw [BitVec.toNat_add]
        omega
      rw [Machine.afterFrees, ih, Machine.afterFree, Machine.freeBranch, if_pos hstill,
        if_neg (by decide)]

theorem frameAddr_add {base : PhysAddr} (haligned : IsPageAligned base) (i : Nat) :
    base + BitVec.ofNat 64 i * pageSize = frameAddr (frameOf base + i) := by
  conv_lhs => rw [← frameAddr_frameOf haligned]
  rw [frameAddr, frameAddr, BitVec.ofNat_add, BitVec.add_mul]

/-- The addresses of a range of pages wrap at the end of the address space, and so do its frames. -/
theorem frameOf_add_mul_pageSize {base : PhysAddr} (haligned : IsPageAligned base) (i : Nat) :
    IsPageAligned (base + BitVec.ofNat 64 i * pageSize)
      ∧ frameOf (base + BitVec.ofNat 64 i * pageSize) = (frameOf base + i) % 2 ^ 52 := by
  have hmul : (BitVec.ofNat 64 i * pageSize).toNat = i % 2 ^ 52 * 4096 := by
    rw [BitVec.toNat_mul, BitVec.toNat_ofNat]
    change i % 2 ^ 64 * 4096 % 2 ^ 64 = _
    omega
  rw [isPageAligned_iff] at haligned
  rw [isPageAligned_iff, frameOf, frameOf, BitVec.toNat_add, hmul]
  omega

/-- An aligned range has the bits of its tracked frames cleared, those it wraps around to as well. -/
theorem Machine.frameBit_afterFrees_iff {s : Machine} (hfits : s.globals.BitmapFits)
    {physAddr : PhysAddr} (haligned : IsPageAligned physAddr) {count g : Nat} (hg : g < 2 ^ 64) :
    (s.afterFrees physAddr count).frameBit g = true ↔
      s.frameBit g = true ∧ ¬ (g < s.globals.totalFrames.toNat
        ∧ ∃ i, i < count ∧ (frameOf physAddr + i) % 2 ^ 52 = g) := by
  induction count with
  | zero => simp [Machine.afterFrees]
  | succ count ih =>
      have hglobals := (BitmapOnly.afterFrees hfits physAddr count).globals
      obtain ⟨hpage, hframe⟩ := frameOf_add_mul_pageSize haligned count
      have hlast : (∃ i, i < count + 1 ∧ (frameOf physAddr + i) % 2 ^ 52 = g) ↔
          (∃ i, i < count ∧ (frameOf physAddr + i) % 2 ^ 52 = g)
            ∨ (frameOf physAddr + count) % 2 ^ 52 = g := by
        constructor
        · intro ⟨i, hi, heq⟩
          by_cases hcount : i = count
          · exact Or.inr (hcount ▸ heq)
          · exact Or.inl ⟨i, by omega, heq⟩
        · rintro (⟨i, hi, heq⟩ | heq)
          · exact ⟨i, by omega, heq⟩
          · exact ⟨count, by omega, heq⟩
      rw [Machine.afterFrees, hlast]
      by_cases htracked : frameOf (physAddr + BitVec.ofNat 64 count * pageSize)
          < s.globals.totalFrames.toNat
      · rw [Machine.frameBit_afterFree hpage (by rwa [hglobals]) hg, Bool.and_eq_true, ih, hframe]
        rw [hframe] at htracked
        simp only [Bool.not_eq_true', decide_eq_false_iff_not]
        constructor
        · rintro ⟨⟨hset, hout⟩, hne⟩
          exact ⟨hset, fun ⟨hlt, hor⟩ => hor.elim (fun h => hout ⟨hlt, h⟩) fun h => hne h.symm⟩
        · rintro ⟨hset, hout⟩
          exact ⟨⟨hset, fun ⟨hlt, h⟩ => hout ⟨hlt, Or.inl h⟩⟩,
            fun h => hout ⟨h ▸ htracked, Or.inr h.symm⟩⟩
      · have hsame : (s.afterFrees physAddr count).afterFree
            (physAddr + BitVec.ofNat 64 count * pageSize) = s.afterFrees physAddr count := by
          rw [Machine.afterFree, if_neg]
          intro hbranch
          have := (Machine.tracked_of_freeBranch hbranch).2
          rw [hglobals] at this
          exact htracked this
        rw [hframe] at htracked
        rw [hsame, ih]
        refine and_congr Iff.rfl (not_congr ?_)
        constructor
        · exact fun ⟨hlt, h⟩ => ⟨hlt, Or.inl h⟩
        · rintro ⟨hlt, h | h⟩
          · exact ⟨hlt, h⟩
          · exact absurd hlt (h ▸ htracked)

theorem Machine.frameBit_afterFrees {s : Machine} (hfits : s.globals.BitmapFits)
    {physAddr : PhysAddr} (haligned : IsPageAligned physAddr) {count : Nat}
    (hrange : frameOf physAddr + count ≤ s.globals.totalFrames.toNat) {g : Nat}
    (hg : g < 2 ^ 64) :
    (s.afterFrees physAddr count).frameBit g = true ↔
      s.frameBit g = true ∧ ¬ (frameOf physAddr ≤ g ∧ g < frameOf physAddr + count) := by
  have htotal := hfits.total_lt
  rw [Machine.frameBit_afterFrees_iff hfits haligned hg]
  refine and_congr Iff.rfl (not_congr ?_)
  constructor
  · rintro ⟨-, i, hi, heq⟩
    omega
  · rintro ⟨hlo, hhi⟩
    exact ⟨by omega, g - frameOf physAddr, by omega, by omega⟩

def Machine.afterMark (s : Machine) (physAddr : PhysAddr) : Machine :=
  if IsPageAligned physAddr ∧ frameOf physAddr < s.globals.totalFrames.toNat then
    s.markFrame (frameOf physAddr)
  else s

def Machine.reportsFree (s : Machine) (physAddr : PhysAddr) : Bool :=
  decide (IsPageAligned physAddr ∧ frameOf physAddr < s.globals.totalFrames.toNat)
    && !s.frameBit (frameOf physAddr)

section Rules

variable {guar : Machine → Cmd → Prop} {s : Machine}

theorem mem_frameByte (s : Machine) (frame : Nat) :
    s.mem (s.globals.hhdmVirtToPhys (s.globals.frameByte frame))
      = s.mem (s.globals.bitmapPhys + BitVec.ofNat 64 (frame / 8)) := by
  rw [Globals.frameByte, hhdmVirtToPhys_bitmapStart_add]

theorem wp_pmmFreeFrame (hfits : s.globals.BitmapFits)
    (hguar : ∀ c, PmmCommand s.globals c → guar s c) {physAddr : PhysAddr}
    {post : FreeBranch → Machine → Prop}
    (hpost : post (s.freeBranch physAddr) (s.afterFree physAddr)) :
    Prog.Wp exec guar (pmmFreeFrame physAddr) s post := by
  simp only [pmmFreeFrame, Prog.wp_bind, wp_getGlobals, toNat_div_pageSize]
  refine ⟨hguar _ .globals, ?_⟩
  by_cases haligned : IsPageAligned physAddr
  · by_cases htracked : s.globals.totalFrames.toNat ≤ frameOf physAddr
    · have hbranch : s.freeBranch physAddr = .untracked := by
        simp [Machine.freeBranch, haligned, htracked]
      rw [Machine.afterFree, hbranch, if_neg (by decide)] at hpost
      simpa [haligned, htracked, Prog.wp_bind] using ⟨hguar _ (.klogf _ _ _), hpost⟩
    · have hbyte := hfits.frame_byte (Nat.lt_of_not_le htracked)
      simp only [haligned, not_true_eq_false, if_false, ge_iff_le, htracked, Prog.wp_bind,
        wp_load8, mem_frameByte]
      refine ⟨hguar _ (.load8 hbyte), ?_⟩
      by_cases hbit : s.frameBit (frameOf physAddr) = false
      · have hbranch : s.freeBranch physAddr = .alreadyFree := by
          simp [Machine.freeBranch, haligned, htracked, hbit]
        rw [Machine.afterFree, hbranch, if_neg (by decide)] at hpost
        rw [if_pos (and_frameMask_eq_zero_iff.mpr hbit), Prog.wp_bind, wp_klogf]
        exact ⟨hguar _ (.klogf _ _ _), hpost⟩
      · have hbranch : s.freeBranch physAddr = .freed := by
          simp [Machine.freeBranch, haligned, htracked, hbit]
        rw [Machine.afterFree, hbranch, if_pos rfl] at hpost
        rw [if_neg (fun h => hbit (and_frameMask_eq_zero_iff.mp h)), Prog.wp_bind, wp_load8,
          mem_frameByte, Prog.wp_bind, wp_store8]
        refine ⟨hguar _ (.load8 hbyte), hguar _ (.store8 _ hbyte), ?_⟩
        rw [Globals.frameByte, hhdmVirtToPhys_bitmapStart_add]
        exact hpost
  · have hbranch : s.freeBranch physAddr = .unaligned := by
      simp [Machine.freeBranch, haligned]
    rw [Machine.afterFree, hbranch, if_neg (by decide)] at hpost
    simpa [haligned, Prog.wp_bind] using ⟨hguar _ (.klogf _ _ _), hpost⟩

theorem wp_pmmFreeFrames (hfits : s.globals.BitmapFits)
    (hguar : ∀ t c, BitmapOnly s t → PmmCommand s.globals c → guar t c) {physAddr : PhysAddr}
    {count : BitVec 64} {post : Unit → Machine → Prop}
    (hpost : post () (s.afterFrees physAddr count.toNat)) :
    Prog.Wp exec guar (pmmFreeFrames physAddr count) s post := by
  refine Prog.wp_forAcc (fun i _ t => t = s.afterFrees physAddr i) rfl ?_ ?_
  · rintro i ⟨⟩ t - hi rfl
    have honly := BitmapOnly.afterFrees hfits physAddr i
    rw [Prog.wp_bind]
    exact wp_pmmFreeFrame (by rwa [honly.globals])
      (fun c hc => hguar _ c honly (honly.globals ▸ hc)) rfl
  · rintro ⟨⟩ t rfl
    rwa [Nat.zero_add]

theorem wp_pmmMarkAllocated (hfits : s.globals.BitmapFits)
    (hguar : ∀ c, PmmCommand s.globals c → guar s c) {physAddr : PhysAddr}
    {post : Unit → Machine → Prop} (hpost : post () (s.afterMark physAddr)) :
    Prog.Wp exec guar (pmmMarkAllocated physAddr) s post := by
  simp only [pmmMarkAllocated, Prog.wp_bind, wp_getGlobals, toNat_div_pageSize]
  refine ⟨hguar _ .globals, ?_⟩
  rw [Machine.afterMark] at hpost
  by_cases haligned : IsPageAligned physAddr
  · rw [if_neg (not_not_intro haligned)]
    by_cases htracked : frameOf physAddr < s.globals.totalFrames.toNat
    · have hbyte := hfits.frame_byte htracked
      rw [if_pos ⟨haligned, htracked⟩] at hpost
      rw [if_neg (Nat.not_le.mpr htracked), Prog.wp_bind, wp_load8, wp_store8, mem_frameByte,
        Globals.frameByte, hhdmVirtToPhys_bitmapStart_add]
      exact ⟨hguar _ (.load8 hbyte), hguar _ (.store8 _ hbyte), hpost⟩
    · rw [if_neg fun h => htracked h.2] at hpost
      rw [if_pos (Nat.le_of_not_lt htracked), wp_klogf]
      exact ⟨hguar _ (.klogf _ _ _), hpost⟩
  · rw [if_neg fun h => haligned h.1] at hpost
    rw [if_pos haligned, wp_klogf]
    exact ⟨hguar _ (.klogf _ _ _), hpost⟩

theorem wp_pmmIsFrameFree (hfits : s.globals.BitmapFits)
    (hguar : ∀ c, PmmCommand s.globals c → guar s c) {physAddr : PhysAddr}
    {post : Bool → Machine → Prop} (hpost : post (s.reportsFree physAddr) s) :
    Prog.Wp exec guar (pmmIsFrameFree physAddr) s post := by
  simp only [pmmIsFrameFree, Prog.wp_bind, wp_getGlobals, toNat_div_pageSize]
  refine ⟨hguar _ .globals, ?_⟩
  rw [Machine.reportsFree] at hpost
  by_cases haligned : IsPageAligned physAddr
  · rw [if_neg (not_not_intro haligned)]
    by_cases htracked : frameOf physAddr < s.globals.totalFrames.toNat
    · have hbit : decide (s.mem (s.globals.bitmapPhys + BitVec.ofNat 64 (frameOf physAddr / 8))
          &&& frameMask (frameOf physAddr) = 0#8) = !s.frameBit (frameOf physAddr) := by
        simp [and_frameMask_eq_zero_iff, Machine.frameBit]
      rw [decide_eq_true ⟨haligned, htracked⟩, Bool.true_and, ← hbit] at hpost
      rw [if_neg (Nat.not_le.mpr htracked), Prog.wp_bind, wp_load8, mem_frameByte]
      exact ⟨hguar _ (.load8 (hfits.frame_byte htracked)), hpost⟩
    · rw [decide_eq_false fun h => htracked h.2, Bool.false_and] at hpost
      rw [if_pos (Nat.le_of_not_lt htracked), Prog.wp_bind, wp_klogf]
      exact ⟨hguar _ (.klogf _ _ _), hpost⟩
  · rw [decide_eq_false fun h => haligned h.1, Bool.false_and] at hpost
    rw [if_pos haligned, Prog.wp_bind, wp_klogf]
    exact ⟨hguar _ (.klogf _ _ _), hpost⟩

/-- One bit of the scan: it passes over a frame that cannot be handed out, takes one that can, and
leaves the byte at the first frame past the end. -/
theorem wp_pmmAllocFrameBit (hguar : ∀ c, PmmCommand s.globals c → guar s c) {byte bit : Nat}
    (hbyte : byte < s.globals.bitmapSize.toNat) (hbit : bit < 8)
    {post : Unit ⊕ Option PhysAddr → Machine → Prop}
    (hpast : s.globals.totalFrames.toNat ≤ byte * 8 + bit → post (.inr none) s)
    (hused : ¬ s.IsFree (byte * 8 + bit) → post (.inl ()) s)
    (hfree : s.IsFree (byte * 8 + bit) →
      post (.inr (some (frameAddr (byte * 8 + bit)))) (s.markFrame (byte * 8 + bit))) :
    Prog.Wp exec guar (pmmAllocFrameBit s.globals byte bit) s post := by
  have hdiv : (byte * 8 + bit) / 8 = byte := by omega
  have hmod : (byte * 8 + bit) % 8 = bit := by omega
  have hframe : s.frameBit (byte * 8 + bit)
      = (s.mem (s.globals.bitmapPhys + BitVec.ofNat 64 byte)).getLsbD bit := by
    rw [Machine.frameBit, hdiv, hmod]
  rw [pmmAllocFrameBit]
  by_cases htotal : s.globals.totalFrames.toNat ≤ byte * 8 + bit
  · rw [if_pos htotal]
    exact hpast htotal
  · rw [if_neg htotal, Prog.wp_bind, wp_load8, hhdmVirtToPhys_bitmapStart_add]
    refine ⟨hguar _ (.load8 hbyte), ?_⟩
    by_cases hset : s.frameBit (byte * 8 + bit) = false
    · have hzero : s.mem (s.globals.bitmapPhys + BitVec.ofNat 64 byte) &&& (1#8 <<< bit) = 0#8 :=
        (BitField.and_one_shiftLeft_eq_zero_iff hbit).mpr (hframe ▸ hset)
      rw [if_neg (not_not_intro hzero), Prog.wp_bind, wp_load8, hhdmVirtToPhys_bitmapStart_add,
        Prog.wp_bind, wp_store8, hhdmVirtToPhys_bitmapStart_add]
      refine ⟨hguar _ (.load8 hbyte), hguar _ (.store8 _ hbyte), ?_⟩
      have htaken := hfree ⟨Nat.lt_of_not_le htotal, hset⟩
      rw [Machine.markFrame, frameMask, hdiv, hmod] at htaken
      exact htaken
    · have hnonzero : s.mem (s.globals.bitmapPhys + BitVec.ofNat 64 byte) &&& (1#8 <<< bit)
          ≠ 0#8 := by
        intro hzero
        exact hset (hframe.trans ((BitField.and_one_shiftLeft_eq_zero_iff hbit).mp hzero))
      rw [if_pos hnonzero]
      exact hused fun h => hset h.2

theorem wp_pmmAllocFrameByte (hguar : ∀ c, PmmCommand s.globals c → guar s c) {byte : Nat}
    (hbyte : byte < s.globals.bitmapSize.toNat) (hbelow : ∀ f, f < byte * 8 → ¬ s.IsFree f)
    {post : Unit ⊕ PhysAddr → Machine → Prop}
    (hnone : (∀ f, f < (byte + 1) * 8 → ¬ s.IsFree f) → post (.inl ()) s)
    (hfound : ∀ f, s.IsFree f → (∀ g, g < f → ¬ s.IsFree g) →
      post (.inr (frameAddr f)) (s.markFrame f)) :
    Prog.Wp exec guar (pmmAllocFrameByte s.globals byte) s post := by
  rw [pmmAllocFrameByte, Prog.wp_bind, wp_load8, hhdmVirtToPhys_bitmapStart_add]
  refine ⟨hguar _ (.load8 hbyte), ?_⟩
  by_cases hfull : s.mem (s.globals.bitmapPhys + BitVec.ofNat 64 byte) = 0xFF#8
  · rw [if_pos hfull]
    refine hnone fun f hf hfree => ?_
    by_cases hlow : f < byte * 8
    · exact hbelow f hlow hfree
    · have hdiv : f / 8 = byte := by omega
      have hones : ∀ i, i < 8 → (0xFF#8).getLsbD i = true := by decide
      have hbit := hfree.2
      rw [Machine.frameBit, hdiv, hfull, hones _ (Nat.mod_lt _ (by decide))] at hbit
      exact absurd hbit (by decide)
  · rw [if_neg hfull]
    refine Prog.Wp.bind
      (fun out t => (out.elim (fun _ => none) id).elim
        (t = s ∧ ∀ f, f < (byte + 1) * 8 → ¬ s.IsFree f) fun addr => post (.inr addr) t)
      (Prog.wp_forUntil
        (fun bit _ t => t = s ∧ ∀ f, f < byte * 8 + bit → ¬ s.IsFree f) ⟨rfl, hbelow⟩ ?_ ?_) ?_
    · rintro bit ⟨⟩ t - hbit ⟨rfl, hinv⟩
      refine wp_pmmAllocFrameBit hguar hbyte (by omega) ?_ ?_ ?_
      · intro hpast
        refine ⟨rfl, fun f _ hfree => ?_⟩
        by_cases hlow : f < byte * 8 + bit
        · exact hinv f hlow hfree
        · have := hfree.1
          omega
      · intro hused
        refine ⟨rfl, fun f hf => ?_⟩
        by_cases hlow : f < byte * 8 + bit
        · exact hinv f hlow
        · obtain rfl : f = byte * 8 + bit := by omega
          exact hused
      · intro hfree
        exact hfound _ hfree hinv
    · rintro ⟨⟩ t ⟨rfl, hinv⟩
      exact ⟨rfl, fun f hf => hinv f (by omega)⟩
    · rintro (⟨⟩ | _ | addr) t hout
      · obtain ⟨rfl, hinv⟩ := hout
        exact hnone hinv
      · obtain ⟨rfl, hinv⟩ := hout
        exact hnone hinv
      · exact hout

/-- **Single-frame allocation.** The lowest free frame is taken and its bit set; the panic is
reached only when no frame is free. -/
theorem wp_pmmAllocFrame (hfits : s.globals.BitmapFits)
    (hguar : ∀ c, PmmCommand s.globals c → guar s c)
    (hpanic : (∀ f, ¬ s.IsFree f) → guar s (.kpanic "pmm_alloc_frame: out of memory"))
    {post : PhysAddr → Machine → Prop}
    (hpost : ∀ f, s.IsFree f → (∀ g, g < f → ¬ s.IsFree g) →
      post (frameAddr f) (s.markFrame f)) :
    Prog.Wp exec guar pmmAllocFrame s post := by
  rw [pmmAllocFrame, Prog.wp_bind, wp_getGlobals]
  refine ⟨hguar _ .globals, ?_⟩
  refine Prog.Wp.bind
    (fun out t => out.elim (fun _ => t = s ∧ ∀ f, ¬ s.IsFree f) fun addr => post addr t)
    (Prog.wp_forUntil (fun byte _ t => t = s ∧ ∀ f, f < byte * 8 → ¬ s.IsFree f)
      ⟨rfl, fun f hf => absurd hf (by omega)⟩ ?_ ?_) ?_
  · rintro byte ⟨⟩ t - hbyte ⟨rfl, hinv⟩
    exact wp_pmmAllocFrameByte hguar (by omega) hinv (fun hnone => ⟨rfl, hnone⟩) hpost
  · rintro ⟨⟩ t ⟨rfl, hinv⟩
    refine ⟨rfl, fun f hfree => hinv f ?_ hfree⟩
    have hlt := hfree.1
    have hsize := hfits.size_eq
    omega
  · rintro (⟨⟩ | addr) t hout
    · obtain ⟨rfl, hnone⟩ := hout
      exact wp_kpanic.mpr (hpanic hnone)
    · exact hout

def Machine.FreeWindow (s : Machine) (start count : Nat) : Prop :=
  ∀ f, start ≤ f → f < start + count → s.IsFree f

/-- What the run scan knows before it looks at `frame`: no window of the wanted length ends earlier,
and its current run is the longest stretch of free frames that ends here. -/
structure Machine.ScanInv (s : Machine) (count frame : Nat) (run : FrameRun) : Prop where
  none_before : ∀ start, start + count ≤ frame → ¬ s.FreeWindow start count
  len_lt : run.len < count
  current : 0 < run.len → run.start + run.len = frame ∧ s.FreeWindow run.start run.len
  longest : ∀ start, start ≤ frame → (∀ f, start ≤ f → f < frame → s.IsFree f) →
    frame ≤ start + run.len

theorem Machine.ScanInv.init (s : Machine) {count : Nat} (hcount : 0 < count) :
    s.ScanInv count 0 ⟨0, 0⟩ where
  none_before start hstart := by omega
  len_lt := hcount
  current h := absurd h (Nat.lt_irrefl 0)
  longest start hstart _ := by omega

theorem Machine.ScanInv.used {s : Machine} {count frame : Nat} {run : FrameRun}
    (h : s.ScanInv count frame run) (hused : ¬ s.IsFree frame) :
    s.ScanInv count (frame + 1) { run with len := 0 } where
  none_before start hstart hwindow := by
    have hcount := h.len_lt
    by_cases hend : start + count ≤ frame
    · exact h.none_before start hend hwindow
    · exact hused (hwindow frame (by omega) (by omega))
  len_lt := Nat.lt_of_le_of_lt (Nat.zero_le _) h.len_lt
  current h' := absurd h' (Nat.lt_irrefl 0)
  longest start hstart hfree := by
    by_contra hlt
    exact hused (hfree frame (by omega) (by omega))

/-- The run after one more free frame, before its length is compared with the wanted one. -/
theorem Machine.ScanInv.grown {s : Machine} {count frame : Nat} {run : FrameRun}
    (h : s.ScanInv count frame run) (hfree : s.IsFree frame) {start : Nat}
    (hstart : start = if run.len = 0 then frame else run.start) :
    start + (run.len + 1) = frame + 1 ∧ s.FreeWindow start (run.len + 1) := by
  by_cases hlen : run.len = 0
  · rw [if_pos hlen] at hstart
    refine ⟨by omega, fun f hlo hhi => ?_⟩
    obtain rfl : f = frame := by omega
    exact hfree
  · rw [if_neg hlen] at hstart
    obtain ⟨hend, hwindow⟩ := h.current (by omega)
    refine ⟨by omega, fun f hlo hhi => ?_⟩
    by_cases hlast : f = frame
    · exact hlast ▸ hfree
    · exact hwindow f (by omega) (by omega)

theorem Machine.ScanInv.free {s : Machine} {count frame : Nat} {run : FrameRun}
    (h : s.ScanInv count frame run) (hfree : s.IsFree frame) (hshort : run.len + 1 ≠ count) :
    s.ScanInv count (frame + 1)
      ⟨if run.len = 0 then frame else run.start, run.len + 1⟩ where
  none_before start hstart hwindow := by
    by_cases hend : start + count ≤ frame
    · exact h.none_before start hend hwindow
    · have hlen := h.len_lt
      have hlong := h.longest start (by omega) fun f hlo hhi => hwindow f hlo (by omega)
      omega
  len_lt := by
    have := h.len_lt
    change run.len + 1 < count
    omega
  current _ := h.grown hfree rfl
  longest start hstart hsuffix := by
    by_cases hempty : start = frame + 1
    · omega
    · have := h.longest start (by omega) fun f hlo hhi => hsuffix f hlo (by omega)
      change frame + 1 ≤ start + (run.len + 1)
      omega

theorem wp_pmmAllocFramesStep (hfits : s.globals.BitmapFits)
    (hguar : ∀ t c, BitmapOnly s t → PmmCommand s.globals c → guar t c) {count frame : Nat}
    {run : FrameRun} (hframe : frame < s.globals.totalFrames.toNat)
    (hinv : s.ScanInv count frame run) {post : FrameRun ⊕ PhysAddr → Machine → Prop}
    (hnext : ∀ run', s.ScanInv count (frame + 1) run' → post (.inl run') s)
    (hfound : ∀ start, s.FreeWindow start count →
      (∀ start', start' < start → ¬ s.FreeWindow start' count) →
      post (.inr (frameAddr start)) (s.markRange start count)) :
    Prog.Wp exec guar (pmmAllocFramesStep s.globals count frame run) s post := by
  have hbyte := hfits.frame_byte hframe
  rw [pmmAllocFramesStep, Prog.wp_bind, wp_load8, mem_frameByte]
  refine ⟨hguar s _ (BitmapOnly.refl s) (.load8 hbyte), ?_⟩
  by_cases hbit : s.frameBit frame = false
  · have hfree : s.IsFree frame := ⟨hframe, hbit⟩
    rw [if_neg (not_not_intro (and_frameMask_eq_zero_iff.mpr hbit))]
    by_cases hlen : run.len + 1 = count
    · obtain ⟨hend, hwindow⟩ := hinv.grown hfree rfl
      rw [hlen] at hend hwindow
      simp only [hlen, ne_eq, not_true_eq_false, if_false]
      generalize (if run.len = 0 then frame else run.start) = start at hend hwindow
      have hrange : start + count ≤ s.globals.totalFrames.toNat := by omega
      refine Prog.Wp.bind
        (fun _ t => t = s.markRange start count)
        (Prog.wp_forAcc
          (fun i _ t => t = s.markRange start (i - start)) (by simp [Machine.markRange]) ?_ ?_) ?_
      · rintro i ⟨⟩ t hlo hhi rfl
        have honly : BitmapOnly s (s.markRange start (i - start)) :=
          BitmapOnly.markRange hfits (by omega)
        have hglobals := honly.globals
        have hbyte' : i / 8 < s.globals.bitmapSize.toNat := hfits.frame_byte (by omega)
        rw [Prog.wp_bind, wp_load8, wp_store8, ← hglobals, mem_frameByte, Globals.frameByte,
          hhdmVirtToPhys_bitmapStart_add]
        rw [← hglobals] at hbyte'
        refine ⟨hguar _ _ honly ?_, hguar _ _ honly ?_, ?_⟩
        · rw [← hglobals]
          exact .load8 hbyte'
        · rw [← hglobals]
          exact .store8 _ hbyte'
        · have hindex : start + (i - start) = i := by omega
          rw [show i + 1 - start = (i - start) + 1 by omega, Machine.markRange, hindex]
          rfl
      · rintro ⟨⟩ t rfl
        rw [Nat.add_sub_cancel_left]
      · rintro ⟨⟩ t rfl
        refine hfound start hwindow fun start' hlt hwindow' => ?_
        exact hinv.none_before start' (by omega) hwindow'
    · simp only [ne_eq, hlen, not_false_eq_true, if_true]
      exact hnext _ (hinv.free hfree hlen)
  · rw [if_pos fun h => hbit (and_frameMask_eq_zero_iff.mp h)]
    exact hnext _ (hinv.used fun h => hbit h.2)

/-- **Contiguous allocation.** The lowest run of `count` free frames is taken and its bits set; the
panic is reached only when there is no such run. -/
theorem wp_pmmAllocFrames (hfits : s.globals.BitmapFits)
    (hguar : ∀ t c, BitmapOnly s t → PmmCommand s.globals c → guar t c) {count : BitVec 64}
    (hpanic : (∀ start, ¬ s.FreeWindow start count.toNat) →
      ∀ string, guar s (.kpanic string))
    {post : PhysAddr → Machine → Prop} (hzero : count = 0#64 → post 0#64 s)
    (hpost : count ≠ 0#64 → ∀ start, s.FreeWindow start count.toNat →
      (∀ start', start' < start → ¬ s.FreeWindow start' count.toNat) →
      post (frameAddr start) (s.markRange start count.toNat)) :
    Prog.Wp exec guar (pmmAllocFrames count) s post := by
  rw [pmmAllocFrames]
  by_cases hcount0 : count = 0#64
  · rw [if_pos hcount0]
    exact hzero hcount0
  rw [if_neg hcount0]
  by_cases hcount1 : count = 1#64
  · have hone : count.toNat = 1 := by rw [hcount1]; rfl
    have hwindow : ∀ f, s.FreeWindow f 1 ↔ s.IsFree f := by
      intro f
      refine ⟨fun h => h f (Nat.le_refl _) (by omega), fun h g hlo hhi => ?_⟩
      obtain rfl : g = f := by omega
      exact h
    rw [if_pos hcount1]
    simp only [hone, hwindow] at hpanic hpost
    exact wp_pmmAllocFrame hfits (fun c hc => hguar s c (BitmapOnly.refl s) hc)
      (fun hnone => hpanic hnone _) fun f hfree hleast => hpost hcount0 f hfree hleast
  have hpos : 0 < count.toNat := by
    rw [Nat.pos_iff_ne_zero]
    exact fun h => hcount0 (BitVec.eq_of_toNat_eq h)
  rw [if_neg hcount1, Prog.wp_bind, wp_getGlobals]
  refine ⟨hguar s _ (BitmapOnly.refl s) .globals, ?_⟩
  refine Prog.Wp.bind
    (fun out t => out.elim
      (fun run => t = s ∧ s.ScanInv count.toNat s.globals.totalFrames.toNat run)
      fun addr => post addr t)
    (Prog.wp_forUntil (fun frame run t => t = s ∧ s.ScanInv count.toNat frame run)
      ⟨rfl, .init s hpos⟩ ?_ ?_) ?_
  · rintro frame run t - hframe ⟨rfl, hinv⟩
    exact wp_pmmAllocFramesStep hfits hguar (by omega) hinv (fun run' h => ⟨rfl, h⟩)
      (hpost hcount0)
  · rintro run t ⟨rfl, hinv⟩
    rw [Nat.zero_add] at hinv
    exact ⟨rfl, hinv⟩
  · rintro (run | addr) t hout
    · obtain ⟨rfl, hinv⟩ := hout
      refine wp_kpanic.mpr (hpanic (fun start hwindow => ?_) _)
      have hlast := (hwindow (start + count.toNat - 1) (by omega) (by omega)).1
      exact hinv.none_before start (by omega) hwindow
    · exact hout

end Rules

end RainstormOs
