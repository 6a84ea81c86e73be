import RainstormOs.Proof.PmmClients
import Mathlib.Data.Nat.Count
import Mathlib.Data.Set.Card

/-!
# The allocator under any arguments

A client that frees what it does not hold breaks the promise of the last module, not the allocator:
whatever the arguments, a call reads and writes bits of the bitmap, moves frames one way only, and
leaves alone the bits past the last frame. Those stay set from `pmm_init` on, which is why
`pmm_get_free_size` can count whole bytes.

Nothing here asks where the bitmap lies or what the memory map looks like.
-/

namespace RainstormOs

inductive PmmOp where
  | allocFrame
  | allocFrames (count : BitVec 64)
  | freeFrame (physAddr : PhysAddr)
  | freeFrames (physAddr : PhysAddr) (count : BitVec 64)
  | markAllocated (physAddr : PhysAddr)
  | isFrameFree (physAddr : PhysAddr)

def PmmOp.prog : PmmOp → Kernel Unit
  | .allocFrame => do
      let _ ← pmmAllocFrame
      pure ()
  | .allocFrames count => do
      let _ ← pmmAllocFrames count
      pure ()
  | .freeFrame physAddr => do
      let _ ← pmmFreeFrame physAddr
      pure ()
  | .freeFrames physAddr count => pmmFreeFrames physAddr count
  | .markAllocated physAddr => pmmMarkAllocated physAddr
  | .isFrameFree physAddr => do
      let _ ← pmmIsFrameFree physAddr
      pure ()

/-- Other code runs: it leaves the allocator's variables and its bitmap alone. -/
structure KeepsBitmap (s t : Machine) : Prop where
  bitmapStart : t.globals.bitmapStart = s.globals.bitmapStart
  bitmapSize : t.globals.bitmapSize = s.globals.bitmapSize
  totalFrames : t.globals.totalFrames = s.globals.totalFrames
  hhdmOffset : t.globals.hhdmOffset = s.globals.hhdmOffset
  bytes : ∀ k, k < s.globals.bitmapSize.toNat →
    t.mem (s.globals.bitmapPhys + BitVec.ofNat 64 k)
      = s.mem (s.globals.bitmapPhys + BitVec.ofNat 64 k)

/-- The states that calls with any arguments reach from `s0`, with other code in between. -/
inductive PmmReach (s0 : Machine) : Machine → Prop where
  | init : PmmReach s0 s0
  | call {s t : Machine} {op : PmmOp} (hreach : PmmReach s0 s)
      (hcall : op.prog.run s = some ((), t)) : PmmReach s0 t
  | elsewhere {s t : Machine} (hreach : PmmReach s0 s) (hkeeps : KeepsBitmap s t) : PmmReach s0 t

/-- What every one of them keeps. -/
structure Machine.PmmSound (s : Machine) : Prop where
  fits : s.globals.BitmapFits
  padding : ∀ f, s.globals.totalFrames.toNat ≤ f → f < 8 * s.globals.bitmapSize.toNat →
    s.frameBit f = true

/-! ### What one call does -/

/-- Bits of tracked frames change, and all of them the same way. -/
structure PmmChange (s t : Machine) : Prop where
  only : BitmapOnly s t
  untracked : ∀ f, s.globals.totalFrames.toNat ≤ f → f < 2 ^ 64 → t.frameBit f = s.frameBit f
  oneWay : (∀ f, t.IsFree f → s.IsFree f) ∨ ∀ f, s.IsFree f → t.IsFree f

section Calls

variable {guar : Machine → Cmd → Prop} {s t : Machine}

theorem PmmChange.refl (s : Machine) : PmmChange s s :=
  ⟨BitmapOnly.refl s, fun _ _ _ => rfl, Or.inl fun _ h => h⟩

theorem PmmChange.of_set (taken : Nat → Prop) (honly : BitmapOnly s t)
    (hfits : s.globals.BitmapFits) (htracked : ∀ f, taken f → f < s.globals.totalFrames.toNat)
    (hbits : ∀ f, f < 2 ^ 64 → (t.frameBit f = true ↔ s.frameBit f = true ∨ taken f)) :
    PmmChange s t := by
  have htotal := hfits.total_lt
  refine ⟨honly, ?_, Or.inl ?_⟩
  · intro f hf hlt
    rw [Bool.eq_iff_iff, hbits f hlt]
    constructor
    · intro h
      exact h.resolve_right fun h => absurd (htracked f h) (Nat.not_lt.mpr hf)
    · exact Or.inl
  · intro f ⟨hlt, hbit⟩
    rw [honly.globals] at hlt
    refine ⟨hlt, ?_⟩
    rw [← Bool.not_eq_true] at hbit ⊢
    exact fun h => hbit ((hbits f (by omega)).mpr (Or.inl h))

theorem PmmChange.of_clear {given : Nat → Prop} (honly : BitmapOnly s t)
    (hfits : s.globals.BitmapFits)
    (hbits : ∀ f, f < 2 ^ 64 → (t.frameBit f = true ↔
      s.frameBit f = true ∧ ¬ (f < s.globals.totalFrames.toNat ∧ given f))) :
    PmmChange s t := by
  have htotal := hfits.total_lt
  refine ⟨honly, ?_, Or.inr ?_⟩
  · intro f hf hlt
    rw [Bool.eq_iff_iff, hbits f hlt]
    constructor
    · exact And.left
    · exact fun h => ⟨h, fun h' => absurd h'.1 (Nat.not_lt.mpr hf)⟩
  · intro f ⟨hlt, hbit⟩
    refine ⟨by rwa [honly.globals], ?_⟩
    rw [← Bool.not_eq_true] at hbit ⊢
    exact fun h => hbit ((hbits f (by omega)).mp h).1

theorem PmmChange.markRange (hfits : s.globals.BitmapFits) (start count : Nat)
    (hend : start + count ≤ s.globals.totalFrames.toNat) :
    PmmChange s (s.markRange start count) := by
  have htotal := hfits.total_lt
  apply PmmChange.of_set (fun f => f ∈ Finset.Ico start (start + count))
    (BitmapOnly.markRange hfits hend) hfits
  · intro f hf
    have := (Finset.mem_Ico.mp hf).2
    omega
  · intro f hf
    exact Machine.frameBit_markRange (by omega) hf

theorem PmmChange.afterFrees (hfits : s.globals.BitmapFits) (physAddr : PhysAddr) (count : Nat) :
    PmmChange s (s.afterFrees physAddr count) := by
  by_cases haligned : IsPageAligned physAddr
  · apply PmmChange.of_clear (BitmapOnly.afterFrees hfits physAddr count) hfits
    intro f hf
    exact Machine.frameBit_afterFrees_iff hfits haligned hf
  · rw [Machine.afterFrees_of_not_aligned haligned]
    exact PmmChange.refl s

theorem PmmChange.afterFree (hfits : s.globals.BitmapFits) (physAddr : PhysAddr) :
    PmmChange s (s.afterFree physAddr) := by
  have hone : s.afterFrees physAddr 1 = s.afterFree physAddr := by
    simp [Machine.afterFrees]
  exact hone ▸ PmmChange.afterFrees hfits physAddr 1

theorem PmmChange.afterMark (hfits : s.globals.BitmapFits) (physAddr : PhysAddr) :
    PmmChange s (s.afterMark physAddr) := by
  rw [Machine.afterMark]
  split
  · next h => exact PmmChange.markRange hfits (frameOf physAddr) 1 h.2
  · exact PmmChange.refl s

/-- **One rule for all calls.** They read and write bytes of the bitmap only, and what they change
they change one way. -/
theorem PmmOp.wp_prog (op : PmmOp) (hfits : s.globals.BitmapFits)
    (hguar : ∀ t c, BitmapOnly s t → PmmCommand s.globals c → guar t c)
    (hpanic : ∀ string, guar s (.kpanic string)) :
    Prog.Wp exec guar op.prog s fun _ t => PmmChange s t := by
  have hnow : ∀ c, PmmCommand s.globals c → guar s c := fun c => hguar s c (BitmapOnly.refl s)
  cases op with
  | allocFrame =>
      rw [PmmOp.prog, Prog.wp_bind]
      apply wp_pmmAllocFrame hfits hnow (fun _ => hpanic _)
      intro f hfree _
      exact PmmChange.markRange hfits f 1 hfree.1
  | allocFrames count =>
      rw [PmmOp.prog, Prog.wp_bind]
      apply wp_pmmAllocFrames hfits hguar (fun _ => hpanic)
      · exact fun _ => PmmChange.refl s
      · intro hcount start hwindow _
        have hpos : count.toNat ≠ 0 := fun h => hcount (BitVec.eq_of_toNat_eq h)
        exact PmmChange.markRange hfits start count.toNat (hwindow.end_le hpos)
  | freeFrame physAddr =>
      rw [PmmOp.prog, Prog.wp_bind]
      exact wp_pmmFreeFrame hfits hnow (PmmChange.afterFree hfits physAddr)
  | freeFrames physAddr count =>
      exact wp_pmmFreeFrames hfits hguar (PmmChange.afterFrees hfits physAddr count.toNat)
  | markAllocated physAddr =>
      exact wp_pmmMarkAllocated hfits hnow (PmmChange.afterMark hfits physAddr)
  | isFrameFree physAddr =>
      rw [PmmOp.prog, Prog.wp_bind]
      exact wp_pmmIsFrameFree hfits hnow (PmmChange.refl s)

theorem PmmChange.sound (h : PmmChange s t) (hs : s.PmmSound) : t.PmmSound := by
  have hsize := hs.fits.size_eq
  have htotal := hs.fits.total_lt
  refine ⟨by rw [h.only.globals]; exact hs.fits, ?_⟩
  intro f hlo hhi
  rw [h.only.globals] at hlo hhi
  rw [h.untracked f hlo (by omega)]
  exact hs.padding f hlo hhi

theorem KeepsBitmap.sound (h : KeepsBitmap s t) (hs : s.PmmSound) : t.PmmSound := by
  have hphys : t.globals.bitmapPhys = s.globals.bitmapPhys := by
    simp only [Globals.bitmapPhys, Globals.hhdmVirtToPhys, h.bitmapStart, h.hhdmOffset]
  refine ⟨⟨?_, ?_⟩, ?_⟩
  · rw [h.totalFrames]
    exact hs.fits.total_lt
  · rw [h.totalFrames, h.bitmapSize]
    exact hs.fits.size_eq
  · intro f hlo hhi
    rw [h.totalFrames] at hlo
    rw [h.bitmapSize] at hhi
    rw [Machine.frameBit, hphys, h.bytes (f / 8) (by omega)]
    exact hs.padding f hlo hhi

end Calls

/-! ### Runs -/

/-- What `pmm_init` sets the variables to, from any memory map. -/
theorem bitmapFits_pmmInitGlobals (memmap : List LimineMemmapEntry) (hhdmOffset : BitVec 64)
    (g : Globals) : (pmmInitGlobals memmap hhdmOffset g).BitmapFits := by
  have htotal : (pageCount (highestAddr memmap)).toNat < 2 ^ 52 := by
    rw [pageCount, toNat_div_pageSize]
    exact frameOf_lt _
  refine ⟨htotal, ?_⟩
  change (bitmapSizeFromFrames (pageCount (highestAddr memmap))).toNat
    = ((pageCount (highestAddr memmap)).toNat + 7) / 8
  rw [bitmapSizeFromFrames, BitVec.toNat_udiv, BitVec.toNat_add]
  change ((_ + 7) % 2 ^ 64) / 8 = _
  rw [Nat.mod_eq_of_lt (by omega)]

theorem pmmSound_fill (s : Machine) (hfits : s.globals.BitmapFits) :
    (s.fill s.globals.bitmapStart s.globals.bitmapSize.toNat 0xFF#8).PmmSound :=
  ⟨hfits, fun _ _ hf => Machine.frameBit_fill hf⟩

/-- Where `pmm_init` puts the bitmap; 0 also stands for nowhere. -/
def bitmapPlace (memmap : List LimineMemmapEntry) : PhysAddr :=
  bitmapStartPhys memmap (bitmapSizeFromFrames (pageCount (highestAddr memmap)))

/-- Whatever the memory map, `pmm_init` panics only at address 0. -/
theorem wp_pmmInit_sound (memmap : List LimineMemmapEntry) (hhdmOffset : BitVec 64) (s : Machine) :
    Prog.Wp exec (fun _ c => ∀ string, c = .kpanic string → bitmapPlace memmap = 0#64)
      (pmmInit memmap hhdmOffset) s fun _ t => t.PmmSound := by
  simp only [pmmInit, Prog.wp_bind, wp_getGlobals, wp_setGlobals]
  refine ⟨by simp, by simp, ?_⟩
  split
  · next hplace => exact wp_kpanic.mpr fun _ _ => hplace
  · simp only [Prog.wp_bind, wp_getGlobals, wp_setGlobals, Globals.hhdmPhysToVirt]
    refine ⟨by simp, by simp, wp_memset (by simp) ?_⟩
    have hquiet : ∀ {g : Globals} c, PmmCommand g c → ∀ string, c = .kpanic string →
        bitmapPlace memmap = 0#64 := by
      intro g c hc string heq
      cases hc <;> cases heq
    have hfilled := pmmSound_fill { s with globals := pmmInitGlobals memmap hhdmOffset s.globals }
      (bitmapFits_pmmInitGlobals memmap hhdmOffset s.globals)
    apply Prog.wp_forList (fun _ t => t.PmmSound) hfilled
    · intro _ entry _ t _ ht
      rw [pmmInitFreeRegion]
      split
      · exact ht
      · apply Prog.wp_forAcc (fun _ _ t => t.PmmSound) ht
        · intro i _ u _ _ hu
          rw [Prog.wp_bind]
          apply wp_pmmFreeFrame hu.fits hquiet
          exact (PmmChange.afterFree hu.fits _).sound hu
        · exact fun _ _ h => h
    · intro t ht
      apply Prog.wp_forAcc (fun _ _ t => t.PmmSound) ht
      · intro i _ u _ _ hu
        exact wp_pmmMarkAllocated hu.fits hquiet ((PmmChange.afterMark hu.fits _).sound hu)
      · intro _ u hu
        simp only [wp_klogf]
        exact ⟨by simp, by simp, hu⟩

theorem PmmReach.sound {s0 s : Machine} (hreach : PmmReach s0 s) (h0 : s0.PmmSound) :
    s.PmmSound := by
  induction hreach with
  | init => exact h0
  | call _ hcall ih =>
      have hchange := (PmmOp.wp_prog _ ih.fits (fun _ _ _ _ => trivial) fun _ => trivial).of_run hcall
      exact hchange.sound ih
  | elsewhere _ hkeeps ih => exact hkeeps.sound ih

/-! ### Counting -/

def Machine.clearBits (s : Machine) (count : Nat) : Nat :=
  Nat.count (fun f => s.frameBit f = false) count

theorem Machine.clearBits_succ (s : Machine) (count : Nat) :
    s.clearBits (count + 1) = s.clearBits count + if s.frameBit count = false then 1 else 0 :=
  Nat.count_succ _ _

/-- The bits past the last frame are set, so counting them counts nothing. -/
theorem Machine.PmmSound.clearBits_eq {s : Machine} (h : s.PmmSound) :
    s.clearBits (8 * s.globals.bitmapSize.toNat) = (freeFrames s).ncard := by
  have hsize := h.fits.size_eq
  have hfree : freeFrames s
      = ((Finset.range (8 * s.globals.bitmapSize.toNat)).filter fun f => s.frameBit f = false) := by
    ext f
    rw [mem_freeFrames_iff h.fits, Finset.mem_coe, Finset.mem_filter, Finset.mem_range]
    constructor
    · intro ⟨hlt, hbit⟩
      exact ⟨by omega, hbit⟩
    · intro ⟨hlt, hbit⟩
      refine ⟨?_, hbit⟩
      by_contra hpast
      rw [h.padding f (by omega) hlt] at hbit
      cases hbit
  rw [hfree, Set.ncard_coe_finset, Machine.clearBits, Nat.count_eq_card_filter_range]

theorem freeFrames_finite (s : Machine) : (freeFrames s).Finite :=
  (Set.finite_Iio s.globals.totalFrames.toNat).subset fun _ h => h.1

theorem ncard_freeFrames_le (s : Machine) :
    (freeFrames s).ncard ≤ s.globals.totalFrames.toNat := by
  have hsubset : freeFrames s ⊆ Finset.range s.globals.totalFrames.toNat :=
    fun _ h => Finset.mem_coe.mpr (Finset.mem_range.mpr h.1)
  have hcard := Set.ncard_le_ncard hsubset (Finset.finite_toSet _)
  rwa [Set.ncard_coe_finset, Finset.card_range] at hcard

section FreeSize

variable {guar : Machine → Cmd → Prop} {s : Machine}

theorem Machine.frameBit_of_byte (s : Machine) {byte bit : Nat} (hbit : bit < 8) :
    s.frameBit (8 * byte + bit)
      = (s.mem (s.globals.bitmapPhys + BitVec.ofNat 64 byte)).getLsbD bit := by
  rw [Machine.frameBit, show (8 * byte + bit) / 8 = byte by omega,
    show (8 * byte + bit) % 8 = bit by omega]

theorem Machine.clearBits_uniform (s : Machine) {byte : Nat} {value : Bool}
    (hvalue : ∀ bit, bit < 8 →
      (s.mem (s.globals.bitmapPhys + BitVec.ofNat 64 byte)).getLsbD bit = value) :
    s.clearBits (8 * (byte + 1)) = s.clearBits (8 * byte) + if value = false then 8 else 0 := by
  have hbits : ∀ bit, bit ≤ 8 →
      s.clearBits (8 * byte + bit) = s.clearBits (8 * byte) + if value = false then bit else 0 := by
    intro bit
    induction bit with
    | zero => simp
    | succ bit ih =>
        intro hbit
        rw [← Nat.add_assoc, Machine.clearBits_succ, ih (by omega),
          s.frameBit_of_byte (by omega), hvalue bit (by omega)]
        split <;> omega
  exact hbits 8 (Nat.le_refl 8)

theorem wp_pmmGetFreeSizeByte (hguar : ∀ c, PmmCommand s.globals c → guar s c) {byte : Nat}
    (hbyte : byte < s.globals.bitmapSize.toNat) :
    Prog.Wp exec guar
      (pmmGetFreeSizeByte s.globals byte (BitVec.ofNat 64 (s.clearBits (8 * byte)))) s
      fun freeFrames t => t = s ∧ freeFrames = BitVec.ofNat 64 (s.clearBits (8 * (byte + 1))) := by
  have hzeros : ∀ i, i < 8 → (0x00#8).getLsbD i = false := by decide
  have hones : ∀ i, i < 8 → (0xFF#8).getLsbD i = true := by decide
  rw [pmmGetFreeSizeByte, Prog.wp_bind, wp_load8, hhdmVirtToPhys_bitmapStart_add]
  refine ⟨hguar _ (.load8 hbyte), ?_⟩
  split
  · next hzero =>
      refine ⟨rfl, ?_⟩
      rw [s.clearBits_uniform fun bit hbit => hzero ▸ hzeros bit hbit, if_pos rfl,
        BitVec.ofNat_add]
  · rw [Prog.wp_bind, wp_load8, hhdmVirtToPhys_bitmapStart_add]
    refine ⟨hguar _ (.load8 hbyte), ?_⟩
    split
    · next hone =>
        refine ⟨rfl, ?_⟩
        rw [s.clearBits_uniform fun bit hbit => hone ▸ hones bit hbit, if_neg (by decide),
          Nat.add_zero]
    · apply Prog.wp_forAcc
        (fun bit freeFrames t => t = s ∧ freeFrames = BitVec.ofNat 64 (s.clearBits (8 * byte + bit)))
      · exact ⟨rfl, rfl⟩
      · rintro bit freeFrames t - hbit ⟨rfl, rfl⟩
        rw [Prog.wp_bind, wp_load8, hhdmVirtToPhys_bitmapStart_add]
        refine ⟨hguar _ (.load8 hbyte), ?_⟩
        have hclear := t.clearBits_succ (8 * byte + bit)
        rw [t.frameBit_of_byte hbit, Nat.add_assoc] at hclear
        have hiff : t.mem (t.globals.bitmapPhys + BitVec.ofNat 64 byte) &&& (1#8 <<< bit) = 0#8 ↔ _ :=
          BitField.and_one_shiftLeft_eq_zero_iff hbit
        split
        · next hset =>
            rw [if_pos (hiff.mp hset)] at hclear
            refine ⟨rfl, ?_⟩
            rw [hclear, BitVec.ofNat_add]
        · next hset =>
            rw [if_neg fun h => hset (hiff.mpr h)] at hclear
            exact ⟨rfl, congrArg _ hclear.symm⟩
      · exact fun _ _ h => h

/-- **The free size is exact**, and computed from bytes of the bitmap alone. -/
theorem wp_pmmGetFreeSize (hs : s.PmmSound) (hguar : ∀ c, PmmCommand s.globals c → guar s c) :
    Prog.Wp exec guar pmmGetFreeSize s fun size t =>
      t = s ∧ size.toNat = 4096 * (freeFrames s).ncard := by
  rw [pmmGetFreeSize, Prog.wp_bind, wp_getGlobals]
  refine ⟨hguar _ .globals, ?_⟩
  rw [Prog.wp_bind]
  apply Prog.wp_forAcc
    (fun byte freeFrames t => t = s ∧ freeFrames = BitVec.ofNat 64 (s.clearBits (8 * byte)))
  · exact ⟨rfl, rfl⟩
  · rintro byte freeFrames t - hbyte ⟨rfl, rfl⟩
    exact wp_pmmGetFreeSizeByte hguar (by omega)
  · rintro freeFrames t ⟨rfl, rfl⟩
    refine ⟨rfl, ?_⟩
    have hcount : (freeFrames t).ncard < 2 ^ 52 :=
      Nat.lt_of_le_of_lt (ncard_freeFrames_le t) hs.fits.total_lt
    rw [Nat.zero_add, hs.clearBits_eq]
    change (frameAddr (freeFrames t).ncard).toNat = _
    rw [toNat_frameAddr hcount, Nat.mul_comm]

end FreeSize

theorem pmmGetFreeSize_run {s : Machine} (hs : s.PmmSound) :
    ∃ size, pmmGetFreeSize.run s = some (size, s) ∧ size.toNat = 4096 * (freeFrames s).ncard := by
  obtain ⟨size, t, hrun, rfl, hsize⟩ :=
    (wp_pmmGetFreeSize hs fun _ hc => hc).returns fun mid c (hc : PmmCommand _ c) => by
      cases hc <;> simp [exec]
  exact ⟨size, hrun, hsize⟩

/-- A one-way change moves the number of free frames by the number of frames changed. -/
theorem PmmChange.ncard_freeFrames {s t : Machine} (h : PmmChange s t) (hs : s.PmmSound) :
    ((freeFrames t).ncard - (freeFrames s).ncard : Int).natAbs
      = (symmDiff (freeFrames s) (freeFrames t)).ncard := by
  have hmem : ∀ f, f ∈ freeFrames t ↔ t.IsFree f := fun f => mem_freeFrames_iff (h.sound hs).fits
  have hmem' : ∀ f, f ∈ freeFrames s ↔ s.IsFree f := fun f => mem_freeFrames_iff hs.fits
  cases h.oneWay with
  | inl htaken =>
      have hsubset : freeFrames t ⊆ freeFrames s :=
        fun f hf => (hmem' f).mpr (htaken f ((hmem f).mp hf))
      have hcard := Set.ncard_sdiff_add_ncard_of_subset hsubset (freeFrames_finite s)
      rw [symmDiff_of_ge hsubset]
      omega
  | inr hgiven =>
      have hsubset : freeFrames s ⊆ freeFrames t :=
        fun f hf => (hmem f).mpr (hgiven f ((hmem' f).mp hf))
      have hcard := Set.ncard_sdiff_add_ncard_of_subset hsubset (freeFrames_finite t)
      rw [symmDiff_of_le hsubset]
      omega

def StaysInBitmap {α : Type} (prog : Kernel α) (s : Machine) : Prop :=
  ∀ mid c, Prog.Visits exec prog s mid c →
    PmmCommand s.globals c ∨ ∃ string, c = .kpanic string

/-- **Free-memory accounting.** From whatever memory map `pmm_init` returned, after any calls with
any arguments: no call leaves the bitmap, the bits past the last frame are set,
`pmm_get_free_size` is the size of the frames `pmm_is_frame_free` reports, and a call changes it by
the frames it changed. -/
theorem pmmReach_freeSize_exact {memmap : List LimineMemmapEntry} {hhdmOffset : BitVec 64}
    {boot s0 s : Machine} (hinit : (pmmInit memmap hhdmOffset).run boot = some ((), s0))
    (hreach : PmmReach s0 s) :
    (∀ op : PmmOp, StaysInBitmap op.prog s) ∧ StaysInBitmap pmmGetFreeSize s
      ∧ (∀ f, s.globals.totalFrames.toNat ≤ f → f < 8 * s.globals.bitmapSize.toNat →
          s.frameBit f = true)
      ∧ (∃ size, pmmGetFreeSize.run s = some (size, s)
          ∧ size.toNat = 4096 * (freeFrames s).ncard)
      ∧ ∀ (op : PmmOp) t, op.prog.run s = some ((), t) →
          ∃ before after, pmmGetFreeSize.run s = some (before, s)
            ∧ pmmGetFreeSize.run t = some (after, t)
            ∧ (after.toNat - before.toNat : Int).natAbs
                = 4096 * (symmDiff (freeFrames s) (freeFrames t)).ncard := by
  have hs : s.PmmSound := hreach.sound ((wp_pmmInit_sound memmap hhdmOffset boot).of_run hinit)
  refine ⟨?_, ?_, hs.padding, pmmGetFreeSize_run hs, ?_⟩
  · intro op mid c hvisit
    have hwp : Prog.Wp exec (fun _ c => PmmCommand s.globals c ∨ ∃ string, c = .kpanic string)
        op.prog s fun _ t => PmmChange s t :=
      op.wp_prog hs.fits (fun _ _ _ hc => Or.inl hc) fun string => Or.inr ⟨string, rfl⟩
    exact hwp.of_visits hvisit
  · intro mid c hvisit
    have hwp : Prog.Wp exec (fun _ c => PmmCommand s.globals c) pmmGetFreeSize s _ :=
      wp_pmmGetFreeSize hs fun _ hc => hc
    exact Or.inl (hwp.of_visits hvisit)
  · intro op t hcall
    have hchange : PmmChange s t :=
      (op.wp_prog hs.fits (fun _ _ _ _ => trivial) fun _ => trivial).of_run hcall
    obtain ⟨before, hbefore, hsize⟩ := pmmGetFreeSize_run hs
    obtain ⟨after, hafter, hsize'⟩ := pmmGetFreeSize_run (hchange.sound hs)
    refine ⟨before, after, hbefore, hafter, ?_⟩
    rw [← hchange.ncard_freeFrames hs, hsize, hsize']
    omega

theorem pmmFreeFrames_run {s : Machine} (hfits : s.globals.BitmapFits) (physAddr : PhysAddr)
    (count : BitVec 64) :
    (pmmFreeFrames physAddr count).run s = some ((), s.afterFrees physAddr count.toNat) := by
  have hwp : Prog.Wp exec (fun _ c => PmmCommand s.globals c) (pmmFreeFrames physAddr count) s
      fun _ t => t = s.afterFrees physAddr count.toNat :=
    wp_pmmFreeFrames hfits (fun _ _ _ hc => hc) rfl
  obtain ⟨⟨⟩, t, hrun, rfl⟩ := hwp.returns fun mid c hc => by cases hc <;> simp [exec]
  exact hrun

theorem pmmReach_freeSize_exact_sampleMemmap :
    ∃ s0 t size, (pmmInit sampleMemmap 0xFFFF800000000000#64).run bareMachine = some ((), s0)
      ∧ (PmmOp.freeFrames 0x1800#64 5#64).prog.run s0 = some ((), t)
      ∧ pmmGetFreeSize.run t = some (size, t) ∧ size.toNat = 4096 * (freeFrames t).ncard := by
  obtain ⟨s0, hboot, hinit⟩ :=
    pmmInit_returns sampleMemmap_ok 0xFFFF800000000000#64 bareMachine (by decide)
  have hcall : (PmmOp.freeFrames 0x1800#64 5#64).prog.run s0 = some ((), _) :=
    pmmFreeFrames_run hinit.layout.fits 0x1800#64 5#64
  obtain ⟨size, hsize⟩ := (pmmReach_freeSize_exact hboot (.call .init hcall)).2.2.2.1
  exact ⟨s0, _, size, hboot, hcall, hsize⟩

end RainstormOs
