import RainstormOs.Proof.PmmSpec
import Mathlib.Order.Bounds.Basic

/-!
# What `pmm_init` leaves

Four passes over the memory map: the size pass fixes how many frames are tracked, the placement pass
where the bitmap goes, the free pass clears the bits of the usable frames and the last pass sets the
bits of the frames the bitmap occupies. The placement pass compares bytes and the last pass counts
whole pages; they agree because usable entries have page-aligned lengths.
-/

namespace RainstormOs

/-- What the boot loader promises about the memory map and `pmm_init` relies on: addresses stay
below `2 ^ 52`, and usable entries consist of whole pages. -/
structure LimineMemmap (memmap : List LimineMemmapEntry) : Prop where
  end_le : ∀ entry ∈ memmap, entry.base.toNat + entry.length.toNat ≤ 2 ^ 52
  usable_aligned : ∀ entry ∈ memmap, entry.type = limineMemmapUsable →
    IsPageAligned entry.base ∧ IsPageAligned entry.length

/-- The frame lies in the entry, all 4096 bytes of it. -/
def LimineMemmapEntry.ContainsFrame (entry : LimineMemmapEntry) (frame : Nat) : Prop :=
  entry.base.toNat ≤ frame * 4096 ∧ (frame + 1) * 4096 ≤ entry.base.toNat + entry.length.toNat

def UsableFrame (memmap : List LimineMemmapEntry) (frame : Nat) : Prop :=
  ∃ entry ∈ memmap, entry.type = limineMemmapUsable ∧ entry.ContainsFrame frame

/-! ### The size pass -/

theorem toNat_entry_end {entry : LimineMemmapEntry}
    (hend : entry.base.toNat + entry.length.toNat ≤ 2 ^ 52) :
    (entry.base + entry.length).toNat = entry.base.toNat + entry.length.toNat := by
  rw [BitVec.toNat_add]
  exact Nat.mod_eq_of_lt (by omega)

/-- The size pass computes the maximum of the ends that count. -/
theorem toNat_highestAddr_le_iff {memmap : List LimineMemmapEntry}
    (hend : ∀ entry ∈ memmap, entry.base.toNat + entry.length.toNat ≤ 2 ^ 52) (bound : Nat) :
    (highestAddr memmap).toNat ≤ bound ↔
      ∀ entry ∈ memmap, ¬ entry.SkippedBySizePass →
        entry.base.toNat + entry.length.toNat ≤ bound := by
  suffices h : ∀ (entries : List LimineMemmapEntry) (start : BitVec 64),
      (∀ entry ∈ entries, entry.base.toNat + entry.length.toNat ≤ 2 ^ 52) →
      ((entries.foldl
        (fun highest entry =>
          if entry.SkippedBySizePass then highest
          else if entry.base + entry.length > highest then entry.base + entry.length
          else highest) start).toNat ≤ bound ↔
        start.toNat ≤ bound ∧ ∀ entry ∈ entries, ¬ entry.SkippedBySizePass →
          entry.base.toNat + entry.length.toNat ≤ bound) by
    rw [highestAddr, h memmap 0#64 hend]
    simp
  intro entries
  induction entries with
  | nil => simp
  | cons entry rest ih =>
      intro start hends
      have hval := toNat_entry_end (hends entry (by simp))
      rw [List.foldl_cons, ih _ fun e he => hends e (by simp [he])]
      simp only [List.mem_cons, forall_eq_or_imp]
      by_cases hskip : entry.SkippedBySizePass
      · simp [hskip]
      · rw [if_neg hskip]
        simp only [hskip, not_false_eq_true, true_implies, gt_iff_lt, BitVec.lt_def, hval]
        split
        · rw [hval]
          constructor
          · rintro ⟨hle, hrest⟩
            exact ⟨by omega, hle, hrest⟩
          · rintro ⟨-, hle, hrest⟩
            exact ⟨hle, hrest⟩
        · constructor
          · rintro ⟨hle, hrest⟩
            exact ⟨hle, by omega, hrest⟩
          · rintro ⟨hle, -, hrest⟩
            exact ⟨hle, hrest⟩

theorem LimineMemmap.highestAddr_le {memmap : List LimineMemmapEntry} (h : LimineMemmap memmap) :
    (highestAddr memmap).toNat ≤ 2 ^ 52 :=
  (toNat_highestAddr_le_iff h.end_le _).mpr fun entry hentry _ => h.end_le entry hentry

theorem LimineMemmap.toNat_totalFrames {memmap : List LimineMemmapEntry}
    (h : LimineMemmap memmap) :
    (pageCount (highestAddr memmap)).toNat = ((highestAddr memmap).toNat + 4095) / 4096 := by
  have := h.highestAddr_le
  exact toNat_pageCount (by omega)

/-- The tracked frames are the fewest that reach the end of every entry that counts. -/
theorem LimineMemmap.totalFrames_isLeast {memmap : List LimineMemmapEntry}
    (h : LimineMemmap memmap) :
    IsLeast {n | ∀ entry ∈ memmap, ¬ entry.SkippedBySizePass →
        entry.base.toNat + entry.length.toNat ≤ n * 4096}
      (pageCount (highestAddr memmap)).toNat := by
  rw [h.toNat_totalFrames]
  constructor
  · rw [Set.mem_ofPred_eq, ← toNat_highestAddr_le_iff h.end_le]
    omega
  · intro n hn
    rw [Set.mem_ofPred_eq, ← toNat_highestAddr_le_iff h.end_le] at hn
    omega

theorem not_skipped_of_usable {entry : LimineMemmapEntry}
    (husable : entry.type = limineMemmapUsable) : ¬ entry.SkippedBySizePass := by
  rw [LimineMemmapEntry.SkippedBySizePass, husable]
  decide

theorem LimineMemmap.usableFrame_lt {memmap : List LimineMemmapEntry} (h : LimineMemmap memmap)
    {frame : Nat} (husable : UsableFrame memmap frame) :
    frame < (pageCount (highestAddr memmap)).toNat := by
  obtain ⟨entry, hentry, htype, -, hend⟩ := husable
  have := h.totalFrames_isLeast.1 entry hentry (not_skipped_of_usable htype)
  omega

/-! ### The placement pass -/

theorem exists_entry_of_bitmapStartPhys_ne {memmap : List LimineMemmapEntry}
    {bitmapSize : BitVec 64} (hne : bitmapStartPhys memmap bitmapSize ≠ 0#64) :
    ∃ entry ∈ memmap, entry.type = limineMemmapUsable ∧ bitmapSize.toNat ≤ entry.length.toNat
      ∧ bitmapStartPhys memmap bitmapSize = entry.base := by
  unfold bitmapStartPhys at hne ⊢
  split at hne
  · next entry hfind =>
      have hprop := List.find?_some hfind
      simp only [Bool.and_eq_true, decide_eq_true_eq, BitVec.lt_def, Nat.not_lt] at hprop
      exact ⟨entry, List.mem_of_find?_eq_some hfind, hprop.1, hprop.2, rfl⟩
  · exact absurd rfl hne

def pmmInitGlobals (memmap : List LimineMemmapEntry) (hhdmOffset : BitVec 64) (g : Globals) :
    Globals :=
  let totalFrames := pageCount (highestAddr memmap)
  let bitmapSize := bitmapSizeFromFrames totalFrames
  { g with
    hhdmOffset := hhdmOffset
    totalFrames := totalFrames
    bitmapSize := bitmapSize
    bitmapStart := bitmapStartPhys memmap bitmapSize + hhdmOffset }

theorem bitmapPhys_pmmInitGlobals (memmap : List LimineMemmapEntry) (hhdmOffset : BitVec 64)
    (g : Globals) :
    (pmmInitGlobals memmap hhdmOffset g).bitmapPhys
      = bitmapStartPhys memmap
          (bitmapSizeFromFrames (pageCount (highestAddr memmap))) := by
  simp [pmmInitGlobals, Globals.bitmapPhys, Globals.hhdmVirtToPhys]

theorem LimineMemmap.toNat_bitmapSize {memmap : List LimineMemmapEntry} (h : LimineMemmap memmap) :
    (bitmapSizeFromFrames (pageCount (highestAddr memmap))).toNat
      = ((pageCount (highestAddr memmap)).toNat + 7) / 8 := by
  have htotal := h.toNat_totalFrames
  have hle := h.highestAddr_le
  rw [bitmapSizeFromFrames, BitVec.toNat_udiv, BitVec.toNat_add]
  change ((_ + 7) % 2 ^ 64) / 8 = _
  rw [Nat.mod_eq_of_lt (by omega)]

/-- The bitmap's whole frames lie inside the entry the placement pass chose. -/
theorem LimineMemmap.exists_bitmap_entry {memmap : List LimineMemmapEntry}
    (h : LimineMemmap memmap) (hhdmOffset : BitVec 64) (g : Globals)
    (hne : bitmapStartPhys memmap (bitmapSizeFromFrames (pageCount (highestAddr memmap)))
      ≠ 0#64) :
    ∃ entry ∈ memmap, entry.type = limineMemmapUsable
      ∧ IsPageAligned (pmmInitGlobals memmap hhdmOffset g).bitmapPhys
      ∧ ∀ frame, (pmmInitGlobals memmap hhdmOffset g).IsBitmapFrame frame →
          entry.ContainsFrame frame := by
  obtain ⟨entry, hentry, htype, hlength, hbase⟩ := exists_entry_of_bitmapStartPhys_ne hne
  obtain ⟨haligned, halignedLength⟩ := h.usable_aligned entry hentry htype
  refine ⟨entry, hentry, htype, ?_, ?_⟩
  · rwa [bitmapPhys_pmmInitGlobals, hbase]
  · rintro frame ⟨hlo, hhi⟩
    rw [bitmapPhys_pmmInitGlobals, hbase, frameOf] at hlo hhi
    have hsize : (pmmInitGlobals memmap hhdmOffset g).bitmapSize.toNat ≤ entry.length.toNat :=
      hlength
    rw [isPageAligned_iff] at haligned halignedLength
    unfold LimineMemmapEntry.ContainsFrame
    omega

theorem LimineMemmap.pmmLayout {memmap : List LimineMemmapEntry} (h : LimineMemmap memmap)
    (hhdmOffset : BitVec 64) (g : Globals)
    (hne : bitmapStartPhys memmap (bitmapSizeFromFrames (pageCount (highestAddr memmap)))
      ≠ 0#64) :
    (pmmInitGlobals memmap hhdmOffset g).PmmLayout := by
  obtain ⟨entry, hentry, htype, haligned, hcontains⟩ :=
    h.exists_bitmap_entry hhdmOffset g hne
  have htotal := h.toNat_totalFrames
  have hhigh := h.highestAddr_le
  refine ⟨?_, h.toNat_bitmapSize, haligned, ?_⟩
  · change (pageCount (highestAddr memmap)).toNat ≤ _
    omega
  · change _ + (_ + 4095) / 4096 ≤ (pageCount (highestAddr memmap)).toNat
    by_cases hempty : ((pmmInitGlobals memmap hhdmOffset g).bitmapSize.toNat + 4095) / 4096 = 0
    · have hsize : (pmmInitGlobals memmap hhdmOffset g).bitmapSize.toNat
          = ((pageCount (highestAddr memmap)).toNat + 7) / 8 := h.toNat_bitmapSize
      obtain ⟨entry', hentry', htype', -, hbase'⟩ := exists_entry_of_bitmapStartPhys_ne hne
      have hend' := h.totalFrames_isLeast.1 entry' hentry' (not_skipped_of_usable htype')
      rw [bitmapPhys_pmmInitGlobals, hbase', frameOf]
      omega
    · have hlast := h.usableFrame_lt ⟨entry, hentry, htype, hcontains
        (frameOf (pmmInitGlobals memmap hhdmOffset g).bitmapPhys
          + ((pmmInitGlobals memmap hhdmOffset g).bitmapSize.toNat + 4095) / 4096 - 1)
        ⟨by omega, by omega⟩⟩
      omega

/-! ### The free pass -/

section Passes

variable {guar : Machine → Cmd → Prop} {s : Machine}

theorem frameOf_entry_add {entry : LimineMemmapEntry} (haligned : IsPageAligned entry.base)
    (hend : entry.base.toNat + entry.length.toNat ≤ 2 ^ 52) {i : Nat}
    (hi : i < regionPages entry.length) :
    IsPageAligned (entry.base + BitVec.ofNat 64 i * pageSize)
      ∧ frameOf (entry.base + BitVec.ofNat 64 i * pageSize) = frameOf entry.base + i := by
  unfold regionPages at hi
  have hmul : (BitVec.ofNat 64 i * pageSize).toNat = i * 4096 :=
    toNat_frameAddr (by omega)
  have hval : (entry.base + BitVec.ofNat 64 i * pageSize).toNat = entry.base.toNat + i * 4096 := by
    rw [BitVec.toNat_add, hmul]
    exact Nat.mod_eq_of_lt (by omega)
  rw [isPageAligned_iff] at haligned ⊢
  rw [frameOf, frameOf, hval]
  omega

theorem wp_pmmInitFreeRegion {memmap : List LimineMemmapEntry} (h : LimineMemmap memmap)
    {entry : LimineMemmapEntry} (hentry : entry ∈ memmap) (hlayout : s.globals.PmmLayout)
    (htotal : s.globals.totalFrames = pageCount (highestAddr memmap))
    (hguar : ∀ t c, PmmOnly s t → PmmCommand s.globals c → guar t c) :
    Prog.Wp exec guar (pmmInitFreeRegion entry) s fun _ t => PmmOnly s t ∧
      ∀ f, f < 2 ^ 64 → (t.frameBit f = true ↔ s.frameBit f = true
        ∧ ¬ (entry.type = limineMemmapUsable ∧ entry.ContainsFrame f)) := by
  rw [pmmInitFreeRegion]
  by_cases htype : entry.type = limineMemmapUsable
  · obtain ⟨haligned, halignedLength⟩ := h.usable_aligned entry hentry htype
    have hend := h.end_le entry hentry
    rw [if_neg (not_not_intro htype)]
    refine Prog.wp_forAcc
      (fun i _ t => PmmOnly s t ∧ ∀ f, f < 2 ^ 64 → (t.frameBit f = true ↔ s.frameBit f = true
        ∧ ¬ (frameOf entry.base ≤ f ∧ f < frameOf entry.base + i)))
      ⟨PmmOnly.refl s, fun f _ => by simp⟩ ?_ ?_
    · rintro i ⟨⟩ t - hi ⟨honly, hbits⟩
      obtain ⟨hpage, hframe⟩ := frameOf_entry_add haligned hend (i := i) (by omega)
      have hlayout' : t.globals.PmmLayout := by rwa [honly.globals]
      have htracked : frameOf (entry.base + BitVec.ofNat 64 i * pageSize)
          < t.globals.totalFrames.toNat := by
        rw [honly.globals, htotal]
        refine h.usableFrame_lt ⟨entry, hentry, htype, ?_⟩
        unfold regionPages at hi
        rw [isPageAligned_iff] at haligned halignedLength
        rw [hframe, frameOf, LimineMemmapEntry.ContainsFrame]
        omega
      rw [Prog.wp_bind]
      refine wp_pmmFreeFrame hlayout'.fits (fun c hc => hguar t c honly (honly.globals ▸ hc)) ?_
      refine ⟨honly.trans ((BitmapOnly.afterFree hlayout'.fits _).pmmOnly hlayout'), fun f hf => ?_⟩
      rw [Machine.frameBit_afterFree hpage htracked hf, hframe]
      simp only [Bool.and_eq_true, Bool.not_eq_true', decide_eq_false_iff_not, hbits f hf]
      constructor
      · rintro ⟨⟨hset, hout⟩, hne⟩
        exact ⟨hset, by omega⟩
      · rintro ⟨hset, hout⟩
        exact ⟨⟨hset, by omega⟩, by omega⟩
    · rintro ⟨⟩ t ⟨honly, hbits⟩
      refine ⟨honly, fun f hf => (hbits f hf).trans ?_⟩
      rw [isPageAligned_iff] at haligned halignedLength
      simp only [htype, true_and, LimineMemmapEntry.ContainsFrame, frameOf, regionPages]
      refine and_congr Iff.rfl (not_congr ?_)
      omega
  · rw [if_pos htype]
    exact ⟨PmmOnly.refl s, fun f _ => by simp [htype]⟩

/-- The free pass clears the bits of the usable frames and no other. -/
theorem wp_freePass {memmap : List LimineMemmapEntry} (h : LimineMemmap memmap)
    (hlayout : s.globals.PmmLayout)
    (htotal : s.globals.totalFrames = pageCount (highestAddr memmap))
    (hguar : ∀ t c, PmmOnly s t → PmmCommand s.globals c → guar t c) :
    Prog.Wp exec guar (Prog.forList pmmInitFreeRegion memmap) s fun _ t => PmmOnly s t ∧
      ∀ f, f < 2 ^ 64 →
        (t.frameBit f = true ↔ s.frameBit f = true ∧ ¬ UsableFrame memmap f) := by
  refine Prog.wp_forList
    (fun done t => PmmOnly s t ∧ ∀ f, f < 2 ^ 64 →
      (t.frameBit f = true ↔ s.frameBit f = true ∧ ¬ UsableFrame done f))
    ⟨PmmOnly.refl s, fun f _ => by simp [UsableFrame]⟩ ?_ fun t ht => ht
  rintro done entry rest t hsplit ⟨honly, hbits⟩
  have hentry : entry ∈ memmap := by simp [hsplit]
  refine (wp_pmmInitFreeRegion h hentry (by rwa [honly.globals]) (by rw [honly.globals, htotal])
    fun u c hu hc => hguar u c (honly.trans hu) (honly.globals ▸ hc)).post ?_
  rintro ⟨⟩ u ⟨honly', hbits'⟩
  refine ⟨honly.trans honly', fun f hf => ?_⟩
  rw [hbits' f hf, hbits f hf]
  simp only [UsableFrame, List.mem_append, List.mem_singleton]
  constructor
  · rintro ⟨⟨hset, hdone⟩, hentry'⟩
    refine ⟨hset, ?_⟩
    rintro ⟨e, he | rfl, htype, hcontains⟩
    · exact hdone ⟨e, he, htype, hcontains⟩
    · exact hentry' ⟨htype, hcontains⟩
  · rintro ⟨hset, hall⟩
    exact ⟨⟨hset, fun ⟨e, he, hrest⟩ => hall ⟨e, Or.inl he, hrest⟩⟩,
      fun hlast => hall ⟨entry, Or.inr rfl, hlast⟩⟩

/-! ### The last pass -/

theorem wp_reservePass (hlayout : s.globals.PmmLayout)
    (hguar : ∀ t c, PmmOnly s t → PmmCommand s.globals c → guar t c) :
    Prog.Wp exec guar
      (Prog.forAcc
        (fun frame () =>
          pmmMarkAllocated (s.globals.bitmapPhys + BitVec.ofNat 64 frame * pageSize))
        (pageCount s.globals.bitmapSize).toNat 0 ()) s fun _ t => PmmOnly s t ∧
      ∀ f, f < 2 ^ 64 →
        (t.frameBit f = true ↔ s.frameBit f = true ∨ s.globals.IsBitmapFrame f) := by
  have hsize := hlayout.size_eq
  have htotal := hlayout.total_le
  have htracked := hlayout.tracked
  have hpages : (pageCount s.globals.bitmapSize).toNat
      = (s.globals.bitmapSize.toNat + 4095) / 4096 := toNat_pageCount (by omega)
  refine Prog.wp_forAcc
    (fun i _ t => PmmOnly s t ∧ ∀ f, f < 2 ^ 64 → (t.frameBit f = true ↔ s.frameBit f = true
      ∨ (frameOf s.globals.bitmapPhys ≤ f ∧ f < frameOf s.globals.bitmapPhys + i)))
    ⟨PmmOnly.refl s, fun f _ => by simp⟩ ?_ ?_
  · rintro i ⟨⟩ t - hi ⟨honly, hbits⟩
    have hlayout' : t.globals.PmmLayout := by rwa [honly.globals]
    have hframe : frameOf s.globals.bitmapPhys + i < t.globals.totalFrames.toNat := by
      rw [honly.globals]
      omega
    have hmark : t.afterMark (frameAddr (frameOf s.globals.bitmapPhys + i))
        = t.markFrame (frameOf s.globals.bitmapPhys + i) := by
      have hsmall : frameOf s.globals.bitmapPhys + i < 2 ^ 52 := by
        have := hlayout'.total_le
        omega
      rw [Machine.afterMark, frameOf_frameAddr hsmall,
        if_pos ⟨isPageAligned_frameAddr hsmall, hframe⟩]
    rw [frameAddr_add hlayout.aligned]
    refine wp_pmmMarkAllocated hlayout'.fits
      (fun c hc => hguar t c honly (honly.globals ▸ hc)) ?_
    rw [hmark]
    refine ⟨honly.trans ((BitmapOnly.markFrame hlayout'.fits hframe).pmmOnly hlayout'),
      fun f hf => ?_⟩
    rw [Machine.frameBit_markFrame t (by rw [honly.globals] at hframe; omega) hf]
    simp only [Bool.or_eq_true, decide_eq_true_eq, hbits f hf, or_assoc]
    refine or_congr Iff.rfl ?_
    omega
  · rintro ⟨⟩ t ⟨honly, hbits⟩
    refine ⟨honly, fun f hf => (hbits f hf).trans ?_⟩
    rw [Globals.IsBitmapFrame, hpages, Nat.zero_add]

structure PmmInitialised (memmap : List LimineMemmapEntry) (hhdmOffset : BitVec 64)
    (s t : Machine) : Prop where
  globals : t.globals = pmmInitGlobals memmap hhdmOffset s.globals
  layout : t.globals.PmmLayout
  entry : ∃ entry ∈ memmap, entry.type = limineMemmapUsable
    ∧ ∀ frame, t.globals.IsBitmapFrame frame → entry.ContainsFrame frame
  bits : ∀ f, f < 8 * t.globals.bitmapSize.toNat →
    (t.frameBit f = true ↔ ¬ UsableFrame memmap f ∨ t.globals.IsBitmapFrame f)

/-- `pmm_init` panics only when the placement pass found no place, and otherwise builds the bitmap
the memory map asks for. -/
theorem wp_pmmInit {memmap : List LimineMemmapEntry} (h : LimineMemmap memmap)
    (hhdmOffset : BitVec 64) (s : Machine) :
    Prog.Wp exec
      (fun _ c => ∀ string, c = .kpanic string →
        bitmapStartPhys memmap (bitmapSizeFromFrames (pageCount (highestAddr memmap))) = 0#64)
      (pmmInit memmap hhdmOffset) s fun _ t => PmmInitialised memmap hhdmOffset s t := by
  simp only [pmmInit, Prog.wp_bind, wp_getGlobals, wp_setGlobals]
  refine ⟨by simp, by simp, ?_⟩
  by_cases hstart : bitmapStartPhys memmap
      (bitmapSizeFromFrames (pageCount (highestAddr memmap))) = 0#64
  · rw [if_pos hstart, wp_kpanic]
    exact fun _ _ => hstart
  rw [if_neg hstart]
  simp only [Prog.wp_bind, wp_getGlobals, wp_setGlobals, Globals.hhdmPhysToVirt]
  refine ⟨by simp, by simp, ?_⟩
  obtain ⟨entry, hentry, htype, -, hcontains⟩ :=
    h.exists_bitmap_entry hhdmOffset s.globals hstart
  have hlayout := h.pmmLayout hhdmOffset s.globals hstart
  have hphys := bitmapPhys_pmmInitGlobals memmap hhdmOffset s.globals
  refine wp_memset (by simp) ?_
  change Prog.Wp exec _ _
    (Machine.fill { s with globals := pmmInitGlobals memmap hhdmOffset s.globals }
      (pmmInitGlobals memmap hhdmOffset s.globals).bitmapStart
      (pmmInitGlobals memmap hhdmOffset s.globals).bitmapSize.toNat 0xFF#8) _
  generalize hg : pmmInitGlobals memmap hhdmOffset s.globals = g at hlayout hphys hcontains
  have hset : ∀ f, f < 8 * g.bitmapSize.toNat →
      (Machine.fill { s with globals := g } g.bitmapStart g.bitmapSize.toNat 0xFF#8).frameBit f
        = true :=
    fun f hf => @Machine.frameBit_fill { s with globals := g } f hf
  generalize hu : Machine.fill { s with globals := g } g.bitmapStart g.bitmapSize.toNat 0xFF#8
    = u at hset
  have hgu : u.globals = g := by rw [← hu]; rfl
  rw [← hgu] at hlayout hcontains hset
  refine (wp_freePass h hlayout (by rw [hgu, ← hg]; rfl)
    (by rintro t c - (_ | _ | _ | _) <;> simp)).post ?_
  rintro ⟨⟩ v ⟨honly, hbits⟩
  have hlayoutV : v.globals.PmmLayout := by rwa [honly.globals]
  have hsizeV : v.globals.bitmapSize
      = bitmapSizeFromFrames (pageCount (highestAddr memmap)) := by
    rw [honly.globals, hgu, ← hg]
    rfl
  have hquiet : ∀ (t : Machine) c, PmmOnly v t → PmmCommand v.globals c →
      ∀ string, c = .kpanic string →
        bitmapStartPhys memmap (bitmapSizeFromFrames (pageCount (highestAddr memmap))) = 0#64 := by
    rintro t c - (_ | _ | _ | _) <;> simp
  have hreserve := wp_reservePass hlayoutV hquiet
  rw [hsizeV, honly.globals, hgu, hphys] at hreserve
  refine hreserve.post ?_
  rintro ⟨⟩ t ⟨honly', hbits'⟩
  have hglobals : t.globals = u.globals := honly'.globals.trans honly.globals
  have hsizeLe : 8 * u.globals.bitmapSize.toNat ≤ 2 ^ 64 := by
    have hsize := hlayout.size_eq
    have htotal := hlayout.total_le
    omega
  simp only [wp_klogf]
  refine ⟨by simp, by simp, ?_, ?_, ?_, ?_⟩
  · rw [hglobals, hgu, hg]
  · rwa [hglobals]
  · rw [hglobals]
    exact ⟨entry, hentry, htype, hcontains⟩
  · intro f hf
    rw [hglobals] at hf ⊢
    rw [hbits' f (by omega), hbits f (by omega), hset f hf, hgu]
    simp

end Passes

theorem pmmInit_returns {memmap : List LimineMemmapEntry} (h : LimineMemmap memmap)
    (hhdmOffset : BitVec 64) (s : Machine)
    (hplace : bitmapStartPhys memmap (bitmapSizeFromFrames (pageCount (highestAddr memmap)))
      ≠ 0#64) :
    ∃ t, (pmmInit memmap hhdmOffset).run s = some ((), t)
      ∧ PmmInitialised memmap hhdmOffset s t := by
  obtain ⟨⟨⟩, t, hrun, ht⟩ := (wp_pmmInit h hhdmOffset s).returns fun mid c hc => by
    cases c with
    | kpanic string => exact absurd (hc string rfl) hplace
    | _ => simp [exec]
  exact ⟨t, hrun, ht⟩

/-- A frame's state, as the allocator itself reports it. -/
theorem pmmIsFrameFree_run {s : Machine} (hfits : s.globals.BitmapFits) {f : Nat}
    (hf : f < s.globals.totalFrames.toNat) :
    (pmmIsFrameFree (frameAddr f)).run s = some (!s.frameBit f, s) := by
  have hsmall : f < 2 ^ 52 := Nat.lt_trans hf hfits.total_lt
  have hreport : s.reportsFree (frameAddr f) = !s.frameBit f := by
    rw [Machine.reportsFree, frameOf_frameAddr hsmall,
      decide_eq_true ⟨isPageAligned_frameAddr hsmall, hf⟩, Bool.true_and]
  have hwp : Prog.Wp exec (fun t c => PmmCommand t.globals c) (pmmIsFrameFree (frameAddr f)) s
      fun value t => value = (!s.frameBit f) ∧ t = s :=
    wp_pmmIsFrameFree hfits (fun _ hc => hc) ⟨hreport, rfl⟩
  obtain ⟨value, t, hrun, rfl, rfl⟩ := hwp.returns fun mid c hc => by cases hc <;> simp [exec]
  exact hrun

/-- **The bitmap is exactly right.** On every memory map the boot loader may pass, if `pmm_init`
returns, the tracked frames are the fewest that cover the entries that count, the frames holding the
bitmap lie inside one usable entry, and the free frames are the usable ones without those. -/
theorem pmmInit_bitmap_exact {memmap : List LimineMemmapEntry} (h : LimineMemmap memmap)
    (hhdmOffset : BitVec 64) {s t : Machine}
    (hrun : (pmmInit memmap hhdmOffset).run s = some ((), t)) :
    IsLeast {n | ∀ entry ∈ memmap, ¬ entry.SkippedBySizePass →
        entry.base.toNat + entry.length.toNat ≤ n * 4096} t.globals.totalFrames.toNat
      ∧ (IsPageAligned t.globals.bitmapPhys
        ∧ ∃ entry ∈ memmap, entry.type = limineMemmapUsable
          ∧ ∀ k, k < (pageCount t.globals.bitmapSize).toNat →
              entry.ContainsFrame (frameOf t.globals.bitmapPhys + k))
      ∧ ∀ f, f < t.globals.totalFrames.toNat →
          ((pmmIsFrameFree (frameAddr f)).run t = some (true, t) ↔
            UsableFrame memmap f
              ∧ ¬ ∃ k, k < (pageCount t.globals.bitmapSize).toNat
                  ∧ f = frameOf t.globals.bitmapPhys + k) := by
  have hinit := (wp_pmmInit h hhdmOffset s).of_run hrun
  have hsize := hinit.layout.size_eq
  have htotal := hinit.layout.total_le
  have hpages : (pageCount t.globals.bitmapSize).toNat
      = (t.globals.bitmapSize.toNat + 4095) / 4096 := toNat_pageCount (by omega)
  refine ⟨?_, ⟨hinit.layout.aligned, ?_⟩, ?_⟩
  · rw [hinit.globals]
    exact h.totalFrames_isLeast
  · obtain ⟨entry, hentry, htype, hcontains⟩ := hinit.entry
    refine ⟨entry, hentry, htype, fun k hk => hcontains _ ⟨by omega, by omega⟩⟩
  · intro f hf
    have hbits := hinit.bits f (by omega)
    have hbitmap : t.globals.IsBitmapFrame f ↔
        ∃ k, k < (pageCount t.globals.bitmapSize).toNat
          ∧ f = frameOf t.globals.bitmapPhys + k := by
      rw [Globals.IsBitmapFrame, hpages]
      constructor
      · rintro ⟨hlo, hhi⟩
        exact ⟨f - frameOf t.globals.bitmapPhys, by omega, by omega⟩
      · rintro ⟨k, hk, rfl⟩
        omega
    rw [pmmIsFrameFree_run hinit.layout.fits hf, ← hbitmap]
    cases hbit : t.frameBit f with
    | true =>
        rw [hbit] at hbits
        have := hbits.mp rfl
        simp only [Bool.not_true, Option.some.injEq, Prod.mk.injEq, Bool.false_eq_true, false_and,
          false_iff]
        tauto
    | false =>
        rw [hbit] at hbits
        simp only [Bool.false_eq_true, false_iff] at hbits
        simp only [Bool.not_false]
        tauto

/-- A memory map with a hole: low usable memory, a reserved gap, a framebuffer. -/
def sampleMemmap : List LimineMemmapEntry :=
  [⟨0x1000#64, 0x9000#64, limineMemmapUsable⟩, ⟨0xA000#64, 0x6000#64, limineMemmapReserved⟩,
    ⟨0x10000#64, 0x2000#64, limineMemmapUsable⟩,
    ⟨0x80000000#64, 0x300000#64, limineMemmapFramebuffer⟩]

theorem sampleMemmap_ok : LimineMemmap sampleMemmap where
  end_le := by decide
  usable_aligned := by decide

def bareMachine : Machine where
  mem := fun _ => 0#8
  globals := ⟨0#64, 0#64, 0#64, 0#64, fun _ => 0#64⟩
  cr3 := 0#64
  nxe := false

theorem pmmInit_bitmap_exact_sampleMemmap :
    ∃ t, (pmmInit sampleMemmap 0xFFFF800000000000#64).run bareMachine = some ((), t)
      ∧ ((pmmIsFrameFree (frameAddr 2)).run t = some (true, t) ↔
        UsableFrame sampleMemmap 2
          ∧ ¬ ∃ k, k < (pageCount t.globals.bitmapSize).toNat
              ∧ 2 = frameOf t.globals.bitmapPhys + k) := by
  obtain ⟨t, hrun, hinit⟩ :=
    pmmInit_returns sampleMemmap_ok 0xFFFF800000000000#64 bareMachine (by decide)
  have hexact := pmmInit_bitmap_exact sampleMemmap_ok 0xFFFF800000000000#64 hrun
  refine ⟨t, hrun, hexact.2.2 2 ?_⟩
  rw [hinit.globals]
  decide

end RainstormOs
