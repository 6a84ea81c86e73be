import RainstormOs.Drivers.Framebuffer
import RainstormOs.Lib.WordArray

/-!
# The framebuffer as an array of pixels

A pixel is a column and a row of the visible area, and lies `pitch` bytes below the pixel above it:
that is its place. The driver divides the pitch by four first and indexes words, so the word it uses
for a pixel is its place only if the pitch is a multiple of four, or in row 0. Otherwise the rows
drift: the words of different pixels are still different, so what was plotted reads back, but they
are not all on the screen.

Every loop of the driver paints a rectangle, one pixel at a time. What painting does is said for any
family of words, one for each pixel.
-/

namespace RainstormOs

open ByteMemory

/-- An index into rows of one length gives the row and the column back. -/
theorem eq_of_mul_add_eq {length i i' j j' : Nat} (hj : j < length) (hj' : j' < length)
    (h : i * length + j = i' * length + j') : i = i' ∧ j = j' := by
  have hcol : j = j' := by
    have hmod := congrArg (· % length) h
    simpa only [Nat.mul_add_mod_self_right, Nat.mod_eq_of_lt hj, Nat.mod_eq_of_lt hj'] using hmod
  refine ⟨Nat.eq_of_mul_eq_mul_right (by omega : 0 < length) ?_, hcol⟩
  rw [hcol] at h
  exact Nat.add_right_cancel h

namespace Framebuffer

/-- A row holds its pixels, and the rows fit the address space. -/
structure Fits (fb : Framebuffer) : Prop where
  row : 4 * fb.width.toNat ≤ fb.pitch.toNat
  area : fb.height.toNat * fb.pitch.toNat < 2 ^ 64

/-- Slots from one row to the next. -/
def stride (fb : Framebuffer) : Nat := fb.pitch.toNat / 4

/-- A visible pixel: its column and its row. -/
abbrev Pixel (fb : Framebuffer) := Fin fb.width.toNat × Fin fb.height.toNat

def slotOf (fb : Framebuffer) (p : fb.Pixel) : Nat := p.2 * fb.stride + p.1

/-- The word the driver uses for a pixel. -/
def addrOf (fb : Framebuffer) (p : fb.Pixel) : BitVec 64 := slotAddr fb.address 4 (fb.slotOf p)

/-- Bytes from the first pixel to this one. -/
def offsetOf (fb : Framebuffer) (p : fb.Pixel) : Nat := p.2 * fb.pitch.toNat + 4 * p.1

/-- Where the pixel is on the screen. -/
def place (fb : Framebuffer) (p : fb.Pixel) : BitVec 64 :=
  fb.address + BitVec.ofNat 64 (fb.offsetOf p)

/-- No row that is there drifts. -/
def RowsOnPitch (fb : Framebuffer) : Prop :=
  fb.pitch.toNat % 4 = 0 ∨ fb.height.toNat ≤ 1 ∨ fb.width.toNat = 0

variable {fb : Framebuffer}

theorem pixelPtr_ofNat (fb : Framebuffer) (k : Nat) :
    fb.pixelPtr (BitVec.ofNat 64 k) = slotAddr fb.address 4 k := by
  rw [pixelPtr, slotAddr, BitVec.ofNat_mul]

/-- The index as the C code forms it, in 64 bits. -/
theorem ofNat_slot (fb : Framebuffer) (x y : Nat) :
    BitVec.ofNat 64 y * (fb.pitch / 4#64) + BitVec.ofNat 64 x
      = BitVec.ofNat 64 (y * fb.stride + x) := by
  have hstride : fb.pitch / 4#64 = BitVec.ofNat 64 fb.stride := by
    have hlt : fb.stride < 2 ^ 64 := (Nat.div_le_self _ _).trans_lt fb.pitch.isLt
    apply BitVec.eq_of_toNat_eq
    rw [BitVec.toNat_udiv, BitVec.toNat_ofNat, BitVec.toNat_ofNat, Nat.mod_eq_of_lt hlt]
    rfl
  rw [hstride, BitVec.ofNat_add, BitVec.ofNat_mul]

theorem Fits.width_le_stride (h : fb.Fits) : fb.width.toNat ≤ fb.stride := by
  have := h.row
  rw [stride]
  omega

theorem Fits.area_stride (h : fb.Fits) : fb.height.toNat * fb.stride * 4 < 2 ^ 64 := by
  have hpitch : fb.stride * 4 ≤ fb.pitch.toNat := Nat.div_mul_le_self _ 4
  calc fb.height.toNat * fb.stride * 4
      = fb.height.toNat * (fb.stride * 4) := Nat.mul_assoc _ _ _
    _ ≤ fb.height.toNat * fb.pitch.toNat := Nat.mul_le_mul_left _ hpitch
    _ < 2 ^ 64 := h.area

/-- The rows below `height` end before slot `height * stride`. -/
theorem Fits.slotOf_lt (h : fb.Fits) (p : fb.Pixel) :
    fb.slotOf p < fb.height.toNat * fb.stride := by
  have hcol : p.1.val < fb.stride := p.1.isLt.trans_le h.width_le_stride
  calc fb.slotOf p = p.2 * fb.stride + p.1 := rfl
    _ < p.2 * fb.stride + fb.stride := Nat.add_lt_add_left hcol _
    _ = (p.2 + 1) * fb.stride := (Nat.succ_mul _ _).symm
    _ ≤ fb.height.toNat * fb.stride := Nat.mul_le_mul_right _ p.2.isLt

theorem Fits.slotOf_bound (h : fb.Fits) (p : fb.Pixel) : fb.slotOf p * 4 + 4 ≤ 2 ^ 64 := by
  have := h.slotOf_lt p
  have := h.area_stride
  omega

theorem Fits.slotOf_injective (h : fb.Fits) : Function.Injective fb.slotOf := by
  intro p q hpq
  have hp : p.1.val < fb.stride := p.1.isLt.trans_le h.width_le_stride
  have hq : q.1.val < fb.stride := q.1.isLt.trans_le h.width_le_stride
  obtain ⟨hrow, hcol⟩ := eq_of_mul_add_eq hp hq hpq
  exact Prod.ext (Fin.ext hcol) (Fin.ext hrow)

theorem Fits.separate (h : fb.Fits) : Separate 4 fb.addrOf :=
  separate_slotAddr fb.address h.slotOf_injective h.slotOf_bound

/-! ### Places -/

theorem Fits.offsetOf_bound (h : fb.Fits) (p : fb.Pixel) :
    fb.offsetOf p + 4 ≤ (p.2 + 1) * fb.pitch.toNat ∧ fb.offsetOf p + 4 < 2 ^ 64 := by
  have hrow : (p.2 + 1) * fb.pitch.toNat ≤ fb.height.toNat * fb.pitch.toNat :=
    Nat.mul_le_mul_right _ p.2.isLt
  have hcol := p.1.isLt
  have hpitch := h.row
  have harea := h.area
  rw [Nat.succ_mul] at hrow ⊢
  rw [offsetOf]
  omega

theorem Fits.separate_place (h : fb.Fits) : Separate 4 fb.place := by
  intro p q hpq i hi
  have hp := h.offsetOf_bound p
  have hq := h.offsetOf_bound q
  apply offset_separate fb.address hp.2.le hq.2.le ?_ hi
  rcases Nat.lt_trichotomy p.2.val q.2.val with hlt | heq | hgt
  · have hrows : (p.2.val + 1) * fb.pitch.toNat ≤ q.2.val * fb.pitch.toNat :=
      Nat.mul_le_mul_right _ hlt
    have hoffset : fb.offsetOf q = q.2 * fb.pitch.toNat + 4 * q.1 := rfl
    omega
  · have hcol : p.1.val ≠ q.1.val := fun hcol => hpq (Prod.ext (Fin.ext hcol) (Fin.ext heq))
    rw [offsetOf, offsetOf, heq]
    omega
  · have hrows : (q.2.val + 1) * fb.pitch.toNat ≤ p.2.val * fb.pitch.toNat :=
      Nat.mul_le_mul_right _ hgt
    have hoffset : fb.offsetOf p = p.2 * fb.pitch.toNat + 4 * p.1 := rfl
    omega

/-- The drift of a row: its number times what the division of the pitch cuts off. -/
theorem offsetOf_eq (fb : Framebuffer) (p : fb.Pixel) :
    fb.offsetOf p = fb.slotOf p * 4 + p.2 * (fb.pitch.toNat % 4) := by
  have hpitch := congrArg (p.2.val * ·) (Nat.div_add_mod fb.pitch.toNat 4)
  simp only [Nat.mul_add] at hpitch
  rw [offsetOf, slotOf, stride, ← hpitch, Nat.add_mul, Nat.mul_assoc, Nat.mul_comm 4]
  omega

theorem addrOf_eq_place {p : fb.Pixel} (hdrift : p.2 * (fb.pitch.toNat % 4) = 0) :
    fb.addrOf p = fb.place p := by
  rw [addrOf, slotAddr, place, offsetOf_eq, hdrift, Nat.add_zero]

theorem RowsOnPitch.addrOf_eq (h : fb.RowsOnPitch) : fb.addrOf = fb.place := by
  funext p
  apply addrOf_eq_place
  have hcol := p.1.isLt
  have hrow := p.2.isLt
  obtain hpitch | hheight | hwidth := h
  · rw [hpitch, Nat.mul_zero]
  · have hzero : p.2.val = 0 := by omega
    rw [hzero, Nat.zero_mul]
  · omega

/-- An address counted from the first pixel is a place only if the count is the pixel's. -/
theorem Fits.offset_eq_of_place (h : fb.Fits) {p : fb.Pixel} {k : Nat}
    (hplace : fb.address + BitVec.ofNat 64 k = fb.place p) : k % 2 ^ 64 = fb.offsetOf p := by
  have hbound := (h.offsetOf_bound p).2
  have hoffset := congrArg BitVec.toNat ((BitVec.add_right_inj fb.address).mp hplace)
  rw [BitVec.toNat_ofNat, BitVec.toNat_ofNat] at hoffset
  omega

theorem Fits.place_injective (h : fb.Fits) : Function.Injective fb.place := by
  intro p q hpq
  by_contra hne
  have hfar := h.separate_place p q hne 0 (by decide)
  rw [hpq, BitVec.add_zero, BitVec.sub_self] at hfar
  exact absurd hfar (by decide)

theorem Fits.drift_eq_zero (h : fb.Fits) {p : fb.Pixel} (hplace : fb.addrOf p = fb.place p) :
    p.2 * (fb.pitch.toNat % 4) = 0 := by
  have hoffset := h.offset_eq_of_place hplace
  have hbound := h.slotOf_bound p
  rw [offsetOf_eq] at hoffset
  omega

end Framebuffer

/-! ### Commands -/

/-- A store is to one of the words. -/
def FbCmd.StoresTo {ι : Type} (wordOf : ι → BitVec 64) : FbCmd → Prop
  | .store32 addr _ => ∃ p, addr = wordOf p
  | _ => True

section Rules

variable {guar : FbState → FbCmd → Prop} {s : FbState}

@[simp]
theorem wp_load32 {addr : BitVec 64} {post : BitVec 32 → FbState → Prop} :
    Prog.Wp fbExec guar (load32 addr) s post ↔
      guar s (.load32 addr) ∧ post (s.mem.readWord addr 4) s :=
  Prog.wp_issue rfl

@[simp]
theorem wp_store32 {addr : BitVec 64} {word : BitVec 32} {post : Unit → FbState → Prop} :
    Prog.Wp fbExec guar (store32 addr word) s post ↔
      guar s (.store32 addr word) ∧ post () { s with mem := s.mem.writeWord addr 4 word } :=
  Prog.wp_issue rfl

@[simp]
theorem wp_loadPixel {pixels : BitVec 64} {index : Nat} {post : BitVec 32 → FbState → Prop} :
    Prog.Wp fbExec guar (loadPixel pixels index) s post ↔
      guar s (.pixel pixels index) ∧ post (s.mem.readWord (slotAddr pixels 4 index) 4) s :=
  Prog.wp_issue rfl

@[simp]
theorem wp_getFramebuffer {post : Framebuffer → FbState → Prop} :
    Prog.Wp fbExec guar getFramebuffer s post ↔ guar s .framebuffer ∧ post s.framebuffer s :=
  Prog.wp_issue rfl

@[simp]
theorem wp_setFramebuffer {fb : Framebuffer} {post : Unit → FbState → Prop} :
    Prog.Wp fbExec guar (setFramebuffer fb) s post ↔
      guar s (.setFramebuffer fb) ∧ post () { s with framebuffer := fb } :=
  Prog.wp_issue rfl

end Rules

/-- The driver's variable is `fb`, and over `mem` the words given by `paint` are painted. -/
structure FbState.Shows (fb : Framebuffer) (wordOf : fb.Pixel → BitVec 64)
    (paint : fb.Pixel → Option (BitVec 32)) (mem : ByteMemory 64) (t : FbState) : Prop where
  framebuffer : t.framebuffer = fb
  painted : Painted (n := 4) wordOf paint mem t.mem

section Paint

variable {fb : Framebuffer} {wordOf : fb.Pixel → BitVec 64} {guar : FbState → FbCmd → Prop}
  {s : FbState}

theorem wp_store32_pixel (hsep : Separate 4 wordOf) (hs : s.framebuffer = fb) {x y : Nat}
    (hx : x < fb.width.toNat) (hy : y < fb.height.toNat) {addr : BitVec 64}
    (haddr : addr = wordOf (⟨x, hx⟩, ⟨y, hy⟩)) {word : BitVec 32}
    (hguar : ∀ mid p, guar mid (.store32 (wordOf p) word)) :
    Prog.Wp fbExec guar (store32 addr word) s fun _ t =>
      t.Shows fb wordOf (fun p => if p.1.val = x ∧ p.2.val = y then some word else none) s.mem := by
  rw [haddr, wp_store32]
  refine ⟨hguar _ _, hs, ?_⟩
  apply (Painted.writeWord hsep (by decide) s.mem (⟨x, hx⟩, ⟨y, hy⟩) word).congr
  intro p
  simp only [Prod.ext_iff, Fin.ext_iff]

/-- A loop over the columns of one row. -/
theorem wp_paintRow {body : Nat → FbProg Unit} {x₀ y cols : Nat}
    {colour : Nat → Option (BitVec 32)}
    (hbody : ∀ col mid, col < cols → (∃ paint, mid.Shows fb wordOf paint s.mem) →
      Prog.Wp fbExec guar (body col) mid fun _ t =>
        t.Shows fb wordOf
          (fun p => if p.1.val = x₀ + col ∧ p.2.val = y then colour col else none) mid.mem)
    (hs : s.framebuffer = fb) :
    Prog.Wp fbExec guar (Prog.forAcc (fun col _ => body col) cols 0 ()) s fun _ t =>
      t.Shows fb wordOf
        (fun p => if (x₀ ≤ p.1.val ∧ p.1.val < x₀ + cols) ∧ p.2.val = y
          then colour (p.1.val - x₀) else none)
        s.mem := by
  apply Prog.wp_forAcc fun col _ t => t.Shows fb wordOf
    (fun p => if (x₀ ≤ p.1.val ∧ p.1.val < x₀ + col) ∧ p.2.val = y
      then colour (p.1.val - x₀) else none) s.mem
  · refine ⟨hs, (Painted.refl s.mem).congr fun p => ?_⟩
    rw [if_neg (by omega)]
  · intro col _ mid _ hcol hmid
    apply (hbody col mid (by omega) ⟨_, hmid⟩).post
    intro _ t ht
    refine ⟨ht.framebuffer, (hmid.painted.trans ht.painted).congr fun p => ?_⟩
    by_cases hp : p.1.val = x₀ + col ∧ p.2.val = y
    · have hcol' : p.1.val - x₀ = col := by omega
      rw [if_pos hp, if_neg (by omega), if_pos (by omega), hcol', Option.or_none]
    · rw [if_neg hp, Option.none_or]
      exact if_congr (by omega) rfl rfl
  · intro _ t ht
    rwa [Nat.zero_add] at ht

/-- A loop over rows and columns, each turn of which paints at most its own pixel, paints a
rectangle. At every turn nothing but words of pixels has been painted. -/
theorem wp_paintRect {body : Nat → Nat → FbProg Unit} {rows cols : Nat} (x₀ y₀ : Nat)
    (colour : Nat → Nat → Option (BitVec 32))
    (hbody : ∀ row col mid, row < rows → col < cols → (∃ paint, mid.Shows fb wordOf paint s.mem) →
      Prog.Wp fbExec guar (body row col) mid fun _ t =>
        t.Shows fb wordOf
          (fun p => if p.1.val = x₀ + col ∧ p.2.val = y₀ + row then colour row col else none)
          mid.mem)
    (hs : s.framebuffer = fb) :
    Prog.Wp fbExec guar
      (Prog.forAcc (fun row _ => Prog.forAcc (fun col _ => body row col) cols 0 ()) rows 0 ()) s
      fun _ t => t.Shows fb wordOf
        (fun p => if (x₀ ≤ p.1.val ∧ p.1.val < x₀ + cols) ∧ (y₀ ≤ p.2.val ∧ p.2.val < y₀ + rows)
          then colour (p.2.val - y₀) (p.1.val - x₀) else none)
        s.mem := by
  apply Prog.wp_forAcc fun row _ t => t.Shows fb wordOf
    (fun p => if (x₀ ≤ p.1.val ∧ p.1.val < x₀ + cols) ∧ (y₀ ≤ p.2.val ∧ p.2.val < y₀ + row)
      then colour (p.2.val - y₀) (p.1.val - x₀) else none) s.mem
  · refine ⟨hs, (Painted.refl s.mem).congr fun p => ?_⟩
    rw [if_neg (by omega)]
  · intro row _ mid _ hrow hmid
    have hrowBody : ∀ col mid', col < cols → (∃ paint, mid'.Shows fb wordOf paint mid.mem) →
        Prog.Wp fbExec guar (body row col) mid' fun _ t => t.Shows fb wordOf
          (fun p => if p.1.val = x₀ + col ∧ p.2.val = y₀ + row then colour row col else none)
          mid'.mem := by
      rintro col mid' hcol ⟨paint, hmid'⟩
      exact hbody row col mid' (by omega) hcol
        ⟨_, hmid'.framebuffer, hmid.painted.trans hmid'.painted⟩
    apply (wp_paintRow hrowBody hmid.framebuffer).post
    intro _ t ht
    refine ⟨ht.framebuffer, (hmid.painted.trans ht.painted).congr fun p => ?_⟩
    by_cases hp : p.2.val = y₀ + row
    · have hrow' : p.2.val - y₀ = row := by omega
      rw [hrow', if_neg (by omega : ¬ ((x₀ ≤ p.1.val ∧ p.1.val < x₀ + cols)
        ∧ (y₀ ≤ p.2.val ∧ p.2.val < y₀ + row))), Option.or_none]
      exact if_congr (by omega) rfl rfl
    · rw [if_neg (by omega), Option.none_or]
      exact if_congr (by omega) rfl rfl
  · intro _ t ht
    rwa [Nat.zero_add] at ht

end Paint

/-! ### Colours -/

theorem getLsbD_byteMask (i : Nat) : BitVec.getLsbD 0xFF#32 i = decide (i < 8) := by
  have hmask : 0xFF#32 = (BitVec.allOnes 8).setWidth 32 := rfl
  rw [hmask, BitVec.getLsbD_setWidth, BitVec.getLsbD_allOnes]
  by_cases hi : i < 8
  · have hi' : i < 32 := by omega
    simp [hi, hi']
  · simp [hi]

namespace FbColor

theorem getLsbD_channel (value : BitVec 8) (i : Nat) :
    (value.setWidth 32 &&& 0xFF#32).getLsbD i = value.getLsbD i := by
  rw [BitVec.getLsbD_and, BitVec.getLsbD_setWidth, getLsbD_byteMask]
  by_cases hi : i < 8
  · have hi' : i < 32 := by omega
    simp [hi, hi']
  · simp [hi, BitVec.getLsbD_of_ge value i (by omega)]

theorem getLsbD_toWord (color : FbColor) {i : Nat} (hi : i < 32) :
    color.toWord.getLsbD i
      = if i < 8 then color.blue.getLsbD i
        else if i < 16 then color.green.getLsbD (i - 8)
        else color.red.getLsbD (i - 16) := by
  rw [toWord, BitVec.getLsbD_or, BitVec.getLsbD_or, BitVec.getLsbD_shiftLeft,
    BitVec.getLsbD_shiftLeft, getLsbD_channel, getLsbD_channel, getLsbD_channel]
  have hblue := BitVec.getLsbD_of_ge color.blue i
  have hgreen := BitVec.getLsbD_of_ge color.green (i - 8)
  grind

theorem getLsbD_setWidth_and_byteMask (word : BitVec 32) {i : Nat} (hi : i < 8) :
    ((word &&& 0xFF#32).setWidth 8).getLsbD i = word.getLsbD i := by
  rw [BitVec.getLsbD_setWidth, BitVec.getLsbD_and, getLsbD_byteMask]
  simp [hi]

@[simp]
theorem ofWord_toWord (color : FbColor) : ofWord color.toWord = color := by
  apply FbColor.ext
  · apply BitVec.eq_of_getLsbD_eq
    intro i hi
    rw [ofWord, getLsbD_setWidth_and_byteMask _ hi, BitVec.getLsbD_ushiftRight,
      getLsbD_toWord color (by omega), if_neg (by omega), if_neg (by omega),
      Nat.add_sub_cancel_left]
  · apply BitVec.eq_of_getLsbD_eq
    intro i hi
    rw [ofWord, getLsbD_setWidth_and_byteMask _ hi, BitVec.getLsbD_ushiftRight,
      getLsbD_toWord color (by omega), if_neg (by omega), if_pos (by omega),
      Nat.add_sub_cancel_left]
  · apply BitVec.eq_of_getLsbD_eq
    intro i hi
    rw [ofWord, getLsbD_setWidth_and_byteMask _ hi, getLsbD_toWord color (by omega), if_pos hi]

end FbColor

/-! ### Clearing, plotting and reading -/

section Driver

variable {fb : Framebuffer} {s : FbState}

/-- A 32-bit coordinate against a 64-bit limit. -/
theorem setWidth_ge_iff {x : BitVec 32} {limit : BitVec 64} :
    x.setWidth 64 ≥ limit ↔ limit.toNat ≤ x.toNat := by
  rw [ge_iff_le, BitVec.le_def, BitVec.toNat_setWidth, Nat.mod_eq_of_lt (by omega)]

theorem setWidth_slot (fb : Framebuffer) (x y : BitVec 32) :
    y.setWidth 64 * (fb.pitch / 4#64) + x.setWidth 64
      = BitVec.ofNat 64 (y.toNat * fb.stride + x.toNat) := by
  rw [← BitVec.ofNat_toNat, ← BitVec.ofNat_toNat]
  exact fb.ofNat_slot x.toNat y.toNat

theorem wp_fbClearScreen (hfits : fb.Fits) (hready : fb.isReady) (hs : s.framebuffer = fb)
    (color : FbColor) :
    Prog.Wp fbExec (fun _ c => c.StoresTo fb.addrOf) (fbClearScreen color) s fun _ t =>
      t.Shows fb fb.addrOf (fun _ => some color.toWord) s.mem := by
  rw [fbClearScreen, Prog.wp_bind, wp_getFramebuffer, hs]
  refine ⟨trivial, ?_⟩
  rw [if_neg (not_not_intro hready)]
  apply (wp_paintRect 0 0 (fun _ _ => some color.toWord) ?_ hs).post
  · intro _ t ht
    refine ⟨ht.framebuffer, ht.painted.congr fun p => ?_⟩
    have hcol := p.1.isLt
    have hrow := p.2.isLt
    rw [if_pos (by omega)]
  · rintro row col mid hrow hcol ⟨_, hmid⟩
    rw [Nat.zero_add, Nat.zero_add, fb.ofNat_slot]
    exact wp_store32_pixel hfits.separate hmid.framebuffer hcol hrow (fb.pixelPtr_ofNat _)
      fun _ p => ⟨p, rfl⟩

theorem wp_fbPlotPixel (hfits : fb.Fits) (hready : fb.isReady) (hs : s.framebuffer = fb)
    (x y : BitVec 32) (color : FbColor) :
    Prog.Wp fbExec (fun _ c => c.StoresTo fb.addrOf) (fbPlotPixel x y color) s fun _ t =>
      t.Shows fb fb.addrOf
        (fun p => if p.1.val = x.toNat ∧ p.2.val = y.toNat then some color.toWord else none)
        s.mem := by
  have hnothing : (∀ p : fb.Pixel, ¬ (p.1.val = x.toNat ∧ p.2.val = y.toNat)) →
      s.Shows fb fb.addrOf
        (fun p => if p.1.val = x.toNat ∧ p.2.val = y.toNat then some color.toWord else none)
        s.mem := by
    intro hnone
    refine ⟨hs, (Painted.refl s.mem).congr fun p => ?_⟩
    rw [if_neg (hnone p)]
  rw [fbPlotPixel, Prog.wp_bind, wp_getFramebuffer, hs]
  refine ⟨trivial, ?_⟩
  rw [if_neg (not_not_intro hready)]
  simp only [setWidth_ge_iff]
  split
  · next hx => exact hnothing fun p hp => absurd p.1.isLt (by omega)
  · next hx =>
      split
      · next hy => exact hnothing fun p hp => absurd p.2.isLt (by omega)
      · next hy =>
          rw [setWidth_slot]
          exact wp_store32_pixel hfits.separate hs (Nat.lt_of_not_le hx) (Nat.lt_of_not_le hy)
            (fb.pixelPtr_ofNat _) fun _ p => ⟨p, rfl⟩

theorem run_getFramebuffer_bind {α : Type} (next : Framebuffer → FbProg α) :
    Prog.run fbExec (getFramebuffer >>= next) s = Prog.run fbExec (next s.framebuffer) s := rfl

theorem run_fbPlotPixel_of_le (x y : BitVec 32) (color : FbColor)
    (hout : s.framebuffer.width.toNat ≤ x.toNat ∨ s.framebuffer.height.toNat ≤ y.toNat) :
    Prog.run fbExec (fbPlotPixel x y color) s = some ((), s) := by
  rw [fbPlotPixel, run_getFramebuffer_bind]
  simp only [setWidth_ge_iff]
  split
  · rfl
  · split
    · rfl
    · next hx =>
        rw [if_pos (hout.resolve_left hx)]
        rfl

theorem run_fbGetPixel (hready : s.framebuffer.isReady) (x y : BitVec 32) :
    Prog.run fbExec (fbGetPixel x y) s = some
      (if x.toNat < s.framebuffer.width.toNat ∧ y.toNat < s.framebuffer.height.toNat then
        FbColor.ofWord (s.mem.readWord
          (slotAddr s.framebuffer.address 4 (y.toNat * s.framebuffer.stride + x.toNat)) 4)
      else ⟨0#8, 0#8, 0#8⟩, s) := by
  rw [fbGetPixel, run_getFramebuffer_bind, if_neg (not_not_intro hready)]
  simp only [setWidth_ge_iff]
  by_cases hin : x.toNat < s.framebuffer.width.toNat ∧ y.toNat < s.framebuffer.height.toNat
  · rw [if_neg (by omega), if_neg (by omega), if_pos hin, setWidth_slot,
      Framebuffer.pixelPtr_ofNat]
    rfl
  · rw [if_neg hin]
    split
    · rfl
    · rw [if_pos (by omega)]
      rfl

end Driver

/-! ### Sequences of calls -/

inductive FbCall where
  | plot (x y : BitVec 32) (color : FbColor)
  | clear (color : FbColor)

namespace FbCall

def prog : FbCall → FbProg Unit
  | plot x y color => fbPlotPixel x y color
  | clear color => fbClearScreen color

/-- The colour a call gives a pixel; none if it does not cover it. -/
def colorAt (x y : Nat) : FbCall → Option FbColor
  | plot x' y' color => if x = x'.toNat ∧ y = y'.toNat then some color else none
  | clear color => some color

/-- The colour of the last call that covers a pixel. -/
def lastColor (calls : List FbCall) (x y : Nat) : Option FbColor :=
  calls.reverse.findSome? (colorAt x y)

theorem lastColor_append (calls : List FbCall) (call : FbCall) (x y : Nat) :
    lastColor (calls ++ [call]) x y = (call.colorAt x y).or (lastColor calls x y) := by
  rw [lastColor, List.reverse_append, List.reverse_singleton, List.singleton_append,
    List.findSome?_cons]
  cases call.colorAt x y <;> rfl

theorem wp_prog {fb : Framebuffer} {s : FbState} (hfits : fb.Fits) (hready : fb.isReady)
    (hs : s.framebuffer = fb) (call : FbCall) :
    Prog.Wp fbExec (fun _ c => c.StoresTo fb.addrOf) call.prog s fun _ t =>
      t.Shows fb fb.addrOf (fun p => (call.colorAt p.1.val p.2.val).map FbColor.toWord) s.mem := by
  cases call with
  | clear color => exact wp_fbClearScreen hfits hready hs color
  | plot x y color =>
      apply (wp_fbPlotPixel hfits hready hs x y color).post
      intro _ t ht
      refine ⟨ht.framebuffer, ht.painted.congr fun p => ?_⟩
      rw [colorAt, apply_ite (Option.map FbColor.toWord)]
      rfl

end FbCall

def fbSession (fb : Framebuffer) (calls : List FbCall) : FbProg Unit := do
  fbInit fb
  Prog.forList FbCall.prog calls

/-- A sequence of calls paints every pixel with the last colour that covers it. -/
theorem wp_fbSession {fb : Framebuffer} (hfits : fb.Fits) (calls : List FbCall) (s : FbState) :
    Prog.Wp fbExec (fun _ c => c.StoresTo fb.addrOf) (fbSession fb calls) s fun _ t =>
      t.Shows { fb with isReady := true } fb.addrOf
        (fun p => (FbCall.lastColor calls p.1.val p.2.val).map FbColor.toWord) s.mem := by
  rw [fbSession, Prog.wp_bind, fbInit, wp_setFramebuffer]
  refine ⟨trivial, ?_⟩
  have hfits' : ({ fb with isReady := true } : Framebuffer).Fits := ⟨hfits.row, hfits.area⟩
  apply Prog.wp_forList fun done t => t.Shows { fb with isReady := true } fb.addrOf
    (fun p => (FbCall.lastColor done p.1.val p.2.val).map FbColor.toWord) s.mem
  · exact ⟨rfl, Painted.refl s.mem⟩
  · intro done call rest mid _ hmid
    apply (FbCall.wp_prog hfits' rfl hmid.framebuffer call).post
    intro _ t ht
    refine ⟨ht.framebuffer, (hmid.painted.trans ht.painted).congr fun p => ?_⟩
    rw [FbCall.lastColor_append]
    cases call.colorAt p.1.val p.2.val <;> rfl
  · exact fun _ ht => ht

theorem fbExec_ne_none (mid : FbState) (command : FbCmd) : fbExec command mid ≠ none := by
  cases command <;> exact Option.some_ne_none _

/-! ### Where the driver stores

Whatever the pitch, the stores of a session go to the words of pixels, and a clear stores to all of
them. That the words are different ones is not needed for it. -/

section Stores

variable {fb : Framebuffer} {s : FbState}

theorem wp_fbClearScreen_stores (hs : s.framebuffer = fb) (color : FbColor) :
    Prog.Wp fbExec (fun _ c => c.StoresTo fb.addrOf) (fbClearScreen color) s fun _ t =>
      t.framebuffer = fb := by
  rw [fbClearScreen, Prog.wp_bind, wp_getFramebuffer, hs]
  refine ⟨trivial, ?_⟩
  split
  · exact hs
  · apply Prog.wp_forAcc (fun _ _ t => t.framebuffer = fb) hs
    · intro y _ mid _ hy hmid
      apply Prog.wp_forAcc (fun _ _ t => t.framebuffer = fb) hmid
      · intro x _ mid' _ hx hmid'
        rw [Nat.zero_add] at hx hy
        rw [fb.ofNat_slot, fb.pixelPtr_ofNat, wp_store32]
        exact ⟨⟨(⟨x, hx⟩, ⟨y, hy⟩), rfl⟩, hmid'⟩
      · exact fun _ _ ht => ht
    · exact fun _ _ ht => ht

theorem wp_fbPlotPixel_stores (hs : s.framebuffer = fb) (x y : BitVec 32) (color : FbColor) :
    Prog.Wp fbExec (fun _ c => c.StoresTo fb.addrOf) (fbPlotPixel x y color) s fun _ t =>
      t.framebuffer = fb := by
  rw [fbPlotPixel, Prog.wp_bind, wp_getFramebuffer, hs]
  refine ⟨trivial, ?_⟩
  simp only [setWidth_ge_iff]
  split
  · exact hs
  · split
    · exact hs
    · next hx =>
        split
        · exact hs
        · next hy =>
            rw [setWidth_slot, fb.pixelPtr_ofNat, wp_store32]
            exact ⟨⟨(⟨x.toNat, by omega⟩, ⟨y.toNat, by omega⟩), rfl⟩, hs⟩

theorem wp_calls_stores (hs : s.framebuffer = fb) (calls : List FbCall) :
    Prog.Wp fbExec (fun _ c => c.StoresTo fb.addrOf) (Prog.forList FbCall.prog calls) s fun _ t =>
      t.framebuffer = fb := by
  apply Prog.wp_forList (fun _ t => t.framebuffer = fb) hs
  · intro _ call _ mid _ hmid
    cases call with
    | clear color => exact wp_fbClearScreen_stores hmid color
    | plot x y color => exact wp_fbPlotPixel_stores hmid x y color
  · exact fun _ ht => ht

theorem exists_visits_fbClearScreen (hready : s.framebuffer.isReady) (p : s.framebuffer.Pixel)
    (color : FbColor) :
    ∃ mid, Prog.Visits fbExec (fbClearScreen color) s mid
      (.store32 (s.framebuffer.addrOf p) color.toWord) := by
  have hloops : ∃ mid, Prog.Visits fbExec
      (Prog.forAcc
        (fun y _ => Prog.forAcc
          (fun x _ => store32
            (s.framebuffer.pixelPtr
              (BitVec.ofNat 64 y * (s.framebuffer.pitch / 4#64) + BitVec.ofNat 64 x))
            color.toWord)
          s.framebuffer.width.toNat 0 ())
        s.framebuffer.height.toNat 0 ()) s mid
      (.store32 (s.framebuffer.addrOf p) color.toWord) := by
    apply Prog.exists_visits_forAcc (fun _ _ state => Prog.run_ne_none fbExec_ne_none _ state)
      (Nat.zero_le p.2.val) (by omega)
    intro _ state
    apply Prog.exists_visits_forAcc (fun _ _ state => Prog.run_ne_none fbExec_ne_none _ state)
      (Nat.zero_le p.1.val) (by omega)
    intro _ state
    rw [Framebuffer.ofNat_slot, Framebuffer.pixelPtr_ofNat]
    exact ⟨state, Or.inl ⟨rfl, rfl⟩⟩
  obtain ⟨mid, hmid⟩ := hloops
  refine ⟨mid, ?_⟩
  rw [fbClearScreen, Prog.visits_bind]
  refine Or.inr ⟨s.framebuffer, s, rfl, ?_⟩
  rw [if_neg (not_not_intro hready)]
  exact hmid

end Stores

/-- Different pixels' words have no byte in common. -/
def Framebuffer.DistinctWords (fb : Framebuffer) : Prop :=
  ∀ p q : fb.Pixel, p ≠ q → ∀ i j, i < 4 → j < 4 →
    fb.addrOf p + BitVec.ofNat 64 i ≠ fb.addrOf q + BitVec.ofNat 64 j

theorem Framebuffer.Fits.distinctWords {fb : Framebuffer} (h : fb.Fits) : fb.DistinctWords := by
  intro p q hpq i j hi hj heq
  have hfar := h.separate p q hpq j hj
  rw [← heq, BitVec.add_comm, BitVec.add_sub_cancel, BitVec.toNat_ofNat] at hfar
  have := Nat.mod_le i (2 ^ 64)
  omega

/-- What a session shows on the words of the pixels: from `s` the calls lead to `t`. -/
structure RefinesPixels (fb : Framebuffer) (wordOf : fb.Pixel → BitVec 64) (calls : List FbCall)
    (s t : FbState) : Prop where
  getPixel : ∀ (x y : BitVec 32) (hx : x.toNat < fb.width.toNat) (hy : y.toNat < fb.height.toNat),
    Prog.run fbExec (fbGetPixel x y) t = some
      ((FbCall.lastColor calls x.toNat y.toNat).getD (FbColor.ofWord
        (s.mem.readWord (wordOf (⟨x.toNat, hx⟩, ⟨y.toNat, hy⟩)) 4)), t)
  getOut : ∀ x y : BitVec 32, fb.width.toNat ≤ x.toNat ∨ fb.height.toNat ≤ y.toNat →
    Prog.run fbExec (fbGetPixel x y) t = some (⟨0#8, 0#8, 0#8⟩, t)
  plotOut : ∀ (x y : BitVec 32) (color : FbColor),
    fb.width.toNat ≤ x.toNat ∨ fb.height.toNat ≤ y.toNat →
      Prog.run fbExec (fbPlotPixel x y color) t = some ((), t)
  outside : ∀ addr, Outside 4 wordOf addr → t.mem addr = s.mem addr

theorem FbState.Shows.refinesPixels {fb : Framebuffer} {calls : List FbCall} {s t : FbState}
    (h : t.Shows { fb with isReady := true } fb.addrOf
      (fun p => (FbCall.lastColor calls p.1.val p.2.val).map FbColor.toWord) s.mem) :
    RefinesPixels fb fb.addrOf calls s t := by
  have hready : t.framebuffer.isReady := by rw [h.framebuffer]
  refine ⟨fun x y hx hy => ?_, fun x y hout => ?_, fun x y color hout => ?_, h.painted.outside⟩
  · rw [run_fbGetPixel hready x y, h.framebuffer]
    refine congrArg (fun color => some (color, t)) ?_
    change (if x.toNat < fb.width.toNat ∧ y.toNat < fb.height.toNat then _ else _) = _
    rw [if_pos ⟨hx, hy⟩]
    apply (congrArg FbColor.ofWord (h.painted.word (⟨x.toNat, hx⟩, ⟨y.toNat, hy⟩))).trans
    cases hlast : FbCall.lastColor calls x.toNat y.toNat with
    | none => rfl
    | some color => exact color.ofWord_toWord
  · rw [run_fbGetPixel hready x y, h.framebuffer]
    change some (if x.toNat < fb.width.toNat ∧ y.toNat < fb.height.toNat then _ else _, t) = _
    rw [if_neg (by omega)]
  · apply run_fbPlotPixel_of_le
    rw [h.framebuffer]
    exact hout

/-- Whatever the calls, the driver is an array of pixels on these words and stores to no other. -/
def Framebuffer.RefinesArray (fb : Framebuffer) (wordOf : fb.Pixel → BitVec 64) : Prop :=
  ∀ (calls : List FbCall) (s : FbState),
    (∃ t, Prog.run fbExec (fbSession fb calls) s = some ((), t)
        ∧ RefinesPixels fb wordOf calls s t)
      ∧ ∀ mid c, Prog.Visits fbExec (fbSession fb calls) s mid c → c.StoresTo wordOf

/-- Whatever the pitch, it is one on the words it uses itself. -/
theorem Framebuffer.Fits.refinesArray {fb : Framebuffer} (h : fb.Fits) :
    fb.RefinesArray fb.addrOf := by
  intro calls s
  have hwp := wp_fbSession h calls s
  obtain ⟨_, t, hrun, hshows⟩ := hwp.returns fun mid c _ => fbExec_ne_none mid c
  exact ⟨⟨t, hrun, hshows.refinesPixels⟩, fun mid c hvisit => hwp.of_visits hvisit⟩

theorem visits_plot {fb : Framebuffer} (p : fb.Pixel) {x y : BitVec 32}
    (hx : x.toNat = p.1.val) (hy : y.toNat = p.2.val) (color : FbColor) (s : FbState) :
    ∃ mid, Prog.Visits fbExec (fbSession fb [.plot x y color]) s mid
      (.store32 (fb.addrOf p) color.toWord) := by
  refine ⟨{ s with framebuffer := { fb with isReady := true } }, ?_⟩
  rw [fbSession, Prog.visits_bind]
  refine Or.inr ⟨(), _, rfl, ?_⟩
  rw [Prog.forList, Prog.visits_bind]
  left
  rw [FbCall.prog, fbPlotPixel, Prog.visits_bind]
  refine Or.inr ⟨_, _, rfl, ?_⟩
  simp only [setWidth_ge_iff]
  rw [if_neg (not_not_intro trivial), if_neg (by rw [hx]; exact Nat.not_le.mpr p.1.isLt),
    if_neg (by rw [hy]; exact Nat.not_le.mpr p.2.isLt), setWidth_slot, Framebuffer.pixelPtr_ofNat,
    hx, hy]
  exact Or.inl ⟨rfl, rfl⟩

/-- The first pixel of row 1 gives a drift away: its word ends in the padding of row 0. -/
theorem Framebuffer.Fits.rowsOnPitch {fb : Framebuffer} (h : fb.Fits)
    (hstores : ∀ (p : fb.Pixel), p.2.val = 1 → p.1.val = 0 → ∃ q, fb.addrOf p = fb.place q) :
    fb.RowsOnPitch := by
  by_contra hdrift
  rw [RowsOnPitch, not_or, not_or, Nat.not_le] at hdrift
  obtain ⟨hpitch, hheight, hwidth⟩ := hdrift
  obtain ⟨q, hq⟩ := hstores (⟨0, by omega⟩, ⟨1, hheight⟩) rfl rfl
  have hoffset := h.offset_eq_of_place hq
  have hcol := q.1.isLt
  have hstride := h.width_le_stride
  have hlt := fb.pitch.isLt
  simp only [slotOf, stride, offsetOf] at hoffset hstride
  obtain hzero | hpos := Nat.eq_zero_or_pos q.2.val
  · rw [hzero] at hoffset
    omega
  · have hrows := Nat.mul_le_mul_right fb.pitch.toNat hpos
    omega

/-- **The driver refines an array of pixels**, one that lies on the screen, exactly if no row that is
there drifts: a session reads back the last colour of every pixel and stores to no byte of the padding
or past the last row. -/
theorem fbSession_refinesPixels_iff {fb : Framebuffer} (hfits : fb.Fits) :
    fb.RefinesArray fb.place ∧ fb.DistinctWords ↔ fb.RowsOnPitch := by
  constructor
  · rintro ⟨hrefines, -⟩
    apply hfits.rowsOnPitch
    intro p hrow hcol
    obtain ⟨mid, hvisit⟩ := visits_plot p (x := 0#32) (y := 1#32) hcol.symm hrow.symm
      ⟨0#8, 0#8, 0#8⟩ ⟨fb, fun _ => 0#8⟩
    exact (hrefines _ _).2 _ _ hvisit
  · intro hrows
    refine ⟨?_, hfits.distinctWords⟩
    rw [← hrows.addrOf_eq]
    exact hfits.refinesArray

/-- Two pixels by two, with rows of twelve bytes. -/
def smallFramebuffer : Framebuffer := ⟨0x1000#64, 2#64, 2#64, 12#64, false⟩

theorem smallFramebuffer_fits : smallFramebuffer.Fits := ⟨by decide, by decide⟩

def smallCalls : List FbCall :=
  [.clear ⟨40#8, 40#8, 60#8⟩, .plot 1#32 1#32 ⟨255#8, 0#8, 0#8⟩, .plot 2#32 1#32 ⟨9#8, 9#8, 9#8⟩]

theorem fbSession_refinesPixels_iff_small :
    ∃ t, Prog.run fbExec (fbSession smallFramebuffer smallCalls) ⟨smallFramebuffer, fun _ => 0#8⟩
        = some ((), t)
      ∧ Prog.run fbExec (fbGetPixel 1#32 1#32) t = some (⟨255#8, 0#8, 0#8⟩, t)
      ∧ Prog.run fbExec (fbGetPixel 0#32 1#32) t = some (⟨40#8, 40#8, 60#8⟩, t) := by
  obtain ⟨hrefines, -⟩ := (fbSession_refinesPixels_iff smallFramebuffer_fits).mpr (Or.inl (by decide))
  obtain ⟨⟨t, hrun, hpixels⟩, -⟩ := hrefines smallCalls ⟨smallFramebuffer, fun _ => 0#8⟩
  exact ⟨t, hrun, hpixels.getPixel 1#32 1#32 (by decide) (by decide),
    hpixels.getPixel 0#32 1#32 (by decide) (by decide)⟩

/-- The same with rows of ten bytes. -/
def driftingFramebuffer : Framebuffer := ⟨0x1000#64, 2#64, 2#64, 10#64, false⟩

/-- A pixel plotted in row 1 is stored to bytes 8 to 11. The first two of them are padding of row 0,
and the row starts at byte 10. -/
theorem fbSession_writes_padding :
    driftingFramebuffer.Fits ∧ Outside 4 driftingFramebuffer.place 0x1008#64
      ∧ ∃ t, Prog.run fbExec (fbSession driftingFramebuffer [.plot 0#32 1#32 ⟨0#8, 0#8, 255#8⟩])
            ⟨driftingFramebuffer, fun _ => 0#8⟩ = some ((), t)
        ∧ t.mem 0x1008#64 = 255#8
        ∧ ¬ RefinesPixels driftingFramebuffer driftingFramebuffer.place
            [.plot 0#32 1#32 ⟨0#8, 0#8, 255#8⟩] ⟨driftingFramebuffer, fun _ => 0#8⟩ t := by
  have hout : Outside 4 driftingFramebuffer.place 0x1008#64 := by
    rintro ⟨x, y⟩
    revert x y
    decide
  refine ⟨⟨by decide, by decide⟩, hout, _, rfl, by decide, fun hpixels => ?_⟩
  exact absurd (hpixels.outside 0x1008#64 hout) (by decide)

end RainstormOs
