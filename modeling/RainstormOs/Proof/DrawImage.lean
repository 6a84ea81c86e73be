import RainstormOs.Proof.Framebuffer

/-!
# Drawing an image

An image is a rectangle of words; those whose top byte is zero are not drawn. Drawing clips the
rectangle to the visible area, but the sums that decide where to clip, and the index into the
picture, are formed in 32 bits, and the rows of the screen are taken to be `pitch / 4` words apart.
`BlitInRange` is the exact condition under which none of this shows: outside it some picture, all of
whose words but one are zero, is drawn wrong.

The picture is read from memory while the screen is written. A picture that lies on the screen is
overwritten as it is drawn, so `IsPicture` asks for an array of its own.
-/

namespace RainstormOs

open ByteMemory

/-- What a word of the picture writes to the screen. -/
def drawnWord (pixel : BitVec 32) : Option (BitVec 32) :=
  if (pixel >>> 24) &&& 0xFF#32 = 0#32 then none else some (pixel &&& 0x00FFFFFF#32)

/-- The words of the picture at an address. -/
def pictureAt (mem : ByteMemory 64) (pixels : BitVec 64) (i : Nat) : BitVec 32 :=
  mem.readWord (slotAddr pixels 4 i) 4

/-- What the image writes to a pixel, in unbounded coordinates. -/
def imageAt (x y width height : BitVec 32) (picture : Nat → BitVec 32) (px py : Nat) :
    Option (BitVec 32) :=
  if (x.toNat ≤ px ∧ px < x.toNat + width.toNat) ∧ (y.toNat ≤ py ∧ py < y.toNat + height.toNat) then
    drawnWord (picture ((py - y.toNat) * width.toNat + (px - x.toNat)))
  else none

/-- A read of the picture is of one of its first `size` words. -/
def FbCmd.ReadsBelow (size : Nat) : FbCmd → Prop
  | .pixel _ index => index < size
  | _ => True

/-- An array of `size` words in memory, no byte of which is on the screen. -/
structure IsPicture (fb : Framebuffer) (pixels : BitVec 64) (size : Nat) : Prop where
  not_null : pixels ≠ 0#64
  size_le : size * 4 ≤ 2 ^ 64
  apart : ∀ k, k < size * 4 → Outside 4 fb.place (pixels + BitVec.ofNat 64 k)

/-- The image is drawn clipped to the visible area, and nothing else is touched. -/
structure DrawsClipped (s : FbState) (x y width height : BitVec 32) (pixels : BitVec 64) :
    Prop where
  painted : ∃ t, Prog.run fbExec (fbDrawImage x y width height pixels) s = some ((), t)
    ∧ Painted (n := 4) s.framebuffer.place
        (fun p => imageAt x y width height (pictureAt s.mem pixels) p.1.val p.2.val) s.mem t.mem
  commands : ∀ mid c, Prog.Visits fbExec (fbDrawImage x y width height pixels) s mid c →
    c.StoresTo s.framebuffer.place ∧ c.ReadsBelow (width.toNat * height.toNat)

/-- The far edge does not pass the last 32-bit coordinate. -/
def EdgeInRange (limit : BitVec 64) (start length : BitVec 32) : Prop :=
  start.toNat + length.toNat < 2 ^ 32
    ∨ start.toNat + length.toNat = 2 ^ 32 ∧ 2 ^ 32 ≤ limit.toNat

/-- Nothing of the image is visible, or its edges and the index of its last visible word are in
range and no row it is drawn to drifts. -/
def BlitInRange (fb : Framebuffer) (x y width height : BitVec 32) : Prop :=
  (fb.width.toNat ≤ x.toNat ∨ fb.height.toNat ≤ y.toNat ∨ width.toNat = 0 ∨ height.toNat = 0)
    ∨ EdgeInRange fb.width x width ∧ EdgeInRange fb.height y height
      ∧ (min height.toNat (fb.height.toNat - y.toNat) - 1) * width.toNat
          + (min width.toNat (fb.width.toNat - x.toNat) - 1) < 2 ^ 32
      ∧ (fb.pitch.toNat % 4 = 0 ∨ y.toNat = 0 ∧ min height.toNat fb.height.toNat ≤ 1)

/-! ### Clipping -/

def drawLength (limit : BitVec 64) (start length : BitVec 32) : BitVec 32 :=
  if (start + length).setWidth 64 > limit then (limit - start.setWidth 64).setWidth 32 else length

section Clip

variable {limit : BitVec 64} {start length : BitVec 32}

theorem gt_setWidth_add_iff :
    (start + length).setWidth 64 > limit ↔
      limit.toNat < (start.toNat + length.toNat) % 2 ^ 32 := by
  rw [gt_iff_lt, BitVec.lt_def, BitVec.toNat_setWidth, BitVec.toNat_add, Nat.mod_eq_of_lt]
  exact (Nat.mod_lt _ (by decide)).trans (by decide)

/-- In range the length is clipped to what is left of the limit. -/
theorem toNat_drawLength (hstart : start.toNat < limit.toNat)
    (hedge : EdgeInRange limit start length) :
    (drawLength limit start length).toNat = min length.toNat (limit.toNat - start.toNat) := by
  have hlength := length.isLt
  have hlimit := limit.isLt
  rw [EdgeInRange] at hedge
  rw [drawLength]
  split
  · next hgt =>
      rw [gt_setWidth_add_iff] at hgt
      rw [BitVec.toNat_setWidth, BitVec.toNat_sub, BitVec.toNat_setWidth]
      omega
  · next hle =>
      rw [gt_setWidth_add_iff] at hle
      omega

/-- Out of range the length is not clipped, and reaches past the limit or past the last
coordinate. -/
theorem drawLength_of_not_edgeInRange (hstart : start.toNat < limit.toNat)
    (hedge : ¬ EdgeInRange limit start length) :
    drawLength limit start length = length
      ∧ min limit.toNat (2 ^ 32) - start.toNat < length.toNat := by
  have hlength := length.isLt
  have hstart' := start.isLt
  rw [EdgeInRange] at hedge
  constructor
  · rw [drawLength, if_neg]
    rw [gt_setWidth_add_iff]
    omega
  · omega

theorem drawLength_le (length : BitVec 32) (hstart : start.toNat < limit.toNat) :
    (drawLength limit start length).toNat ≤ length.toNat := by
  by_cases hedge : EdgeInRange limit start length
  · rw [toNat_drawLength hstart hedge]
    exact Nat.min_le_left _ _
  · rw [(drawLength_of_not_edgeInRange hstart hedge).1]

theorem le_drawLength (length : BitVec 32) (hstart : start.toNat < limit.toNat) :
    min length.toNat (limit.toNat - start.toNat) ≤ (drawLength limit start length).toNat := by
  by_cases hedge : EdgeInRange limit start length
  · rw [toNat_drawLength hstart hedge]
  · rw [(drawLength_of_not_edgeInRange hstart hedge).1]
    exact Nat.min_le_left _ _

theorem drawLength_pos (hstart : start.toNat < limit.toNat) (hlength : length.toNat ≠ 0) :
    0 < (drawLength limit start length).toNat := by
  have := le_drawLength length hstart
  omega

theorem drawLength_eq_zero (hstart : start.toNat < limit.toNat) (hlength : length.toNat = 0) :
    (drawLength limit start length).toNat = 0 := by
  have := drawLength_le length hstart
  omega

end Clip

/-! ### The loop -/

def drawRect (fb : Framebuffer) (x y width : BitVec 32) (pixels : BitVec 64) (rows cols : Nat) :
    FbProg Unit :=
  Prog.forAcc
    (fun row _ => Prog.forAcc
      (fun col _ => fbDrawPixel fb x y width pixels (BitVec.ofNat 32 row) (BitVec.ofNat 32 col))
      cols 0 ())
    rows 0 ()

section Loop

variable {fb : Framebuffer} {guar : FbState → FbCmd → Prop} {s : FbState}
  {x y width height : BitVec 32} {pixels : BitVec 64} {post : Unit → FbState → Prop}

theorem wp_fbDrawImage (hready : s.framebuffer.isReady) (hnull : pixels ≠ 0#64)
    (hx : x.toNat < s.framebuffer.width.toNat) (hy : y.toNat < s.framebuffer.height.toNat) :
    Prog.Wp fbExec guar (fbDrawImage x y width height pixels) s post ↔
      guar s .framebuffer ∧ Prog.Wp fbExec guar
        (drawRect s.framebuffer x y width pixels (drawLength s.framebuffer.height y height).toNat
          (drawLength s.framebuffer.width x width).toNat) s post := by
  rw [fbDrawImage, Prog.wp_bind, wp_getFramebuffer, if_neg (not_not_intro hready), if_neg hnull]
  simp only [setWidth_ge_iff]
  rw [if_neg (by omega), if_neg (by omega)]
  rfl

theorem visits_fbDrawImage {mid : FbState} {c : FbCmd} (hready : s.framebuffer.isReady)
    (hnull : pixels ≠ 0#64) (hx : x.toNat < s.framebuffer.width.toNat)
    (hy : y.toNat < s.framebuffer.height.toNat)
    (hvisit : Prog.Visits fbExec
      (drawRect s.framebuffer x y width pixels (drawLength s.framebuffer.height y height).toNat
        (drawLength s.framebuffer.width x width).toNat) s mid c) :
    Prog.Visits fbExec (fbDrawImage x y width height pixels) s mid c := by
  rw [fbDrawImage, Prog.visits_bind]
  refine Or.inr ⟨s.framebuffer, s, rfl, ?_⟩
  rw [if_neg (not_not_intro hready), if_neg hnull]
  simp only [setWidth_ge_iff]
  rw [if_neg (by omega), if_neg (by omega)]
  exact hvisit

theorem wp_fbDrawImage_of_le (hready : s.framebuffer.isReady) (hnull : pixels ≠ 0#64)
    (hout : s.framebuffer.width.toNat ≤ x.toNat ∨ s.framebuffer.height.toNat ≤ y.toNat) :
    Prog.Wp fbExec guar (fbDrawImage x y width height pixels) s post ↔
      guar s .framebuffer ∧ post () s := by
  rw [fbDrawImage, Prog.wp_bind, wp_getFramebuffer, if_neg (not_not_intro hready), if_neg hnull]
  simp only [setWidth_ge_iff]
  by_cases hx : s.framebuffer.width.toNat ≤ x.toNat
  · rw [if_pos hx]
    rfl
  · rw [if_neg hx, if_pos (hout.resolve_left hx)]
    rfl

def drawAddr (fb : Framebuffer) (x y : BitVec 32) (row col : BitVec 32) : BitVec 64 :=
  fb.pixelPtr ((y + row).setWidth 64 * (fb.pitch >>> 2) + (x + col).setWidth 64)

theorem wp_fbDrawPixel {row col : BitVec 32}
    (hread : guar s (.pixel pixels (row * width + col).toNat))
    (hnone : drawnWord (pictureAt s.mem pixels (row * width + col).toNat) = none → post () s)
    (hsome : ∀ word, drawnWord (pictureAt s.mem pixels (row * width + col).toNat) = some word →
      Prog.Wp fbExec guar (store32 (drawAddr fb x y row col) word) s post) :
    Prog.Wp fbExec guar (fbDrawPixel fb x y width pixels row col) s post := by
  rw [fbDrawPixel, Prog.wp_bind, wp_loadPixel]
  refine ⟨hread, ?_⟩
  split
  · next halpha => exact hnone (if_pos halpha)
  · next halpha => exact hsome _ (if_neg halpha)

/-- The coordinates wrap at 32 bits, the slot is formed in 64. -/
theorem drawAddr_eq (fb : Framebuffer) (x y : BitVec 32) (row col : Nat) :
    drawAddr fb x y (BitVec.ofNat 32 row) (BitVec.ofNat 32 col)
      = slotAddr fb.address 4
          ((y.toNat + row) % 2 ^ 32 * fb.stride + (x.toNat + col) % 2 ^ 32) := by
  have hshift : fb.pitch >>> 2 = fb.pitch / 4#64 := by
    apply BitVec.eq_of_toNat_eq
    rw [BitVec.toNat_ushiftRight, BitVec.toNat_udiv, Nat.shiftRight_eq_div_pow]
    rfl
  rw [drawAddr, hshift, setWidth_slot, BitVec.toNat_add, BitVec.toNat_add, BitVec.toNat_ofNat,
    BitVec.toNat_ofNat, Nat.add_mod_mod, Nat.add_mod_mod, fb.pixelPtr_ofNat]

theorem drawAddr_eq_addrOf {row col : Nat} (p : fb.Pixel) (hrow : p.2.val = y.toNat + row)
    (hcol : p.1.val = x.toNat + col) (hp : p.2.val < 2 ^ 32 ∧ p.1.val < 2 ^ 32) :
    drawAddr fb x y (BitVec.ofNat 32 row) (BitVec.ofNat 32 col) = fb.addrOf p := by
  rw [drawAddr_eq, ← hrow, ← hcol, Nat.mod_eq_of_lt hp.1, Nat.mod_eq_of_lt hp.2]
  rfl

theorem drawAddr_eq_place {row col : Nat} (p : fb.Pixel) (hrow : p.2.val = y.toNat + row)
    (hcol : p.1.val = x.toNat + col) (hp : p.2.val < 2 ^ 32 ∧ p.1.val < 2 ^ 32)
    (hdrift : (y.toNat + row) * (fb.pitch.toNat % 4) = 0) :
    drawAddr fb x y (BitVec.ofNat 32 row) (BitVec.ofNat 32 col) = fb.place p := by
  rw [drawAddr_eq_addrOf p hrow hcol hp]
  exact Framebuffer.addrOf_eq_place (hrow ▸ hdrift)

theorem toNat_index {row col : Nat} (hindex : row * width.toNat + col < 2 ^ 32) :
    (BitVec.ofNat 32 row * width + BitVec.ofNat 32 col).toNat = row * width.toNat + col := by
  rw [BitVec.toNat_add, BitVec.toNat_mul, BitVec.toNat_ofNat, BitVec.toNat_ofNat,
    Nat.mod_mul_mod, ← Nat.add_mod, Nat.mod_eq_of_lt hindex]

theorem index_le {row col rows cols : Nat} (hrow : row < rows) (hcol : col < cols) (width : Nat) :
    row * width + col ≤ (rows - 1) * width + (cols - 1) :=
  Nat.add_le_add (Nat.mul_le_mul_right width (by omega)) (by omega)

theorem index_lt {row col width height : Nat} (hrow : row < height) (hcol : col < width) :
    row * width + col < width * height := by
  calc row * width + col < row * width + width := by omega
    _ = (row + 1) * width := (Nat.succ_mul _ _).symm
    _ ≤ height * width := Nat.mul_le_mul_right _ hrow
    _ = width * height := Nat.mul_comm _ _

theorem toNat_index_lt {row col : Nat} (hrow : row < height.toNat) (hcol : col < width.toNat) :
    (BitVec.ofNat 32 row * width + BitVec.ofNat 32 col).toNat < width.toNat * height.toNat := by
  rw [BitVec.toNat_add, BitVec.toNat_mul, BitVec.toNat_ofNat, BitVec.toNat_ofNat,
    Nat.mod_mul_mod, ← Nat.add_mod]
  exact (Nat.mod_le _ _).trans_lt (index_lt hrow hcol)

/-- As long as only places of pixels are written, the picture stays. -/
theorem IsPicture.pictureAt_eq {size : Nat} (h : IsPicture fb pixels size)
    {mem mem' : ByteMemory 64} (hkept : ∀ addr, Outside 4 fb.place addr → mem' addr = mem addr)
    {i : Nat} (hi : i < size) : pictureAt mem' pixels i = pictureAt mem pixels i := by
  apply readWord_congr
  intro k hk
  apply hkept
  rw [slotAddr, BitVec.add_assoc, ← BitVec.ofNat_add]
  exact h.apart _ (by omega)

/-- A rectangle inside the visible area whose coordinates and indices do not wrap is painted. -/
theorem wp_drawRect (hfits : fb.Fits) (hpicture : IsPicture fb pixels (width.toNat * height.toNat))
    (hs : s.framebuffer = fb) {rows cols : Nat}
    (hrows : rows ≤ height.toNat ∧ y.toNat + rows ≤ fb.height.toNat ∧ y.toNat + rows ≤ 2 ^ 32)
    (hcols : cols ≤ width.toNat ∧ x.toNat + cols ≤ fb.width.toNat ∧ x.toNat + cols ≤ 2 ^ 32)
    (hindex : (rows - 1) * width.toNat + (cols - 1) < 2 ^ 32)
    (hdrift : ∀ row, row < rows → (y.toNat + row) * (fb.pitch.toNat % 4) = 0) :
    Prog.Wp fbExec
      (fun _ c => c.StoresTo fb.place ∧ c.ReadsBelow (width.toNat * height.toNat))
      (drawRect fb x y width pixels rows cols) s fun _ t => t.Shows fb fb.place
        (fun p => if (x.toNat ≤ p.1.val ∧ p.1.val < x.toNat + cols)
            ∧ (y.toNat ≤ p.2.val ∧ p.2.val < y.toNat + rows)
          then drawnWord (pictureAt s.mem pixels
            ((p.2.val - y.toNat) * width.toNat + (p.1.val - x.toNat)))
          else none)
        s.mem := by
  apply wp_paintRect x.toNat y.toNat
    (fun row col => drawnWord (pictureAt s.mem pixels (row * width.toNat + col))) ?_ hs
  rintro row col mid hrow hcol ⟨paint, hmid⟩
  have hlast := index_le hrow hcol width.toNat
  have hbelow : row * width.toNat + col < width.toNat * height.toNat :=
    index_lt (by omega) (by omega)
  have hload : pictureAt mid.mem pixels (row * width.toNat + col)
      = pictureAt s.mem pixels (row * width.toNat + col) :=
    hpicture.pictureAt_eq hmid.painted.outside hbelow
  apply wp_fbDrawPixel
  · rw [toNat_index (by omega)]
    exact ⟨trivial, hbelow⟩
  · rw [toNat_index (by omega), hload]
    intro hnone
    refine ⟨hmid.framebuffer, (Painted.refl mid.mem).congr fun p => ?_⟩
    rw [hnone, ite_self]
  · rw [toNat_index (by omega), hload]
    intro word hword
    have hx : x.toNat + col < fb.width.toNat := by omega
    have hy : y.toNat + row < fb.height.toNat := by omega
    have haddr : drawAddr fb x y (BitVec.ofNat 32 row) (BitVec.ofNat 32 col)
        = fb.place (⟨x.toNat + col, hx⟩, ⟨y.toNat + row, hy⟩) := by
      have hsmall : y.toNat + row < 2 ^ 32 ∧ x.toNat + col < 2 ^ 32 := by omega
      exact drawAddr_eq_place (⟨x.toNat + col, hx⟩, ⟨y.toNat + row, hy⟩) rfl rfl hsmall
        (hdrift row hrow)
    apply (wp_store32_pixel hfits.separate_place hmid.framebuffer hx hy haddr
      fun _ p => ⟨⟨p, rfl⟩, trivial⟩).post
    intro _ t ht
    rwa [hword]

theorem wp_drawRect_of_empty (hs : s.framebuffer = fb) {rows cols : Nat}
    (hempty : cols = 0 ∨ rows = 0) :
    Prog.Wp fbExec guar (drawRect fb x y width pixels rows cols) s fun _ t =>
      t.Shows fb fb.place (fun _ => none) s.mem := by
  apply (wp_paintRect 0 0 (fun _ _ => none) ?_ hs).post
  · intro _ t ht
    refine ⟨ht.framebuffer, ht.painted.congr fun p => ?_⟩
    rw [ite_self]
  · intro row col mid hrow hcol
    omega

end Loop

theorem drawsClipped_of_blitInRange {s : FbState} {x y width height : BitVec 32} {pixels : BitVec 64}
    (hready : s.framebuffer.isReady) (hfits : s.framebuffer.Fits)
    (hpicture : IsPicture s.framebuffer pixels (width.toNat * height.toNat))
    (hrange : BlitInRange s.framebuffer x y width height) :
    DrawsClipped s x y width height pixels := by
  have hnull := hpicture.not_null
  have hwp : Prog.Wp fbExec
      (fun _ c => c.StoresTo s.framebuffer.place ∧ c.ReadsBelow (width.toNat * height.toNat))
      (fbDrawImage x y width height pixels) s fun _ t =>
        Painted (n := 4) s.framebuffer.place
          (fun p => imageAt x y width height (pictureAt s.mem pixels) p.1.val p.2.val)
          s.mem t.mem := by
    by_cases hout : s.framebuffer.width.toNat ≤ x.toNat ∨ s.framebuffer.height.toNat ≤ y.toNat
    · rw [wp_fbDrawImage_of_le hready hnull hout]
      refine ⟨⟨trivial, trivial⟩, (Painted.refl s.mem).congr fun p => ?_⟩
      have hcol := p.1.isLt
      have hrow := p.2.isLt
      rw [imageAt, if_neg (by omega)]
    · rw [not_or, Nat.not_le, Nat.not_le] at hout
      obtain ⟨hx, hy⟩ := hout
      rw [wp_fbDrawImage hready hnull hx hy]
      refine ⟨⟨trivial, trivial⟩, ?_⟩
      by_cases hempty : width.toNat = 0 ∨ height.toNat = 0
      · have hnothing : (drawLength s.framebuffer.width x width).toNat = 0
            ∨ (drawLength s.framebuffer.height y height).toNat = 0 :=
          hempty.imp (drawLength_eq_zero hx) (drawLength_eq_zero hy)
        apply (wp_drawRect_of_empty rfl hnothing).post
        intro _ t ht
        refine ht.painted.congr fun p => ?_
        rw [imageAt, if_neg (by omega)]
      · obtain ⟨hedgeX, hedgeY, hindex, hrows⟩ := hrange.resolve_left (by omega)
        rw [toNat_drawLength hx hedgeX, toNat_drawLength hy hedgeY]
        rw [EdgeInRange] at hedgeX hedgeY
        have hdrift : ∀ row, row < min height.toNat (s.framebuffer.height.toNat - y.toNat) →
            (y.toNat + row) * (s.framebuffer.pitch.toNat % 4) = 0 := by
          intro row hrow
          obtain hpitch | hfirst := hrows
          · rw [hpitch, Nat.mul_zero]
          · have hzero : y.toNat + row = 0 := by omega
            rw [hzero, Nat.zero_mul]
        apply (wp_drawRect hfits hpicture rfl (by omega) (by omega) hindex hdrift).post
        intro _ t ht
        refine ht.painted.congr fun p => ?_
        have hcol := p.1.isLt
        have hrow := p.2.isLt
        exact if_congr (by omega) rfl rfl
  constructor
  · obtain ⟨_, t, hrun, hpainted⟩ := hwp.returns fun mid c _ => fbExec_ne_none mid c
    exact ⟨t, hrun, hpainted⟩
  · exact fun mid c hvisit => hwp.of_visits hvisit

/-! ### Pictures of one dot

Every word of the picture but one is zero, that one is opaque and white, and so is all other memory.
A turn of the loop that comes to the dot while the picture is as it was stores to some word, and the
top byte of that word is zero at the end: every store has a zero top byte, and two words of the array
are the same word or do not overlap. -/

def dotMemory (pixels : BitVec 64) (size k : Nat) : ByteMemory 64 := fun addr =>
  if (addr - pixels).toNat < size * 4 ∧ (addr - pixels).toNat / 4 ≠ k then 0#8 else 0xFF#8

theorem readWord_white {mem : ByteMemory 64} {addr : BitVec 64}
    (hbytes : ∀ i, i < 4 → mem (addr + BitVec.ofNat 64 i) = 0xFF#8) :
    mem.readWord addr 4 = 0xFFFFFFFF#32 := by
  have hword : 0xFFFFFFFF#32 = BitVec.allOnes 32 := rfl
  have hbyte : 0xFF#8 = BitVec.allOnes 8 := rfl
  apply BitVec.eq_of_getLsbD_eq
  intro i hi
  rw [getLsbD_readWord mem addr hi, hbytes (i / 8) (by omega), hword, hbyte, BitVec.getLsbD_allOnes,
    BitVec.getLsbD_allOnes, decide_eq_decide]
  omega

theorem readWord_ne_white {mem : ByteMemory 64} {addr : BitVec 64}
    (htop : mem (addr + 3#64) = 0#8) : mem.readWord addr 4 ≠ 0xFFFFFFFF#32 := by
  intro hword
  have hbit : (mem.readWord addr 4).getLsbD 24 = true := by
    rw [hword]
    decide
  rw [getLsbD_readWord _ _ (by decide)] at hbit
  change (mem (addr + 3#64)).getLsbD 0 = true at hbit
  rw [htop] at hbit
  exact absurd hbit (by decide)

section Dot

variable {fb : Framebuffer} {s : FbState} {x y width height : BitVec 32} {pixels : BitVec 64}
  {size k : Nat}

theorem pictureAt_dotMemory (hsize : size * 4 ≤ 2 ^ 64) {i : Nat} (hi : i < size) :
    pictureAt (dotMemory pixels size k) pixels i = if i = k then 0xFFFFFFFF#32 else 0#32 := by
  have hbyte : ∀ j, j < 4 → dotMemory pixels size k (slotAddr pixels 4 i + BitVec.ofNat 64 j)
      = if i = k then 0xFF#8 else 0#8 := by
    intro j hj
    have hoffset : (slotAddr pixels 4 i + BitVec.ofNat 64 j - pixels).toNat = i * 4 + j := by
      rw [slotAddr, BitVec.add_assoc, ← BitVec.ofNat_add]
      exact toNat_add_ofNat_sub pixels (by omega)
    have hdiv : (i * 4 + j) / 4 = i := by omega
    rw [dotMemory, hoffset, hdiv]
    by_cases hik : i = k
    · rw [if_neg (fun h => h.2 hik), if_pos hik]
    · rw [if_pos ⟨by omega, hik⟩, if_neg hik]
  rw [pictureAt]
  by_cases hik : i = k
  · simp only [if_pos hik] at hbyte ⊢
    exact readWord_white hbyte
  · simp only [if_neg hik] at hbyte ⊢
    exact readWord_eq_zero hbyte

theorem IsPicture.readWord_dotMemory (h : IsPicture fb pixels size) (p : fb.Pixel) :
    (dotMemory pixels size k).readWord (fb.place p) 4 = 0xFFFFFFFF#32 := by
  apply readWord_white
  intro i hi
  rw [dotMemory, if_neg]
  rintro ⟨hin, -⟩
  have hout := h.apart _ hin p
  rw [← eq_add_toNat_sub, toNat_add_ofNat_sub _ (by omega)] at hout
  omega

theorem drawnWord_white : drawnWord 0xFFFFFFFF#32 = some 0x00FFFFFF#32 := by decide

theorem drawnWord_zero : drawnWord 0#32 = none := by decide

/-- The dot is all that is drawn. -/
theorem of_imageAt_dotMemory (pixels : BitVec 64)
    (hsize : width.toNat * height.toNat * 4 ≤ 2 ^ 64) {px py : Nat}
    (hsome : imageAt x y width height
      (pictureAt (dotMemory pixels (width.toNat * height.toNat) k) pixels) px py ≠ none) :
    (x.toNat ≤ px ∧ px < x.toNat + width.toNat) ∧ (y.toNat ≤ py ∧ py < y.toNat + height.toNat)
      ∧ (py - y.toNat) * width.toNat + (px - x.toNat) = k := by
  rw [imageAt] at hsome
  split at hsome
  · next hrect =>
      refine ⟨hrect.1, hrect.2, ?_⟩
      by_contra hne
      rw [pictureAt_dotMemory hsize (index_lt (by omega) (by omega)), if_neg hne,
        drawnWord_zero] at hsome
      exact hsome rfl
  · exact absurd rfl hsome

theorem extractLsb'_drawnWord {pixel word : BitVec 32} (h : drawnWord pixel = some word) :
    word.extractLsb' 24 8 = 0#8 := by
  rw [drawnWord] at h
  split at h
  · cases h
  · obtain rfl := Option.some.inj h
    apply BitVec.eq_of_getLsbD_eq
    intro i hi
    have hmask : 0x00FFFFFF#32 = (BitVec.allOnes 24).setWidth 32 := rfl
    rw [BitVec.getLsbD_extractLsb', BitVec.getLsbD_and, hmask, BitVec.getLsbD_setWidth,
      BitVec.getLsbD_allOnes]
    simp

theorem Framebuffer.pixelPtr_eq_slotAddr (fb : Framebuffer) (index : BitVec 64) :
    ∃ slot, slot < 2 ^ 62 ∧ fb.pixelPtr index = slotAddr fb.address 4 slot := by
  refine ⟨index.toNat % 2 ^ 62, Nat.mod_lt _ (by decide), ?_⟩
  have hindex : index * 4#64 = BitVec.ofNat 64 (index.toNat % 2 ^ 62 * 4) := by
    apply BitVec.eq_of_toNat_eq
    rw [BitVec.toNat_mul, BitVec.toNat_ofNat, BitVec.toNat_ofNat]
    omega
  rw [pixelPtr, slotAddr, hindex]

/-- A store of a drawn word leaves the top byte of a word of the array zero, if it was or is the one
stored to. -/
theorem writeWord_top {mem : ByteMemory 64} {index index' : BitVec 64} {word : BitVec 32}
    (hword : word.extractLsb' 24 8 = 0#8)
    (h : mem (fb.pixelPtr index + 3#64) = 0#8 ∨ fb.pixelPtr index' = fb.pixelPtr index) :
    mem.writeWord (fb.pixelPtr index') 4 word (fb.pixelPtr index + 3#64) = 0#8 := by
  have htop : ∀ addr : BitVec 64, mem.writeWord addr 4 word (addr + 3#64) = 0#8 := by
    intro addr
    have hthree : (addr + 3#64 - addr).toNat = 3 := toNat_add_ofNat_sub addr (by decide)
    rw [writeWord, hthree, if_pos (by decide)]
    exact hword
  obtain ⟨slot, hslot, haddr⟩ := fb.pixelPtr_eq_slotAddr index
  obtain ⟨slot', hslot', haddr'⟩ := fb.pixelPtr_eq_slotAddr index'
  by_cases hsame : fb.pixelPtr index' = fb.pixelPtr index
  · rw [hsame]
    exact htop _
  · rw [← h.resolve_right hsame]
    apply writeWord_of_le
    rw [haddr, haddr'] at hsame ⊢
    exact slotAddr_separate fb.address (by omega) (by omega)
      (fun heq => hsame (by rw [heq])) (by decide : 3 < 4)

/-- Nothing off the screen has changed since `mem`. -/
def FbState.KeepsOutside (fb : Framebuffer) (mem : ByteMemory 64) (t : FbState) : Prop :=
  ∀ addr, Outside 4 fb.place addr → t.mem addr = mem addr

/-- The turn of the loop stores to a pixel's place, if it stores. -/
def TurnVisible (fb : Framebuffer) (x y : BitVec 32) (row col : Nat) : Prop :=
  ∃ p : fb.Pixel, drawAddr fb x y (BitVec.ofNat 32 row) (BitVec.ofNat 32 col) = fb.place p

theorem turnVisible {row col : Nat}
    (hrow : y.toNat + row < fb.height.toNat ∧ y.toNat + row < 2 ^ 32)
    (hcol : x.toNat + col < fb.width.toNat ∧ x.toNat + col < 2 ^ 32)
    (hdrift : (y.toNat + row) * (fb.pitch.toNat % 4) = 0) : TurnVisible fb x y row col :=
  ⟨(⟨x.toNat + col, hcol.1⟩, ⟨y.toNat + row, hrow.1⟩),
    drawAddr_eq_place _ rfl rfl ⟨hrow.2, hcol.2⟩ hdrift⟩

theorem wp_turn_keeps {mem : ByteMemory 64} {row col : Nat} (hturn : TurnVisible fb x y row col)
    (hs : s.KeepsOutside fb mem) :
    Prog.Wp fbExec (fun _ _ => True)
      (fbDrawPixel fb x y width pixels (BitVec.ofNat 32 row) (BitVec.ofNat 32 col)) s
      fun _ t => t.KeepsOutside fb mem := by
  apply wp_fbDrawPixel trivial fun _ => hs
  intro word _
  obtain ⟨p, hp⟩ := hturn
  rw [wp_store32, hp]
  exact ⟨trivial, fun addr hout => (writeWord_of_le (hout p)).trans (hs addr hout)⟩

theorem wp_row_keeps {mem : ByteMemory 64} {row cols : Nat}
    (hturns : ∀ col, col < cols → TurnVisible fb x y row col) (hs : s.KeepsOutside fb mem) :
    Prog.Wp fbExec (fun _ _ => True)
      (Prog.forAcc
        (fun col _ => fbDrawPixel fb x y width pixels (BitVec.ofNat 32 row) (BitVec.ofNat 32 col))
        cols 0 ()) s fun _ t => t.KeepsOutside fb mem := by
  apply Prog.wp_forAcc (fun _ _ t => t.KeepsOutside fb mem) hs
  · intro col _ mid _ hcol hmid
    exact wp_turn_keeps (hturns col (by omega)) hmid
  · exact fun _ _ ht => ht

/-- The turns before this one, row by row. -/
def Before (cols row col i j : Nat) : Prop := i < row ∧ j < cols ∨ i = row ∧ j < col

/-- The picture is as it was when the turn at the dot comes, so it stores. -/
theorem exists_visits_drawRect (hpicture : IsPicture fb pixels size) {row col rows cols : Nat}
    (hrow : row < rows) (hcol : col < cols) (hk : k < size)
    (hindex : (BitVec.ofNat 32 row * width + BitVec.ofNat 32 col).toNat = k)
    (hbefore : ∀ i j, Before cols row col i j → TurnVisible fb x y i j)
    (hs : s.mem = dotMemory pixels size k) :
    ∃ mid, Prog.Visits fbExec (drawRect fb x y width pixels rows cols) s mid
      (.store32 (drawAddr fb x y (BitVec.ofNat 32 row) (BitVec.ofNat 32 col)) 0x00FFFFFF#32) := by
  apply Prog.exists_visits_forAcc_of_inv
    (fun _ _ t => t.KeepsOutside fb (dotMemory pixels size k)) (Nat.zero_le row) (by omega)
  · intro i _ mid hi hmid
    obtain ⟨_, t, hrun, ht⟩ := (wp_row_keeps
      (fun j hj => hbefore i j (Or.inl ⟨hi, hj⟩)) hmid).returns fun mid c _ => fbExec_ne_none mid c
    exact ⟨_, t, hrun, ht⟩
  · intro _ mid hmid
    apply Prog.exists_visits_forAcc_of_inv
      (fun _ _ t => t.KeepsOutside fb (dotMemory pixels size k)) (Nat.zero_le col) (by omega)
    · intro j _ mid' hj hmid'
      obtain ⟨_, t, hrun, ht⟩ := (wp_turn_keeps (hbefore row j (Or.inr ⟨rfl, hj⟩))
        hmid').returns fun mid c _ => fbExec_ne_none mid c
      exact ⟨_, t, hrun, ht⟩
    · intro _ mid' hmid'
      have hload : mid'.mem.readWord (slotAddr pixels 4 k) 4 = 0xFFFFFFFF#32 := by
        have hdot := hpicture.pictureAt_eq hmid' hk
        rwa [pictureAt_dotMemory hpicture.size_le hk, if_pos rfl] at hdot
      refine ⟨mid', ?_⟩
      rw [fbDrawPixel, Prog.visits_bind]
      refine Or.inr ⟨_, mid', rfl, ?_⟩
      rw [hindex, hload]
      exact Or.inl ⟨rfl, rfl⟩
    · exact hmid
  · exact fun addr _ => congrFun hs addr

/-- The word it stores to has a zero top byte at the end. -/
theorem wp_drawRect_top (hpicture : IsPicture fb pixels size) {row col rows cols : Nat}
    (hrow : row < rows) (hcol : col < cols) (hk : k < size)
    (hindex : (BitVec.ofNat 32 row * width + BitVec.ofNat 32 col).toNat = k)
    (hbefore : ∀ i j, Before cols row col i j → TurnVisible fb x y i j)
    (hs : s.mem = dotMemory pixels size k) :
    Prog.Wp fbExec (fun _ _ => True) (drawRect fb x y width pixels rows cols) s fun _ t =>
      t.mem (drawAddr fb x y (BitVec.ofNat 32 row) (BitVec.ofNat 32 col) + 3#64) = 0#8 := by
  -- Up to the turn the picture is kept, after it the byte is zero.
  let inv (done : Prop) (t : FbState) : Prop :=
    (¬ done → t.KeepsOutside fb (dotMemory pixels size k))
      ∧ (done → t.mem (drawAddr fb x y (BitVec.ofNat 32 row) (BitVec.ofNat 32 col) + 3#64) = 0#8)
  apply Prog.wp_forAcc fun i _ t => inv (row < i) t
  · exact ⟨fun _ addr _ => congrFun hs addr, by omega⟩
  · intro i _ mid _ hi hmid
    apply Prog.wp_forAcc fun j _ t => inv (row < i ∨ row = i ∧ col < j) t
    · exact ⟨fun h => hmid.1 (by omega), fun h => hmid.2 (by omega)⟩
    · intro j _ mid' _ hj hmid'
      have hturn : Before cols row col i j ∨ (i = row ∧ j = col)
          ∨ (row < i ∨ row = i ∧ col < j) := by
        rw [Before]
        omega
      rcases hturn with hearlier | ⟨rfl, rfl⟩ | hlater
      · have hnot : ¬ (row < i ∨ row = i ∧ col < j + 1) := by
          rw [Before] at hearlier
          omega
        apply (wp_turn_keeps (hbefore i j hearlier) (hmid'.1 (by omega))).post
        exact fun _ t ht => ⟨fun _ => ht, fun h => absurd h hnot⟩
      · have hload : drawnWord (pictureAt mid'.mem pixels k) = some 0x00FFFFFF#32 := by
          rw [hpicture.pictureAt_eq (hmid'.1 (by omega)) hk,
            pictureAt_dotMemory hpicture.size_le hk, if_pos rfl, drawnWord_white]
        apply wp_fbDrawPixel trivial
        · rw [hindex, hload]
          exact fun hnone => absurd hnone (Option.some_ne_none _)
        · rw [hindex]
          intro word hword
          rw [wp_store32]
          refine ⟨trivial, fun h => absurd (by omega) h, fun _ => ?_⟩
          exact writeWord_top (extractLsb'_drawnWord hword) (Or.inr rfl)
      · apply wp_fbDrawPixel trivial fun _ => ⟨fun h => absurd (by omega) h, fun _ => hmid'.2 hlater⟩
        intro word hword
        rw [wp_store32]
        refine ⟨trivial, fun h => absurd (by omega) h, fun _ => ?_⟩
        exact writeWord_top (extractLsb'_drawnWord hword) (Or.inl (hmid'.2 hlater))
    · intro _ t ht
      exact ⟨fun h => ht.1 (by omega), fun h => ht.2 (by omega)⟩
  · intro _ t ht
    exact ht.2 (by omega)

/-- The turn at the dot draws it: its store is to the place of a pixel, the one whose source is the
dot. -/
theorem exists_pixel_of_drawsClipped (hready : s.framebuffer.isReady)
    (hpicture : IsPicture s.framebuffer pixels (width.toNat * height.toNat))
    (hx : x.toNat < s.framebuffer.width.toNat) (hy : y.toNat < s.framebuffer.height.toNat)
    {row col : Nat} (hrow : row < (drawLength s.framebuffer.height y height).toNat)
    (hcol : col < (drawLength s.framebuffer.width x width).toNat)
    (hindex : (BitVec.ofNat 32 row * width + BitVec.ofNat 32 col).toNat = k)
    (hbefore : ∀ i j, Before (drawLength s.framebuffer.width x width).toNat row col i j →
      TurnVisible s.framebuffer x y i j)
    (hs : s.mem = dotMemory pixels (width.toNat * height.toNat) k)
    (hdraws : DrawsClipped s x y width height pixels) :
    ∃ q : s.framebuffer.Pixel,
      drawAddr s.framebuffer x y (BitVec.ofNat 32 row) (BitVec.ofNat 32 col)
          = s.framebuffer.place q
        ∧ (x.toNat ≤ q.1.val ∧ q.1.val < x.toNat + width.toNat)
        ∧ (y.toNat ≤ q.2.val ∧ q.2.val < y.toNat + height.toNat)
        ∧ (q.2.val - y.toNat) * width.toNat + (q.1.val - x.toNat) = k := by
  have hk : k < width.toNat * height.toNat := by
    have hheight := drawLength_le height hy
    have hwidth := drawLength_le width hx
    rw [← hindex]
    exact toNat_index_lt (by omega) (by omega)
  obtain ⟨mid, hvisit⟩ := exists_visits_drawRect hpicture hrow hcol hk hindex hbefore hs
  obtain ⟨q, hq⟩ :=
    (hdraws.commands _ _ (visits_fbDrawImage hready hpicture.not_null hx hy hvisit)).1
  obtain ⟨t, hrun, hpainted⟩ := hdraws.painted
  have htop : t.mem (s.framebuffer.place q + 3#64) = 0#8 := by
    rw [← hq]
    exact ((wp_fbDrawImage hready hpicture.not_null hx hy).mpr
      ⟨trivial, wp_drawRect_top hpicture hrow hcol hk hindex hbefore hs⟩).of_run hrun
  have hword := hpainted.word q
  rw [hs, hpicture.readWord_dotMemory q] at hword
  refine ⟨q, hq, of_imageAt_dotMemory pixels hpicture.size_le fun hnone => ?_⟩
  -- A pixel the image leaves alone is still white.
  rw [hnone, Option.getD_none] at hword
  exact readWord_ne_white htop hword

/-- A dot whose index is past 32 bits is never loaded. -/
theorem wp_drawRect_of_le (hsize : width.toNat * height.toNat * 4 ≤ 2 ^ 64) {rows cols : Nat}
    (hrows : rows ≤ height.toNat) (hcols : cols ≤ width.toNat) (hk : 2 ^ 32 ≤ k)
    (hs : s.mem = dotMemory pixels (width.toNat * height.toNat) k) :
    Prog.Wp fbExec (fun _ _ => True) (drawRect fb x y width pixels rows cols) s
      fun _ t => t.mem = s.mem := by
  apply Prog.wp_forAcc (fun _ _ t => t.mem = s.mem) rfl
  · intro row _ mid _ hrow hmid
    apply Prog.wp_forAcc (fun _ _ t => t.mem = s.mem) hmid
    · intro col _ mid' _ hcol hmid'
      have hindex : (BitVec.ofNat 32 row * width + BitVec.ofNat 32 col).toNat
          < width.toNat * height.toNat := toNat_index_lt (by omega) (by omega)
      have hne := (BitVec.ofNat 32 row * width + BitVec.ofNat 32 col).isLt.trans_le hk
      have hload : drawnWord (pictureAt mid'.mem pixels
          (BitVec.ofNat 32 row * width + BitVec.ofNat 32 col).toNat) = none := by
        rw [hmid', hs, pictureAt_dotMemory hsize hindex, if_neg hne.ne, drawnWord_zero]
      apply wp_fbDrawPixel trivial (fun _ => hmid')
      intro word hword
      rw [hload] at hword
      cases hword
    · exact fun _ _ ht => ht
  · exact fun _ _ ht => ht

end Dot

/-! ### Out of range -/

section OutOfRange

variable {fb : Framebuffer} {x y width height : BitVec 32} {pixels : BitVec 64}

variable (hready : fb.isReady) (hfits : fb.Fits)
  (hpicture : IsPicture fb pixels (width.toNat * height.toNat))
  (hx : x.toNat < fb.width.toNat) (hy : y.toNat < fb.height.toNat)
  (hall : ∀ mem, DrawsClipped ⟨fb, mem⟩ x y width height pixels)

include hready hpicture hx hy hall

theorem exists_pixel_of_forall_drawsClipped {row col : Nat}
    (hrow : row < (drawLength fb.height y height).toNat)
    (hcol : col < (drawLength fb.width x width).toNat)
    (hbefore : ∀ i j, Before (drawLength fb.width x width).toNat row col i j →
      TurnVisible fb x y i j) :
    ∃ q : fb.Pixel, drawAddr fb x y (BitVec.ofNat 32 row) (BitVec.ofNat 32 col) = fb.place q
      ∧ (x.toNat ≤ q.1.val ∧ q.1.val < x.toNat + width.toNat)
      ∧ (y.toNat ≤ q.2.val ∧ q.2.val < y.toNat + height.toNat)
      ∧ (q.2.val - y.toNat) * width.toNat + (q.1.val - x.toNat)
          = (BitVec.ofNat 32 row * width + BitVec.ofNat 32 col).toNat :=
  exists_pixel_of_drawsClipped (s := ⟨fb, dotMemory pixels (width.toNat * height.toNat) _⟩)
    hready hpicture hx hy hrow hcol rfl hbefore rfl (hall _)

/-- A word whose index does not wrap is stored to its own place. -/
theorem drawAddr_of_forall_drawsClipped {row col : Nat}
    (hrow : row < (drawLength fb.height y height).toNat)
    (hcol : col < (drawLength fb.width x width).toNat)
    (hindex : row * width.toNat + col < 2 ^ 32)
    (hbefore : ∀ i j, Before (drawLength fb.width x width).toNat row col i j →
      TurnVisible fb x y i j) :
    ∃ q : fb.Pixel, q.1.val = x.toNat + col ∧ q.2.val = y.toNat + row
      ∧ drawAddr fb x y (BitVec.ofNat 32 row) (BitVec.ofNat 32 col) = fb.place q := by
  obtain ⟨q, hq, hpx, hpy, hsource⟩ :=
    exists_pixel_of_forall_drawsClipped hready hpicture hx hy hall hrow hcol hbefore
  have hwidth := drawLength_le width hx
  rw [toNat_index hindex] at hsource
  obtain ⟨hrow', hcol'⟩ := eq_of_mul_add_eq (by omega) (by omega) hsource
  exact ⟨q, by omega, by omega, hq⟩

include hfits

/-- The corner of the image is drawn, so its row does not drift. -/
theorem drift_of_drawsClipped (hwidth : width.toNat ≠ 0) (hheight : height.toNat ≠ 0) :
    y.toNat * (fb.pitch.toNat % 4) = 0 := by
  obtain ⟨q, hcol, hrow, hq⟩ := drawAddr_of_forall_drawsClipped hready hpicture hx hy hall
    (drawLength_pos hy hheight) (drawLength_pos hx hwidth) (by omega)
    (fun i j hbefore => absurd hbefore (by rw [Before]; omega))
  have hy' := y.isLt
  have hx' := x.isLt
  rw [drawAddr_eq_addrOf q hrow hcol (by omega)] at hq
  have hdrift := hfits.drift_eq_zero hq
  rwa [hrow, Nat.add_zero] at hdrift

/-- An image that passes the right edge unclipped writes past the row. -/
theorem edgeInRange_width (hwidth : width.toNat ≠ 0) (hheight : height.toNat ≠ 0) :
    EdgeInRange fb.width x width := by
  by_contra hedge
  obtain ⟨hunclipped, hcol⟩ := drawLength_of_not_edgeInRange hx hedge
  have hdrift := drift_of_drawsClipped hready hfits hpicture hx hy hall hwidth hheight
  have hy' := y.isLt
  have hx' := x.isLt
  have hwidth' := width.isLt
  obtain ⟨q, hq₁, hq₂, hq⟩ := drawAddr_of_forall_drawsClipped hready hpicture hx hy hall
    (drawLength_pos hy hheight) (hunclipped ▸ hcol) (by omega) (by
      intro i j hbefore
      rw [Before] at hbefore
      obtain rfl : i = 0 := by omega
      exact turnVisible (by omega) (by omega) hdrift)
  -- The column was in the row, so it wraps to 0.
  have hq₁' := q.1.isLt
  have hwrap : (x.toNat + (min fb.width.toNat (2 ^ 32) - x.toNat)) % 2 ^ 32 = 0 := by omega
  have hfirst : fb.place q = fb.place (⟨0, by omega⟩, q.2) := by
    rw [← hq, drawAddr_eq, hwrap, ← hq₂, Nat.mod_eq_of_lt (by omega)]
    exact Framebuffer.addrOf_eq_place (p := (⟨0, by omega⟩, q.2)) (by rwa [hq₂])
  have hzero : q.1.val = 0 :=
    congrArg (fun p : fb.Pixel => p.1.val) (hfits.place_injective hfirst)
  omega

/-- A second row is at its place only if the pitch is a whole number of words. -/
theorem rows_of_drawsClipped (hwidth : width.toNat ≠ 0) (hheight : height.toNat ≠ 0) :
    fb.pitch.toNat % 4 = 0 ∨ y.toNat = 0 ∧ min height.toNat fb.height.toNat ≤ 1 := by
  by_contra hrows
  rw [not_or] at hrows
  have hdrift := drift_of_drawsClipped hready hfits hpicture hx hy hall hwidth hheight
  have hedge := edgeInRange_width hready hfits hpicture hx hy hall hwidth hheight
  have hy₀ : y.toNat = 0 := (Nat.mul_eq_zero.mp hdrift).resolve_right hrows.1
  have hlength := le_drawLength height hy
  have hcols := toNat_drawLength hx hedge
  have hwidth' := width.isLt
  have hx' := x.isLt
  rw [EdgeInRange] at hedge
  have hrow : 1 < (drawLength fb.height y height).toNat := by omega
  obtain ⟨q, hq₁, hq₂, hq⟩ := drawAddr_of_forall_drawsClipped hready hpicture hx hy hall
    hrow (drawLength_pos hx hwidth) (by omega) (by
      intro i j hbefore
      rw [Before] at hbefore
      obtain rfl : i = 0 := by omega
      exact turnVisible (by omega) (by omega) hdrift)
  rw [drawAddr_eq_addrOf q hq₂ hq₁ (by omega)] at hq
  have hdrift₁ := hfits.drift_eq_zero hq
  rw [hq₂, hy₀, Nat.zero_add, Nat.one_mul] at hdrift₁
  exact hrows.1 hdrift₁

/-- An image that passes the bottom edge unclipped writes past the last row. -/
theorem edgeInRange_height (hwidth : width.toNat ≠ 0) (hheight : height.toNat ≠ 0) :
    EdgeInRange fb.height y height := by
  by_contra hedge
  obtain ⟨hunclipped, hrow⟩ := drawLength_of_not_edgeInRange hy hedge
  have hedgeX := edgeInRange_width hready hfits hpicture hx hy hall hwidth hheight
  have hheight' := height.isLt
  have hx' := x.isLt
  have hpitch : fb.pitch.toNat % 4 = 0 := by
    rw [EdgeInRange] at hedge
    have := rows_of_drawsClipped hready hfits hpicture hx hy hall hwidth hheight
    omega
  have hcols := toNat_drawLength hx hedgeX
  rw [EdgeInRange] at hedgeX
  obtain ⟨q, hq, hpx, hpy, -⟩ := exists_pixel_of_forall_drawsClipped hready hpicture hx hy hall
    (hunclipped ▸ hrow) (drawLength_pos hx hwidth) (by
      intro i j hbefore
      rw [Before] at hbefore
      exact turnVisible (by omega) (by omega) (by rw [hpitch, Nat.mul_zero]))
  rw [drawAddr_eq, Nat.add_zero, Nat.mod_eq_of_lt hx'] at hq
  have hoffset := hfits.offset_eq_of_place hq
  have hlast := (hfits.offsetOf_bound q).1
  have hstride : fb.stride * 4 = fb.pitch.toNat := by
    rw [Framebuffer.stride]
    omega
  have hrows : (q.2.val + 1) * fb.pitch.toNat ≤ fb.height.toNat * fb.pitch.toNat :=
    Nat.mul_le_mul_right _ q.2.isLt
  have hpitch' := hfits.row
  have harea := hfits.area
  rw [Nat.add_mul, Nat.mul_assoc, hstride] at hoffset
  by_cases htall : fb.height.toNat < 2 ^ 32
  · have hbelow : (y.toNat + (min fb.height.toNat (2 ^ 32) - y.toNat)) % 2 ^ 32
        = fb.height.toNat := by omega
    rw [hbelow] at hoffset
    -- Past the end of the address space the word is before column `x` of row 0.
    have hcol : fb.offsetOf q = q.2.val * fb.pitch.toNat + 4 * q.1.val := rfl
    omega
  · have hwrap : (y.toNat + (min fb.height.toNat (2 ^ 32) - y.toNat)) % 2 ^ 32 = 0 := by omega
    have hrow₁ := Nat.mul_le_mul_right fb.pitch.toNat (by omega : 1 ≤ q.2.val)
    rw [hwrap] at hoffset
    rw [Framebuffer.offsetOf] at hoffset
    omega

omit hfits

/-- A picture whose last visible word has an index past 32 bits loses that word. -/
theorem index_lt_of_drawsClipped (hwidth : width.toNat ≠ 0) (hheight : height.toNat ≠ 0) :
    (min height.toNat (fb.height.toNat - y.toNat) - 1) * width.toNat
      + (min width.toNat (fb.width.toNat - x.toNat) - 1) < 2 ^ 32 := by
  by_contra hpast
  obtain ⟨row, hrow⟩ : ∃ row, min height.toNat (fb.height.toNat - y.toNat) - 1 = row := ⟨_, rfl⟩
  obtain ⟨col, hcol⟩ : ∃ col, min width.toNat (fb.width.toNat - x.toNat) - 1 = col := ⟨_, rfl⟩
  rw [hrow, hcol, Nat.not_lt] at hpast
  let p : fb.Pixel := (⟨x.toNat + col, by omega⟩, ⟨y.toNat + row, by omega⟩)
  let mem := dotMemory pixels (width.toNat * height.toNat) (row * width.toNat + col)
  obtain ⟨t, hrun, hpainted⟩ := (hall mem).painted
  have hsame : t.mem = mem :=
    ((wp_fbDrawImage (s := ⟨fb, mem⟩) hready hpicture.not_null hx hy).mpr
      ⟨trivial, wp_drawRect_of_le hpicture.size_le (drawLength_le height hy)
        (drawLength_le width hx) hpast rfl⟩).of_run hrun
  have hword := hpainted.word p
  have hcovered : (x.toNat ≤ x.toNat + col ∧ x.toNat + col < x.toNat + width.toNat)
      ∧ (y.toNat ≤ y.toNat + row ∧ y.toNat + row < y.toNat + height.toNat) := by omega
  have hdot : imageAt x y width height (pictureAt mem pixels) (x.toNat + col) (y.toNat + row)
      = some 0x00FFFFFF#32 := by
    rw [imageAt, if_pos hcovered, Nat.add_sub_cancel_left, Nat.add_sub_cancel_left,
      pictureAt_dotMemory hpicture.size_le (index_lt (by omega) (by omega)), if_pos rfl,
      drawnWord_white]
  rw [hsame, hpicture.readWord_dotMemory] at hword
  change _ = (imageAt x y width height (pictureAt mem pixels) (x.toNat + col) (y.toNat + row)).getD _
    at hword
  rw [hdot] at hword
  exact absurd hword (by decide)

end OutOfRange

/-- **A clipped blit.** On a ready framebuffer a picture that is an array of its own is drawn as the
clipped rectangle, whatever its words, exactly if the far edges and the index of the last visible word
stay in 32 bits and no row drawn to drifts. -/
theorem drawsClipped_iff_blitInRange {fb : Framebuffer} (hready : fb.isReady) (hfits : fb.Fits)
    {x y width height : BitVec 32} {pixels : BitVec 64}
    (hpicture : IsPicture fb pixels (width.toNat * height.toNat)) :
    (∀ mem, DrawsClipped ⟨fb, mem⟩ x y width height pixels) ↔ BlitInRange fb x y width height := by
  constructor
  · intro hall
    by_cases hout : fb.width.toNat ≤ x.toNat ∨ fb.height.toNat ≤ y.toNat
        ∨ width.toNat = 0 ∨ height.toNat = 0
    · exact Or.inl hout
    · simp only [not_or, Nat.not_le] at hout
      obtain ⟨hx, hy, hwidth, hheight⟩ := hout
      exact Or.inr ⟨edgeInRange_width hready hfits hpicture hx hy hall hwidth hheight,
        edgeInRange_height hready hfits hpicture hx hy hall hwidth hheight,
        index_lt_of_drawsClipped hready hpicture hx hy hall hwidth hheight,
        rows_of_drawsClipped hready hfits hpicture hx hy hall hwidth hheight⟩
  · exact fun hrange mem => drawsClipped_of_blitInRange (s := ⟨fb, mem⟩) hready hfits hpicture hrange

/-- A picture past the end of the screen is an array of its own. -/
theorem Framebuffer.Fits.isPicture {fb : Framebuffer} (hfits : fb.Fits) {pixels : BitVec 64}
    {size : Nat} (hnull : pixels ≠ 0#64)
    (hbelow : fb.address.toNat + fb.height.toNat * fb.pitch.toNat ≤ pixels.toNat)
    (hsize : pixels.toNat + size * 4 ≤ 2 ^ 64) : IsPicture fb pixels size where
  not_null := hnull
  size_le := by omega
  apart := by
    intro k hk p
    have hbound := hfits.offsetOf_bound p
    have hrow : (p.2.val + 1) * fb.pitch.toNat ≤ fb.height.toNat * fb.pitch.toNat :=
      Nat.mul_le_mul_right _ p.2.isLt
    rw [place, BitVec.toNat_sub, BitVec.toNat_add, BitVec.toNat_add, BitVec.toNat_ofNat,
      BitVec.toNat_ofNat]
    omega

def smallScreen : Framebuffer := { smallFramebuffer with isReady := true }

theorem smallScreen_fits : smallScreen.Fits :=
  ⟨smallFramebuffer_fits.row, smallFramebuffer_fits.area⟩

theorem smallScreen_isPicture (width height : BitVec 32)
    (hsize : width.toNat * height.toNat < 2 ^ 32) :
    IsPicture smallScreen 0x2000#64 (width.toNat * height.toNat) := by
  have hstart : (0x2000#64 : BitVec 64).toNat = 0x2000 := rfl
  apply smallScreen_fits.isPicture (by decide) (by decide)
  omega

theorem drawsClipped_iff_blitInRange_small :
    DrawsClipped ⟨smallScreen, dotMemory 0x2000#64 4 0⟩ 1#32 1#32 2#32 2#32 0x2000#64 :=
  (drawsClipped_iff_blitInRange rfl smallScreen_fits
    (smallScreen_isPicture 2#32 2#32 (by decide))).mpr
    (Or.inr ⟨Or.inl (by decide), Or.inl (by decide), by decide, Or.inl (by decide)⟩) _

/-- At column 1, an image of width `0xFFFFFFFF` has its right edge at 0: it is not clipped, and its
second word goes to the padding of the row. -/
theorem not_drawsClipped_of_wide_image :
    smallScreen.isReady ∧ smallScreen.Fits
      ∧ IsPicture smallScreen 0x2000#64 (BitVec.toNat 0xFFFFFFFF#32 * BitVec.toNat 1#32)
      ∧ ¬ DrawsClipped ⟨smallScreen, dotMemory 0x2000#64 0xFFFFFFFF 1⟩
          1#32 0#32 0xFFFFFFFF#32 1#32 0x2000#64 := by
  have hpicture := smallScreen_isPicture 0xFFFFFFFF#32 1#32 (by decide)
  refine ⟨rfl, smallScreen_fits, hpicture, fun hdraws => ?_⟩
  obtain ⟨q, hq, -⟩ := exists_pixel_of_drawsClipped rfl hpicture (by decide) (by decide)
    (by decide : 0 < _) (by decide : 1 < _) (by decide) (by
      intro i j hbefore
      rw [Before] at hbefore
      obtain ⟨rfl, rfl⟩ : i = 0 ∧ j = 0 := by omega
      exact turnVisible (by decide) (by decide) (by decide)) rfl hdraws
  have hoffset := smallScreen_fits.offset_eq_of_place (k := 8) (p := q) hq
  have hcol : q.1.val < 2 := q.1.isLt
  have hplace : smallScreen.offsetOf q = q.2.val * 12 + 4 * q.1.val := rfl
  omega

/-- A picture that starts one word before the screen has its second word overwritten by the first:
all in range, and still it is drawn wrong. -/
theorem not_drawsClipped_of_overlap :
    BlitInRange smallScreen 0#32 0#32 2#32 1#32
      ∧ ¬ DrawsClipped ⟨smallScreen, fun _ => 0xFF#8⟩ 0#32 0#32 2#32 1#32 0xFFC#64 := by
  refine ⟨Or.inr ⟨Or.inl (by decide), Or.inl (by decide), by decide, Or.inl (by decide)⟩, ?_⟩
  rintro ⟨⟨t, hrun, hpainted⟩, -⟩
  obtain rfl := congrArg Prod.snd (Option.some.inj hrun)
  exact absurd (hpainted.word (⟨1, by decide⟩, ⟨0, by decide⟩)) (by decide)

end RainstormOs
