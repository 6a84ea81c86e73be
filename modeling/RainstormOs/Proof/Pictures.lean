import RainstormOs.Proof.DrawImage
import RainstormOs.Tools.ImageConvert

/-!
# From an image file to the screen

What `image_convert.py` prints is compiled into the kernel and drawn by `fb_draw_image`. Over a whole
session of drawing, plotting and clearing, every pixel reads as the last thing that covered it, and
where that was an image, as the colour the image had there. Pixels whose alpha is zero cover nothing.

The compiled arrays lie in memory, off the screen, and are read from there each time: what keeps them
through a session is that the driver writes nothing but pixels.
-/

namespace RainstormOs

open ByteMemory

/-! ### The lines read back -/

theorem hexDigitValue_hexDigit : ∀ digit < 16, hexDigitValue (hexDigit digit) = some digit := by
  decide

theorem hexDigit_ne_comma : ∀ digit < 16, hexDigit digit ≠ ',' := by decide

theorem hexValue_map_hexDigit {digits : List Nat} (h : ∀ digit ∈ digits, digit < 16) :
    hexValue (digits.map hexDigit)
      = some (digits.foldl (fun value digit => 16 * value + digit) 0) := by
  suffices hfold : ∀ value, (digits.map hexDigit).foldlM
      (fun value c => (hexDigitValue c).map fun digit => 16 * value + digit) value
        = some (digits.foldl (fun value digit => 16 * value + digit) value) from hfold 0
  induction digits with
  | nil => exact fun value => rfl
  | cons digit digits ih =>
      intro value
      rw [List.map_cons, List.foldlM_cons, hexDigitValue_hexDigit digit (h digit List.mem_cons_self)]
      exact ih (fun d hd => h d (List.mem_cons_of_mem _ hd)) _

/-- The digits of `{value:08X}`. -/
def digits08X (value : Nat) : List Nat :=
  List.replicate (8 - (Nat.digits 16 value).length) 0 ++ (Nat.digits 16 value).reverse

theorem format08X_eq (value : Nat) : format08X value = (digits08X value).map hexDigit := by
  rw [format08X, digits08X, List.map_append, List.map_replicate, List.length_map, List.length_reverse]
  rfl

theorem digits08X_lt {value digit : Nat} (h : digit ∈ digits08X value) : digit < 16 := by
  rcases List.mem_append.mp h with h | h
  · rw [List.eq_of_mem_replicate h]
    decide
  · exact Nat.digits_lt_base (by decide) (List.mem_reverse.mp h)

theorem foldl_digits08X (value : Nat) :
    (digits08X value).foldl (fun value digit => 16 * value + digit) 0 = value := by
  have hzeros : ∀ count,
      (List.replicate count 0).foldl (fun value digit => 16 * value + digit) 0 = 0 := by
    intro count
    induction count with
    | zero => rfl
    | succ count ih => exact ih
  rw [digits08X, List.foldl_append, hzeros, List.foldl_reverse]
  calc (Nat.digits 16 value).foldr (fun digit value => 16 * value + digit) 0
      = Nat.ofDigits 16 (Nat.digits 16 value) := by
        rw [Nat.ofDigits_eq_foldr]
        simp only [Nat.cast_id, Nat.add_comm]
    _ = value := Nat.ofDigits_digits 16 value

theorem exists_format08X (value : Nat) : ∃ digit digits, format08X value = digit :: digits := by
  have hlength : 0 < (format08X value).length := by
    rw [format08X_eq, List.length_map, digits08X, List.length_append, List.length_replicate,
      List.length_reverse]
    omega
  exact List.exists_cons_of_length_pos hlength

theorem element_pixelLine (value : Nat) :
    element (pixelLine value) = some (BitVec.ofNat 32 value) := by
  have hdigits : ∀ c ∈ format08X value, decide (c ≠ ',') = true := by
    intro c hc
    rw [format08X_eq] at hc
    obtain ⟨digit, hdigit, rfl⟩ := List.mem_map.mp hc
    exact decide_eq_true (hexDigit_ne_comma digit (digits08X_lt hdigit))
  have hvalue : hexValue (format08X value) = some value := by
    rw [format08X_eq, hexValue_map_hexDigit fun _ => digits08X_lt, foldl_digits08X]
  have hconstant : ((pixelLine value).dropWhile (· = ' ')).takeWhile (· ≠ ',')
      = '0' :: 'x' :: format08X value := by
    change List.takeWhile _ ('0' :: 'x' :: (format08X value ++ [','])) = _
    rw [List.takeWhile_cons_of_pos (by decide), List.takeWhile_cons_of_pos (by decide),
      List.takeWhile_append_of_pos hdigits]
    simp
  obtain ⟨digit, digits, hcons⟩ := exists_format08X value
  rw [element, hconstant, hcons, hexConstant, ← hcons, hvalue]
  rfl

/-! ### The array -/

/-- The words of the compiled array. -/
def Image.words (img : Image) : List (BitVec 32) :=
  (List.range img.height).flatMap fun y =>
    (List.range img.width).map fun x => BitVec.ofNat 32 (img.getpixel x y).pixel

theorem initializer_map_pixelLine (values : List Nat) :
    initializer (values.map pixelLine) = some (values.map (BitVec.ofNat 32)) := by
  induction values with
  | nil => rfl
  | cons value values ih =>
      rw [initializer] at ih
      rw [initializer, List.map_cons, List.mapM_cons, element_pixelLine, ih]
      rfl

theorem initializer_pixelLines (img : Image) : initializer (pixelLines img) = some img.words := by
  have hlines : pixelLines img = ((List.range img.height).flatMap fun y =>
      (List.range img.width).map fun x => (img.getpixel x y).pixel).map pixelLine := by
    rw [pixelLines, List.map_flatMap]
    simp only [List.map_map]
    rfl
  rw [hlines, initializer_map_pixelLine, List.map_flatMap, Image.words]
  simp only [List.map_map]
  rfl

section Rows

variable {α : Type} {rows cols : Nat} {entry : Nat → Nat → α}

theorem length_rows :
    ((List.range rows).flatMap fun y => (List.range cols).map fun x => entry x y).length
      = rows * cols := by
  simp

/-- Row by row, the entry of a row and a column. -/
theorem getElem?_rows {row col : Nat} (hrow : row < rows) (hcol : col < cols) :
    ((List.range rows).flatMap fun y => (List.range cols).map fun x => entry x y)[row * cols + col]?
      = some (entry col row) := by
  induction rows with
  | zero => omega
  | succ rows ih =>
      rw [List.range_succ, List.flatMap_append, List.flatMap_singleton]
      obtain hlast | rfl := Nat.lt_succ_iff_lt_or_eq.mp hrow
      · have hindex : row * cols + col < rows * cols := by
          calc row * cols + col < row * cols + cols := by omega
            _ = (row + 1) * cols := (Nat.succ_mul _ _).symm
            _ ≤ rows * cols := Nat.mul_le_mul_right _ hlast
        rw [List.getElem?_append_left (by rw [length_rows]; exact hindex)]
        exact ih hlast
      · rw [List.getElem?_append_right (by rw [length_rows]; omega), length_rows,
          Nat.add_sub_cancel_left]
        simp [hcol]

end Rows

/-! ### Colours -/

namespace Rgba

def color (c : Rgba) : FbColor := ⟨c.red, c.green, c.blue⟩

theorem getLsbD_pixel (c : Rgba) {i : Nat} (hi : i < 32) :
    (BitVec.ofNat 32 c.pixel).getLsbD i
      = if i < 24 then c.color.toWord.getLsbD i else c.alpha.getLsbD (i - 24) := by
  rw [FbColor.getLsbD_toWord _ hi, BitVec.getLsbD_ofNat, pixel]
  simp only [Nat.testBit_or, Nat.testBit_shiftLeft, BitVec.testBit_toNat, color]
  have hred := BitVec.getLsbD_of_ge c.red (i - 16)
  have hgreen := BitVec.getLsbD_of_ge c.green (i - 8)
  have hblue := BitVec.getLsbD_of_ge c.blue i
  grind

/-- What the word of a pixel writes. -/
theorem drawnWord_pixel (c : Rgba) :
    drawnWord (BitVec.ofNat 32 c.pixel) = if c.alpha = 0#8 then none else some c.color.toWord := by
  have halpha : (BitVec.ofNat 32 c.pixel >>> 24) &&& 0xFF#32 = c.alpha.setWidth 32 := by
    apply BitVec.eq_of_getLsbD_eq
    intro i hi
    rw [BitVec.getLsbD_and, BitVec.getLsbD_ushiftRight, getLsbD_byteMask, BitVec.getLsbD_setWidth]
    by_cases hbyte : i < 8
    · rw [getLsbD_pixel c (by omega), if_neg (by omega), Nat.add_sub_cancel_left]
      simp [hi, hbyte]
    · rw [BitVec.getLsbD_of_ge c.alpha i (by omega)]
      simp [hbyte]
  have hcolor : BitVec.ofNat 32 c.pixel &&& 0x00FFFFFF#32 = c.color.toWord := by
    have hmask : 0x00FFFFFF#32 = (BitVec.allOnes 24).setWidth 32 := rfl
    apply BitVec.eq_of_getLsbD_eq
    intro i hi
    rw [BitVec.getLsbD_and, hmask, BitVec.getLsbD_setWidth, BitVec.getLsbD_allOnes,
      getLsbD_pixel c hi]
    by_cases hlow : i < 24
    · simp [hi, hlow]
    · rw [FbColor.getLsbD_toWord _ hi, if_neg (by omega : ¬ i < 8), if_neg (by omega : ¬ i < 16),
        BitVec.getLsbD_of_ge c.color.red (i - 16) (by omega)]
      simp [hlow]
  have hzero : c.alpha.setWidth 32 = 0#32 ↔ c.alpha = 0#8 := by
    rw [← BitVec.toNat_inj, ← BitVec.toNat_inj, BitVec.toNat_setWidth,
      Nat.mod_eq_of_lt (by have := c.alpha.isLt; omega)]
    rfl
  rw [drawnWord, halpha, hcolor]
  exact if_congr hzero rfl rfl

end Rgba

/-! ### Sessions -/

/-- The compiled array, as `fb_draw_image` indexes it. -/
def Image.array (img : Image) : Nat → BitVec 32 :=
  fun i => ((initializer (pixelLines img)).getD []).getD i 0#32

theorem Image.array_eq {img : Image} {row col : Nat} (hrow : row < img.height)
    (hcol : col < img.width) :
    img.array (row * img.width + col) = BitVec.ofNat 32 (img.getpixel col row).pixel := by
  rw [array, initializer_pixelLines, Option.getD_some, List.getD_eq_getElem?_getD, words,
    getElem?_rows hrow hcol]
  rfl

inductive PictureCall where
  | paint (call : FbCall)
  | draw (x y : BitVec 32) (pixels : BitVec 64) (img : Image)

namespace PictureCall

def prog : PictureCall → FbProg Unit
  | .paint call => call.prog
  | .draw x y pixels img =>
      fbDrawImage x y (BitVec.ofNat 32 img.width) (BitVec.ofNat 32 img.height) pixels

/-- The colour a call gives a pixel; none if it does not cover it. -/
def colorAt (px py : Nat) : PictureCall → Option FbColor
  | .paint call => call.colorAt px py
  | .draw x y _ img =>
      if (x.toNat ≤ px ∧ px < x.toNat + img.width) ∧ (y.toNat ≤ py ∧ py < y.toNat + img.height) then
        let c := img.getpixel (px - x.toNat) (py - y.toNat)
        if c.alpha = 0#8 then none else some c.color
      else none

/-- The colour of the last call that covers a pixel. -/
def lastColor (calls : List PictureCall) (px py : Nat) : Option FbColor :=
  calls.reverse.findSome? (colorAt px py)

/-- The arguments of a call do not wrap, and what it draws is an array of its own. -/
def InRange (fb : Framebuffer) : PictureCall → Prop
  | .paint _ => True
  | .draw x y pixels img => img.width < 2 ^ 32 ∧ img.height < 2 ^ 32
      ∧ BlitInRange fb x y (BitVec.ofNat 32 img.width) (BitVec.ofNat 32 img.height)
      ∧ IsPicture fb pixels img.words.length

/-- The compiled array is in memory where the call looks for it. -/
def Loaded (mem : ByteMemory 64) : PictureCall → Prop
  | .paint _ => True
  | .draw _ _ pixels img => ∀ i, i < img.words.length → pictureAt mem pixels i = img.array i

end PictureCall

/-- A read of a picture is of a word of an array that one of the calls draws. -/
def FbCmd.ReadsImages (calls : List PictureCall) : FbCmd → Prop
  | .pixel pixels index => ∃ x y img, .draw x y pixels img ∈ calls ∧ index < img.words.length
  | _ => True

def pictureSession (fb : Framebuffer) (calls : List PictureCall) : FbProg Unit := do
  fbInit fb
  Prog.forList PictureCall.prog calls

section Reads

variable {s : FbState} {calls : List PictureCall}

theorem wp_fbCall_reads (call : FbCall) :
    Prog.Wp fbExec (fun _ c => c.ReadsImages calls) call.prog s fun _ _ => True := by
  cases call with
  | plot x y color =>
      rw [FbCall.prog, fbPlotPixel, Prog.wp_bind, wp_getFramebuffer]
      refine ⟨trivial, ?_⟩
      split
      · trivial
      · split
        · trivial
        · split
          · trivial
          · exact wp_store32.mpr ⟨trivial, trivial⟩
  | clear color =>
      rw [FbCall.prog, fbClearScreen, Prog.wp_bind, wp_getFramebuffer]
      refine ⟨trivial, ?_⟩
      split
      · trivial
      · apply Prog.wp_forAcc (fun _ _ _ => True) trivial
        · intro y _ mid _ _ _
          apply Prog.wp_forAcc (fun _ _ _ => True) trivial
          · exact fun x _ mid _ _ _ => wp_store32.mpr ⟨trivial, trivial⟩
          · exact fun _ _ _ => trivial
        · exact fun _ _ _ => trivial

/-- Drawing reads no picture but its own, and leaves the driver's variable alone. -/
theorem wp_fbDrawImage_reads (x y width height : BitVec 32) (pixels : BitVec 64) :
    Prog.Wp fbExec (fun _ c => ∀ pixels' index, c = .pixel pixels' index → pixels' = pixels)
      (fbDrawImage x y width height pixels) s fun _ t => t.framebuffer = s.framebuffer := by
  rw [fbDrawImage, Prog.wp_bind, wp_getFramebuffer]
  refine ⟨fun _ _ heq => FbCmd.noConfusion heq, ?_⟩
  split
  · exact rfl
  · split
    · exact rfl
    · split
      · exact rfl
      · split
        · exact rfl
        · apply Prog.wp_forAcc (fun _ _ t => t.framebuffer = s.framebuffer) rfl
          · intro row _ mid _ _ hmid
            apply Prog.wp_forAcc (fun _ _ t => t.framebuffer = s.framebuffer) hmid
            · intro col _ mid' _ _ hmid'
              apply wp_fbDrawPixel
              · intro _ _ heq
                exact (FbCmd.pixel.inj heq).1.symm
              · exact fun _ => hmid'
              · intro word _
                exact wp_store32.mpr ⟨fun _ _ heq => FbCmd.noConfusion heq, hmid'⟩
            · exact fun _ _ ht => ht
          · exact fun _ _ ht => ht

end Reads

theorem Image.toNat_size {img : Image} (hwidth : img.width < 2 ^ 32) (hheight : img.height < 2 ^ 32) :
    (BitVec.ofNat 32 img.width).toNat * (BitVec.ofNat 32 img.height).toNat = img.words.length := by
  rw [BitVec.toNat_ofNat, BitVec.toNat_ofNat, Nat.mod_eq_of_lt hwidth, Nat.mod_eq_of_lt hheight,
    words, length_rows, Nat.mul_comm]

namespace PictureCall

theorem lastColor_append (calls : List PictureCall) (call : PictureCall) (px py : Nat) :
    lastColor (calls ++ [call]) px py = (call.colorAt px py).or (lastColor calls px py) := by
  rw [lastColor, List.reverse_append, List.reverse_singleton, List.singleton_append,
    List.findSome?_cons]
  cases call.colorAt px py <;> rfl

variable {fb : Framebuffer} {s : FbState}

/-- The image the driver draws is the image the tool was given. -/
theorem Loaded.imageAt_eq {x y : BitVec 32} {pixels : BitVec 64} {img : Image}
    (hwidth : img.width < 2 ^ 32) (hheight : img.height < 2 ^ 32)
    (hloaded : Loaded s.mem (.draw x y pixels img)) (px py : Nat) :
    imageAt x y (BitVec.ofNat 32 img.width) (BitVec.ofNat 32 img.height) (pictureAt s.mem pixels) px py
      = (colorAt px py (.draw x y pixels img)).map FbColor.toWord := by
  rw [imageAt, BitVec.toNat_ofNat, BitVec.toNat_ofNat, Nat.mod_eq_of_lt hwidth,
    Nat.mod_eq_of_lt hheight, colorAt]
  by_cases hin : (x.toNat ≤ px ∧ px < x.toNat + img.width) ∧ (y.toNat ≤ py ∧ py < y.toNat + img.height)
  · have hindex : (py - y.toNat) * img.width + (px - x.toNat) < img.words.length := by
      rw [Image.words, length_rows, Nat.mul_comm img.height]
      exact index_lt (by omega) (by omega)
    rw [if_pos hin, if_pos hin, hloaded _ hindex, Image.array_eq (by omega) (by omega),
      Rgba.drawnWord_pixel, apply_ite (Option.map FbColor.toWord)]
    rfl
  · rw [if_neg hin, if_neg hin]
    rfl

/-- As long as only pixels are written, the arrays stay. -/
theorem Loaded.of_painted {call : PictureCall} {mem mem' : ByteMemory 64} (h : call.Loaded mem)
    (hrange : call.InRange fb) (hkept : ∀ addr, Outside 4 fb.place addr → mem' addr = mem addr) :
    call.Loaded mem' := by
  cases call with
  | paint call => trivial
  | draw x y pixels img =>
      intro i hi
      rw [hrange.2.2.2.pictureAt_eq hkept hi]
      exact h i hi

theorem wp_prog (hfits : fb.Fits) (hready : fb.isReady) (hrows : fb.RowsOnPitch)
    (hs : s.framebuffer = fb) {calls : List PictureCall} {call : PictureCall} (hmem : call ∈ calls)
    (hrange : call.InRange fb) (hloaded : call.Loaded s.mem) :
    Prog.Wp fbExec (fun _ c => c.StoresTo fb.place ∧ c.ReadsImages calls) call.prog s fun _ t =>
      t.Shows fb fb.place (fun p => (call.colorAt p.1.val p.2.val).map FbColor.toWord) s.mem := by
  cases call with
  | paint call =>
      rw [← hrows.addrOf_eq]
      apply ((FbCall.wp_prog hfits hready hs call).and (wp_fbCall_reads call)).post
      exact fun _ t ht => ht.1
  | draw x y pixels img =>
      obtain ⟨hwidth, hheight, hblit, hpicture⟩ := hrange
      subst hs
      rw [← Image.toNat_size hwidth hheight] at hpicture
      have hdraws := drawsClipped_of_blitInRange hready hfits hpicture hblit
      have hreads := @wp_fbDrawImage_reads s x y (BitVec.ofNat 32 img.width)
        (BitVec.ofNat 32 img.height) pixels
      apply Prog.wp_of_visits
      · intro mid c hvisit
        obtain ⟨hstores, hbelow⟩ := hdraws.commands mid c hvisit
        have hown := hreads.of_visits hvisit
        refine ⟨hstores, ?_⟩
        cases c with
        | pixel pixels' index =>
            rw [Image.toNat_size hwidth hheight] at hbelow
            obtain rfl := hown pixels' index rfl
            exact ⟨x, y, img, hmem, hbelow⟩
        | _ => trivial
      · intro _ t hrun
        obtain ⟨t', hrun', hpainted⟩ := hdraws.painted
        obtain ⟨-, rfl⟩ := Prod.mk.inj (Option.some.inj (hrun'.symm.trans hrun))
        refine ⟨hreads.of_run hrun, hpainted.congr fun p => ?_⟩
        exact hloaded.imageAt_eq hwidth hheight p.1.val p.2.val

end PictureCall

theorem wp_pictureSession {fb : Framebuffer} (hfits : fb.Fits) (hrows : fb.RowsOnPitch)
    {calls : List PictureCall} (hrange : ∀ call ∈ calls, call.InRange fb) {s : FbState}
    (hloaded : ∀ call ∈ calls, call.Loaded s.mem) :
    Prog.Wp fbExec (fun _ c => c.StoresTo fb.place ∧ c.ReadsImages calls) (pictureSession fb calls) s
      fun _ t => t.Shows { fb with isReady := true } fb.place
        (fun p => (PictureCall.lastColor calls p.1.val p.2.val).map FbColor.toWord) s.mem := by
  rw [pictureSession, Prog.wp_bind, fbInit, wp_setFramebuffer]
  refine ⟨⟨trivial, trivial⟩, ?_⟩
  have hfits' : ({ fb with isReady := true } : Framebuffer).Fits := ⟨hfits.row, hfits.area⟩
  apply Prog.wp_forList fun done t => t.Shows { fb with isReady := true } fb.place
    (fun p => (PictureCall.lastColor done p.1.val p.2.val).map FbColor.toWord) s.mem
  · exact ⟨rfl, Painted.refl s.mem⟩
  · intro done call rest mid hsplit hmid
    have hmem : call ∈ calls := by
      rw [hsplit]
      exact List.mem_append_right _ List.mem_cons_self
    have hcall : call.InRange { fb with isReady := true } := by
      have hin := hrange call hmem
      cases call with
      | paint call => trivial
      | draw x y pixels img =>
          exact ⟨hin.1, hin.2.1, hin.2.2.1, hin.2.2.2.not_null, hin.2.2.2.size_le, hin.2.2.2.apart⟩
    have hstays := (hloaded call hmem).of_painted hcall hmid.painted.outside
    apply (PictureCall.wp_prog hfits' rfl hrows hmid.framebuffer hmem hcall hstays).post
    intro _ t ht
    refine ⟨ht.framebuffer, (hmid.painted.trans ht.painted).congr fun p => ?_⟩
    rw [PictureCall.lastColor_append]
    cases call.colorAt p.1.val p.2.val <;> rfl
  · exact fun _ ht => ht

/-- **Images reach the screen.** After `fb_init` and any calls that draw converted images from memory,
plot and clear, a pixel reads as the colour of the last call that covers it. Only pixels were written,
and only words of the arrays drawn were read. -/
theorem pictureSession_composes {fb : Framebuffer} (hfits : fb.Fits) (hrows : fb.RowsOnPitch)
    {calls : List PictureCall} (hrange : ∀ call ∈ calls, call.InRange fb) {s : FbState}
    (hloaded : ∀ call ∈ calls, call.Loaded s.mem) :
    (∃ t, Prog.run fbExec (pictureSession fb calls) s = some ((), t)
        ∧ (∀ (x y : BitVec 32) (hx : x.toNat < fb.width.toNat) (hy : y.toNat < fb.height.toNat),
            Prog.run fbExec (fbGetPixel x y) t = some
              ((PictureCall.lastColor calls x.toNat y.toNat).getD (FbColor.ofWord
                (s.mem.readWord (fb.place (⟨x.toNat, hx⟩, ⟨y.toNat, hy⟩)) 4)), t))
        ∧ ∀ addr, Outside 4 fb.place addr → t.mem addr = s.mem addr)
      ∧ ∀ mid c, Prog.Visits fbExec (pictureSession fb calls) s mid c →
          c.StoresTo fb.place ∧ c.ReadsImages calls := by
  have hwp := wp_pictureSession hfits hrows hrange hloaded
  refine ⟨?_, fun mid c hvisit => hwp.of_visits hvisit⟩
  obtain ⟨_, t, hrun, hshows⟩ := hwp.returns fun mid c _ => fbExec_ne_none mid c
  refine ⟨t, hrun, fun x y hx hy => ?_, hshows.painted.outside⟩
  have hready : t.framebuffer.isReady := by rw [hshows.framebuffer]
  rw [run_fbGetPixel hready x y, hshows.framebuffer]
  refine congrArg (fun color => some (color, t)) ?_
  change (if x.toNat < fb.width.toNat ∧ y.toNat < fb.height.toNat then _ else _) = _
  rw [if_pos ⟨hx, hy⟩]
  have hword := hshows.painted.word (⟨x.toNat, hx⟩, ⟨y.toNat, hy⟩)
  rw [← hrows.addrOf_eq] at hword ⊢
  apply (congrArg FbColor.ofWord hword).trans
  cases hlast : PictureCall.lastColor calls x.toNat y.toNat with
  | none => rfl
  | some color => exact color.ofWord_toWord

/-- A column of two pixels, the lower one transparent. -/
def smallImage : Image where
  width := 1
  height := 2
  getpixel _ y := if y = 0 then ⟨1#8, 2#8, 3#8, 255#8⟩ else ⟨9#8, 9#8, 9#8, 0#8⟩

def smallImageMemory : ByteMemory 64 := fun addr =>
  if addr.toNat < 0x2004 then [3#8, 2#8, 1#8, 255#8].getD (addr.toNat - 0x2000) 0#8
  else [9#8, 9#8, 9#8].getD (addr.toNat - 0x2004) 0#8

def smallPictureCalls : List PictureCall :=
  [.paint (.clear ⟨40#8, 40#8, 60#8⟩), .draw 1#32 0#32 0x2000#64 smallImage]

theorem pictureSession_composes_small :
    ∃ t, Prog.run fbExec (pictureSession smallFramebuffer smallPictureCalls)
          ⟨smallFramebuffer, smallImageMemory⟩ = some ((), t)
      ∧ Prog.run fbExec (fbGetPixel 1#32 0#32) t = some (⟨1#8, 2#8, 3#8⟩, t)
      ∧ Prog.run fbExec (fbGetPixel 1#32 1#32) t = some (⟨40#8, 40#8, 60#8⟩, t) := by
  have hrange : ∀ call ∈ smallPictureCalls, call.InRange smallFramebuffer := by
    intro call hcall
    simp only [smallPictureCalls, List.mem_cons, List.not_mem_nil, or_false] at hcall
    obtain rfl | rfl := hcall
    · trivial
    · exact ⟨by decide, by decide,
        Or.inr ⟨Or.inl (by decide), Or.inl (by decide), by decide, Or.inl (by decide)⟩,
        smallFramebuffer_fits.isPicture (by decide) (by decide) (by decide)⟩
  have hloaded : ∀ call ∈ smallPictureCalls, call.Loaded smallImageMemory := by
    intro call hcall
    simp only [smallPictureCalls, List.mem_cons, List.not_mem_nil, or_false] at hcall
    obtain rfl | rfl := hcall
    · trivial
    · rw [PictureCall.Loaded, Image.words, length_rows]
      decide
  obtain ⟨⟨t, hrun, hpixels, -⟩, -⟩ := pictureSession_composes smallFramebuffer_fits
    (Or.inl (by decide)) hrange (s := ⟨smallFramebuffer, smallImageMemory⟩) hloaded
  exact ⟨t, hrun, hpixels 1#32 0#32 (by decide) (by decide),
    hpixels 1#32 1#32 (by decide) (by decide)⟩

end RainstormOs
