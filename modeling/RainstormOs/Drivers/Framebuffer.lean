import RainstormOs.Lib.Prog
import RainstormOs.Lib.WordArray

/-!
# `drivers/screen/framebuffer.c`

A linear framebuffer of 32-bit pixels. Its width, height and pitch are 64-bit numbers, the pitch in
bytes; coordinates are 32-bit, and where the C code adds or multiplies two of them it does so in 32
bits.

The driver reaches memory through its own pointer, so its commands are loads and stores of 32-bit
words at virtual addresses. The picture an image is drawn from lies in the same memory: its words are
loaded as the loop comes to them, and a store before that may have changed them. Loads of the picture
are a command of their own, with the index as the code forms it.
-/

namespace RainstormOs

/-- `framebuffer_t`. -/
structure Framebuffer where
  address : BitVec 64
  width : BitVec 64
  height : BitVec 64
  pitch : BitVec 64
  isReady : Bool

/-- `fb_color_t`. -/
@[ext]
structure FbColor where
  red : BitVec 8
  green : BitVec 8
  blue : BitVec 8
deriving DecidableEq

inductive FbCmd where
  | load32 (addr : BitVec 64)
  | store32 (addr : BitVec 64) (word : BitVec 32)
  | pixel (pixels : BitVec 64) (index : Nat)
  | framebuffer
  | setFramebuffer (framebuffer : Framebuffer)

abbrev FbCmd.Reply : FbCmd → Type
  | .load32 _ => BitVec 32
  | .pixel _ _ => BitVec 32
  | .framebuffer => Framebuffer
  | _ => Unit

/-- The driver's static variable and memory as its pointer sees it. -/
structure FbState where
  framebuffer : Framebuffer
  mem : ByteMemory 64

def fbExec : (command : FbCmd) → FbState → Option (command.Reply × FbState)
  | .load32 addr, s => some (s.mem.readWord addr 4, s)
  | .store32 addr word, s => some ((), { s with mem := s.mem.writeWord addr 4 word })
  | .pixel pixels index, s => some (s.mem.readWord (ByteMemory.slotAddr pixels 4 index) 4, s)
  | .framebuffer, s => some (s.framebuffer, s)
  | .setFramebuffer framebuffer, s => some ((), { s with framebuffer := framebuffer })

abbrev FbProg (α : Type) := Prog FbCmd FbCmd.Reply α

def load32 (addr : BitVec 64) : FbProg (BitVec 32) := Prog.issue (FbCmd.load32 addr)

def store32 (addr : BitVec 64) (word : BitVec 32) : FbProg Unit :=
  Prog.issue (FbCmd.store32 addr word)

/-- `pixels[index]`. -/
def loadPixel (pixels : BitVec 64) (index : Nat) : FbProg (BitVec 32) :=
  Prog.issue (FbCmd.pixel pixels index)

def getFramebuffer : FbProg Framebuffer := Prog.issue FbCmd.framebuffer

def setFramebuffer (framebuffer : Framebuffer) : FbProg Unit :=
  Prog.issue (FbCmd.setFramebuffer framebuffer)

/-! ### Colours -/

/-- The macros `RED`, `GREEN` and `BLUE`, or'ed together. -/
def FbColor.toWord (color : FbColor) : BitVec 32 :=
  ((color.red.setWidth 32 &&& 0xFF#32) <<< 16) ||| ((color.green.setWidth 32 &&& 0xFF#32) <<< 8)
    ||| (color.blue.setWidth 32 &&& 0xFF#32)

/-- The macros `GET_RED`, `GET_GREEN` and `GET_BLUE`. -/
def FbColor.ofWord (word : BitVec 32) : FbColor where
  red := ((word >>> 16) &&& 0xFF#32).setWidth 8
  green := ((word >>> 8) &&& 0xFF#32).setWidth 8
  blue := (word &&& 0xFF#32).setWidth 8

/-! ### The driver -/

/-- The address of `framebuffer.address[index]`. -/
def Framebuffer.pixelPtr (framebuffer : Framebuffer) (index : BitVec 64) : BitVec 64 :=
  framebuffer.address + index * 4#64

/-- `fb_init` copies the fields one by one and ignores the caller's `is_ready`. -/
def fbInit (fb : Framebuffer) : FbProg Unit :=
  setFramebuffer { fb with isReady := true }

def fbClearScreen (clearColor : FbColor) : FbProg Unit := do
  let framebuffer ← getFramebuffer
  if ¬ framebuffer.isReady then
    pure ()
  else
    Prog.forAcc
      (fun y () =>
        Prog.forAcc
          (fun x () =>
            store32
              (framebuffer.pixelPtr
                (BitVec.ofNat 64 y * (framebuffer.pitch / 4#64) + BitVec.ofNat 64 x))
              clearColor.toWord)
          framebuffer.width.toNat 0 ())
      framebuffer.height.toNat 0 ()

/-- One pixel of an image: `row` and `col` count from its corner. Pixels whose top byte is zero are
skipped. -/
def fbDrawPixel (framebuffer : Framebuffer) (x y width : BitVec 32) (pixels : BitVec 64)
    (row col : BitVec 32) : FbProg Unit := do
  let pixel ← loadPixel pixels (row * width + col).toNat
  if (pixel >>> 24) &&& 0xFF#32 = 0#32 then
    pure ()
  else
    store32
      (framebuffer.pixelPtr
        ((y + row).setWidth 64 * (framebuffer.pitch >>> 2) + (x + col).setWidth 64))
      (pixel &&& 0x00FFFFFF#32)

def fbDrawImage (x y width height : BitVec 32) (pixels : BitVec 64) : FbProg Unit := do
  let framebuffer ← getFramebuffer
  if ¬ framebuffer.isReady then
    pure ()
  else if pixels = 0#64 then
    pure ()
  else if x.setWidth 64 ≥ framebuffer.width then
    pure ()
  else if y.setWidth 64 ≥ framebuffer.height then
    pure ()
  else
    let drawWidth : BitVec 32 :=
      if (x + width).setWidth 64 > framebuffer.width then
        (framebuffer.width - x.setWidth 64).setWidth 32
      else width
    let drawHeight : BitVec 32 :=
      if (y + height).setWidth 64 > framebuffer.height then
        (framebuffer.height - y.setWidth 64).setWidth 32
      else height
    Prog.forAcc
      (fun row () =>
        Prog.forAcc
          (fun col () =>
            fbDrawPixel framebuffer x y width pixels (BitVec.ofNat 32 row) (BitVec.ofNat 32 col))
          drawWidth.toNat 0 ())
      drawHeight.toNat 0 ()

def fbPlotPixel (x y : BitVec 32) (color : FbColor) : FbProg Unit := do
  let framebuffer ← getFramebuffer
  if ¬ framebuffer.isReady then
    pure ()
  else if x.setWidth 64 ≥ framebuffer.width then
    pure ()
  else if y.setWidth 64 ≥ framebuffer.height then
    pure ()
  else
    store32 (framebuffer.pixelPtr (y.setWidth 64 * (framebuffer.pitch / 4#64) + x.setWidth 64))
      color.toWord

def fbGetPixel (x y : BitVec 32) : FbProg FbColor := do
  let framebuffer ← getFramebuffer
  if ¬ framebuffer.isReady then
    pure ⟨0#8, 0#8, 0#8⟩
  else if x.setWidth 64 ≥ framebuffer.width then
    pure ⟨0#8, 0#8, 0#8⟩
  else if y.setWidth 64 ≥ framebuffer.height then
    pure ⟨0#8, 0#8, 0#8⟩
  else
    let word ← load32
      (framebuffer.pixelPtr (y.setWidth 64 * (framebuffer.pitch / 4#64) + x.setWidth 64))
    pure (FbColor.ofWord word)

end RainstormOs
