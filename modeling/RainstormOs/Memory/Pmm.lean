import RainstormOs.Utils.Memory

/-!
# `memory/pmm.c`

The physical memory manager: one bit per frame, set while the frame is allocated, packed eight to a
byte in a bitmap that the manager places inside the memory it manages.
-/

namespace RainstormOs

/-! ### `limine.h` -/

def limineMemmapUsable : BitVec 64 := 0

def limineMemmapReserved : BitVec 64 := 1

def limineMemmapBadMemory : BitVec 64 := 4

def limineMemmapExecutableAndModules : BitVec 64 := 6

def limineMemmapFramebuffer : BitVec 64 := 7

/-- `struct limine_memmap_entry`. -/
structure LimineMemmapEntry where
  base : BitVec 64
  length : BitVec 64
  type : BitVec 64

/-! ### Freeing and testing frames -/

/-- The branch a call of `pmm_free_frame` takes. The C function returns nothing: three branches only
log, the last one clears the bit. -/
inductive FreeBranch where
  | unaligned
  | untracked
  | alreadyFree
  | freed
deriving DecidableEq

/-- The mask `1 << (frame % 8)` of a frame inside its bitmap byte. -/
def frameMask (frame : Nat) : BitVec 8 := 1#8 <<< (frame % 8)

/-- The address of the bitmap byte `bitmap_start[frame / 8]`. -/
def Globals.frameByte (globals : Globals) (frame : Nat) : VirtAddr :=
  globals.bitmapStart + BitVec.ofNat 64 (frame / 8)

def pmmFreeFrame (physAddr : PhysAddr) : Kernel FreeBranch := do
  let g ← getGlobals
  if ¬ IsPageAligned physAddr then
    klogf .error "pmm_free_frame: address 0x%llx is not page alligned" [physAddr]
    pure .unaligned
  else
    let frame := (physAddr / pageSize).toNat
    if frame ≥ g.totalFrames.toNat then
      klogf .error
        "pmm_free_frame: address 0x%llx is not tracked by the physical memory manager" [physAddr]
      pure .untracked
    else
      let byte ← load8 (g.frameByte frame)
      if byte &&& frameMask frame = 0#8 then
        klogf .warn "pmm_free_frame: attempting to free already free frame" []
        pure .alreadyFree
      else
        let byte ← load8 (g.frameByte frame)
        store8 (g.frameByte frame) (byte &&& ~~~frameMask frame)
        pure .freed

def pmmFreeFrames (physAddr : PhysAddr) (count : BitVec 64) : Kernel Unit :=
  Prog.forAcc
    (fun i () => do
      let _ ← pmmFreeFrame (physAddr + BitVec.ofNat 64 i * pageSize)
      pure ())
    count.toNat 0 ()

def pmmMarkAllocated (physAddr : PhysAddr) : Kernel Unit := do
  let g ← getGlobals
  if ¬ IsPageAligned physAddr then
    klogf .error "pmm_mark_allocated: address 0x%llx is not page alligned" [physAddr]
  else
    let frame := (physAddr / pageSize).toNat
    if frame ≥ g.totalFrames.toNat then
      klogf .error
        "pmm_mark_allocated: address 0x%llx is not tracked by the physical memory manager"
        [physAddr]
    else
      let byte ← load8 (g.frameByte frame)
      store8 (g.frameByte frame) (byte ||| frameMask frame)

def pmmIsFrameFree (physAddr : PhysAddr) : Kernel Bool := do
  let g ← getGlobals
  if ¬ IsPageAligned physAddr then
    klogf .error "pmm_is_frame_free: address 0x%llx is not page alligned" [physAddr]
    pure false
  else
    let frame := (physAddr / pageSize).toNat
    if frame ≥ g.totalFrames.toNat then
      klogf .warn
        "pmm_is_frame_free: address 0x%llx is not tracked by the physical memory manager"
        [physAddr]
      pure false
    else
      let byte ← load8 (g.frameByte frame)
      pure (byte &&& frameMask frame = 0#8)

/-- One byte of `pmm_get_free_size`: bytes of all free and of no free frames are counted whole. -/
def pmmGetFreeSizeByte (g : Globals) (byte : Nat) (freeFrames : BitVec 64) :
    Kernel (BitVec 64) := do
  let value ← load8 (g.bitmapStart + BitVec.ofNat 64 byte)
  if value = 0x00#8 then
    pure (freeFrames + 8#64)
  else
    let value ← load8 (g.bitmapStart + BitVec.ofNat 64 byte)
    if value = 0xFF#8 then
      pure freeFrames
    else
      Prog.forAcc
        (fun bit freeFrames => do
          let value ← load8 (g.bitmapStart + BitVec.ofNat 64 byte)
          if value &&& (1#8 <<< bit) = 0#8 then pure (freeFrames + 1#64) else pure freeFrames)
        8 0 freeFrames

def pmmGetFreeSize : Kernel (BitVec 64) := do
  let g ← getGlobals
  let freeFrames ← Prog.forAcc (pmmGetFreeSizeByte g) g.bitmapSize.toNat 0 0#64
  pure (freeFrames * pageSize)

def pmmGetTotalSize : Kernel (BitVec 64) := do
  let g ← getGlobals
  pure (g.totalFrames * pageSize)

/-! ### Allocation -/

/-- One step of the bit loop of `pmm_alloc_frame`: `inr none` is its `break`, `inr (some _)` the
return from the function. -/
def pmmAllocFrameBit (g : Globals) (byte bit : Nat) :
    Kernel (Unit ⊕ Option PhysAddr) := do
  if byte * 8 + bit ≥ g.totalFrames.toNat then
    pure (.inr none)
  else
    let value ← load8 (g.bitmapStart + BitVec.ofNat 64 byte)
    if value &&& (1#8 <<< bit) ≠ 0#8 then
      pure (.inl ())
    else
      let value ← load8 (g.bitmapStart + BitVec.ofNat 64 byte)
      store8 (g.bitmapStart + BitVec.ofNat 64 byte) (value ||| (1#8 <<< bit))
      pure (.inr (some (BitVec.ofNat 64 (byte * 8 + bit) * pageSize)))

/-- One step of the byte loop of `pmm_alloc_frame`, which skips full bytes. -/
def pmmAllocFrameByte (g : Globals) (byte : Nat) : Kernel (Unit ⊕ PhysAddr) := do
  let value ← load8 (g.bitmapStart + BitVec.ofNat 64 byte)
  if value = 0xFF#8 then
    pure (.inl ())
  else
    match ← Prog.forUntil (fun bit () => pmmAllocFrameBit g byte bit) 8 0 () with
    | .inr (some addr) => pure (.inr addr)
    | _ => pure (.inl ())

def pmmAllocFrame : Kernel PhysAddr := do
  let g ← getGlobals
  match ← Prog.forUntil (fun byte () => pmmAllocFrameByte g byte) g.bitmapSize.toNat 0 () with
  | .inr addr => pure addr
  | .inl () => kpanic "pmm_alloc_frame: out of memory"

/-- The run of free frames `pmm_alloc_frames` is looking at. -/
structure FrameRun where
  start : Nat
  len : Nat

/-- One step of the frame loop of `pmm_alloc_frames`. -/
def pmmAllocFramesStep (g : Globals) (count frame : Nat) (run : FrameRun) :
    Kernel (FrameRun ⊕ PhysAddr) := do
  let byte ← load8 (g.frameByte frame)
  if byte &&& frameMask frame ≠ 0#8 then
    pure (.inl { run with len := 0 })
  else
    let run : FrameRun := ⟨if run.len = 0 then frame else run.start, run.len + 1⟩
    if run.len ≠ count then
      pure (.inl run)
    else
      Prog.forAcc
        (fun i () => do
          let byte ← load8 (g.frameByte i)
          store8 (g.frameByte i) (byte ||| frameMask i))
        count run.start ()
      pure (.inr (BitVec.ofNat 64 run.start * pageSize))

def pmmAllocFrames (count : BitVec 64) : Kernel PhysAddr := do
  if count = 0#64 then
    pure 0#64
  else if count = 1#64 then
    pmmAllocFrame
  else
    let g ← getGlobals
    match ← Prog.forUntil (pmmAllocFramesStep g count.toNat) g.totalFrames.toNat 0 ⟨0, 0⟩ with
    | .inr addr => pure addr
    | .inl _ => kpanic "pmm_alloc_frames: out of contiguous memory"

/-! ### Initialisation -/

def bitmapSizeFromFrames (frameCount : BitVec 64) : BitVec 64 := (frameCount + 7#64) / 8#64

/-- The entry types the size pass of `pmm_init` skips. -/
def LimineMemmapEntry.SkippedBySizePass (entry : LimineMemmapEntry) : Prop :=
  entry.type = limineMemmapReserved ∨ entry.type = limineMemmapFramebuffer
    ∨ entry.type = limineMemmapBadMemory

instance (entry : LimineMemmapEntry) : Decidable entry.SkippedBySizePass :=
  inferInstanceAs (Decidable (_ ∨ _))

/-- The size pass: the highest end address among the entries that count. -/
def highestAddr (memmap : List LimineMemmapEntry) : BitVec 64 :=
  memmap.foldl
    (fun highest entry =>
      if entry.SkippedBySizePass then highest
      else if entry.base + entry.length > highest then entry.base + entry.length
      else highest)
    0#64

/-- The placement pass: the base of the first usable entry that is long enough, 0 if there is
none. -/
def bitmapStartPhys (memmap : List LimineMemmapEntry) (bitmapSize : BitVec 64) : PhysAddr :=
  match memmap.find? fun entry =>
      decide (entry.type = limineMemmapUsable) && decide (¬ entry.length < bitmapSize) with
  | some entry => entry.base
  | none => 0#64

/-- How often the loop `for (j = 0; j < length; j += PAGE_SIZE)` runs, for lengths at which `j` does
not wrap. -/
def regionPages (length : BitVec 64) : Nat := (length.toNat + 4095) / 4096

/-- The free pass over one entry. -/
def pmmInitFreeRegion (entry : LimineMemmapEntry) : Kernel Unit := do
  if entry.type ≠ limineMemmapUsable then
    pure ()
  else
    Prog.forAcc
      (fun i () => do
        let _ ← pmmFreeFrame (entry.base + BitVec.ofNat 64 i * pageSize)
        pure ())
      (regionPages entry.length) 0 ()

def pmmInit (memmap : List LimineMemmapEntry) (hhdmOffset : BitVec 64) : Kernel Unit := do
  let totalFrames := pageCount (highestAddr memmap)
  let bitmapSize := bitmapSizeFromFrames totalFrames
  let startPhys := bitmapStartPhys memmap bitmapSize
  let g ← getGlobals
  setGlobals { g with hhdmOffset, totalFrames, bitmapSize }
  if startPhys = 0#64 then
    kpanic "pmm_init: No usable region found for bitmap"
  else
    let g ← getGlobals
    let bitmapStart := g.hhdmPhysToVirt startPhys
    setGlobals { g with bitmapStart }
    let _ ← memset bitmapStart 0xFF bitmapSize
    Prog.forList pmmInitFreeRegion memmap
    Prog.forAcc
      (fun frame () => pmmMarkAllocated (startPhys + BitVec.ofNat 64 frame * pageSize))
      (pageCount bitmapSize).toNat 0 ()
    klogf .debug "bitmap_size=%lluKB frames=%llu" [bitmapSize, totalFrames]
    klogf .info "pmm_init: initialized sucessfully" []

end RainstormOs
