import RainstormOs.Memory.Paging
import RainstormOs.Drivers.Framebuffer
import RainstormOs.Link
import RainstormOs.Utils.MemsetFrame

/-!
# `kernel_entry.c`

The boot path that sets the memory managers and the screen up.
-/

namespace RainstormOs

/-- The first lines of `kmain`, which clear `.bss` while running on a stack that lies in it. The stack
pointer is the one `memset` is entered with, the frame pointer is that of `kmain`. -/
def kmainClearBss (layout : BssLayout) (frame : MemsetFrame) (rsp rbp : BitVec 64) (fuel : Nat)
    (mem : ByteMemory 64) : Option MemsetReturn :=
  let bssStart := BitVec.ofNat 64 layout.bssStart
  let bssSize := BitVec.ofNat 64 layout.bssEnd - bssStart
  frame.memset rsp rbp bssStart 0#32 bssSize fuel mem

/-- The boundary symbols `link.ld` defines around the four loaded parts of the kernel image. -/
structure LinkerSymbols where
  limineBegin : VirtAddr
  limineEnd : VirtAddr
  textBegin : VirtAddr
  textEnd : VirtAddr
  rodataBegin : VirtAddr
  rodataEnd : VirtAddr
  dataBegin : VirtAddr
  dataEnd : VirtAddr

/-- The segment record `memory_init` builds: starts as they are, ends rounded up to a page. -/
def LinkerSymbols.segmentInfo (symbols : LinkerSymbols) : KernelSegmentInfo where
  limineStart := symbols.limineBegin
  limineEnd := pageAlignUp symbols.limineEnd
  textStart := symbols.textBegin
  textEnd := pageAlignUp symbols.textEnd
  rodataStart := symbols.rodataBegin
  rodataEnd := pageAlignUp symbols.rodataEnd
  dataStart := symbols.dataBegin
  dataEnd := pageAlignUp symbols.dataEnd

/-- `memory_init`, given the Limine responses it reads: the memory map, the direct-map offset and
the physical and virtual base of the kernel image. -/
def memoryInit (memmap : List LimineMemmapEntry) (hhdmOffset : BitVec 64)
    (kernelPhysicalBase : PhysAddr) (kernelVirtualBase : VirtAddr) (symbols : LinkerSymbols) :
    Kernel PhysAddr := do
  pmmInit memmap hhdmOffset
  klogf .debug "kernel_virtual_base=0x%p, kernel_physical_base=0x%p"
    [kernelVirtualBase, kernelPhysicalBase]
  let kernelPml4 ← pagingInit kernelPhysicalBase kernelVirtualBase symbols.segmentInfo
  klogf .info "Memory management stuff is working" []
  pure kernelPml4

/-- What the boot loader says about a framebuffer. `screen_init` does not read `bpp`. -/
structure LimineFramebuffer where
  address : VirtAddr
  width : BitVec 64
  height : BitVec 64
  pitch : BitVec 64
  bpp : BitVec 16
  memoryModel : BitVec 8

/-- `screen_init` up to its call of `fb_init`, with the argument of that call. -/
def screenInit (kernelPml4 : PhysAddr) (fb : LimineFramebuffer) : Kernel Framebuffer := do
  if fb.memoryModel ≠ 1#8 then
    kpanic "screen_init: framebuffer memory_model is %u, expected 1"
  else
    let fbSize := fb.pitch * fb.height
    let fbFlags :=
      pageCacheDisable ||| pageWritable ||| pageNoExecute ||| pageGlobal ||| pagePresent
    let g ← getGlobals
    let fbPhys := g.hhdmVirtToPhys fb.address
    let free ← pmmIsFrameFree fbPhys
    if free then
      kpanic "screen_init: framebuffer memory is free"
    else
      pagingMapRange kernelPml4 fb.address (g.hhdmVirtToPhys fb.address) fbSize fbFlags
      pure
        { address := fb.address
          width := fb.width
          height := fb.height
          pitch := fb.pitch
          isReady := false }

/-- The rest of `screen_init`, in the driver. -/
def screenClear (framebuffer : Framebuffer) : FbProg Unit := do
  fbInit framebuffer
  fbClearScreen ⟨40#8, 40#8, 60#8⟩

end RainstormOs
