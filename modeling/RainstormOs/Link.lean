import RainstormOs.Machine

/-!
# `link.ld` and `boot.asm`

How the linker lays `.bss` out. The output section starts at `_bss_start` with the common symbols of
all objects, then come their `.bss` inputs in the order of the command line, each at the next address
its alignment allows, and `_bss_end` follows the last one. The boot stack of `boot.asm` is one of
these inputs.
-/

namespace RainstormOs

/-- Where the script puts the kernel image. -/
def kernelVma : Nat := 0xFFFFFFFF80000000

def alignUp (addr align : Nat) : Nat := (addr + align - 1) / align * align

/-- What the linker knows about an input of an output section. -/
structure InputSection where
  size : Nat
  align : Nat
  align_pos : 0 < align

/-- The location counter after an input. -/
def InputSection.place (dot : Nat) (input : InputSection) : Nat :=
  alignUp dot input.align + input.size

def placeAll (dot : Nat) (inputs : List InputSection) : Nat := inputs.foldl InputSection.place dot

/-- The `.bss` of `boot.asm`: 65536 bytes between `stack_bottom` and `stack_top`, aligned to 16. -/
def bootStack : InputSection := ⟨65536, 16, by decide⟩

/-- A layout of `.bss` the script allows. `before` and `after` are the `.bss` inputs on either side
of the boot stack. -/
structure BssLayout where
  bssStart : Nat
  common : List InputSection
  before : List InputSection
  after : List InputSection
  start_ge : kernelVma ≤ bssStart
  fits : placeAll bssStart (common ++ before ++ bootStack :: after) ≤ 2 ^ 64

namespace BssLayout

variable (layout : BssLayout)

def stackBottom : Nat :=
  alignUp (placeAll layout.bssStart (layout.common ++ layout.before)) bootStack.align

def stackTop : Nat := layout.stackBottom + bootStack.size

def bssEnd : Nat :=
  placeAll layout.bssStart (layout.common ++ layout.before ++ bootStack :: layout.after)

end BssLayout

end RainstormOs
