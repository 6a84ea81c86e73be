import RainstormOs.Cpu.Descriptors

/-!
# `cpu/idt.c` and `isr_gen.c`
-/

namespace RainstormOs

def idtFlagInterruptGate64 : BitVec 8 := 0x0E#8

def idtFlagRing0 : BitVec 8 := 0#8 <<< 5

def idtFlagPresent : BitVec 8 := 0x80#8

/-- The members `ist` and `reserved` of `idt_entry_t` are not written. -/
def idtSetGate (idt : BitVec 64) (num : BitVec 8) (addr : BitVec 64) (flags : BitVec 8)
    (mem : ByteMemory 64) : ByteMemory 64 :=
  let entry := 16 * num.toNat
  let mem := mem.writeField idt entry 2 ((addr &&& 0xFFFF#64).setWidth 16)
  let mem := mem.writeField idt (entry + 6) 2 (((addr >>> 16) &&& 0xFFFF#64).setWidth 16)
  let mem := mem.writeField idt (entry + 8) 4 (((addr >>> 32) &&& 0xFFFFFFFF#64).setWidth 32)
  let mem := mem.writeField idt (entry + 2) 2 0x08#16
  mem.writeField idt (entry + 5) 1 flags

/-- `isr_init`, as it is generated: a gate for each of the 256 stubs, in order. -/
def isrInit (idt : BitVec 64) (isrAddr : BitVec 8 → BitVec 64) (mem : ByteMemory 64) :
    ByteMemory 64 :=
  (List.range 256).foldl
    (fun mem num => idtSetGate idt (BitVec.ofNat 8 num) (isrAddr (BitVec.ofNat 8 num))
      (idtFlagInterruptGate64 ||| idtFlagRing0 ||| idtFlagPresent) mem)
    mem

/-- `idt_init` up to its call of `_idt_load`, which is `lidt` with the pointer. -/
def idtInit (idt idtPtr : BitVec 64) (isrAddr : BitVec 8 → BitVec 64) (mem : ByteMemory 64) :
    ByteMemory 64 :=
  let mem := mem.writeField idtPtr 0 2 (BitVec.ofNat 16 (16 * 256 - 1))
  let mem := mem.writeField idtPtr 2 8 idt
  let mem := mem.fill idt (16 * 256) 0#8
  isrInit idt isrAddr mem

end RainstormOs
