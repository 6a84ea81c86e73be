import RainstormOs.Cpu.Descriptors

/-!
# `cpu/gdt.c` and `gdt.asm`

The table and the pointer to it are static variables; here they are addresses, and what the code does
is what it writes there.
-/

namespace RainstormOs

def gdtEntriesCount : Nat := 5

/-- The members of `gdt_entry` are written in the order of the source, each at its offset. -/
def gdtSetEntry (gdt : BitVec 64) (num : BitVec 16) (base limit : BitVec 32)
    (access gran : BitVec 8) (mem : ByteMemory 64) : ByteMemory 64 :=
  let entry := 8 * num.toNat
  let mem := mem.writeField gdt (entry + 2) 2 ((base &&& 0xFFFF#32).setWidth 16)
  let mem := mem.writeField gdt (entry + 4) 1 (((base >>> 16) &&& 0xFF#32).setWidth 8)
  let mem := mem.writeField gdt (entry + 7) 1 (((base >>> 24) &&& 0xFF#32).setWidth 8)
  let mem := mem.writeField gdt entry 2 ((limit &&& 0xFFFF#32).setWidth 16)
  let mem := mem.writeField gdt (entry + 6) 1
    ((((limit >>> 16) &&& 0x0F#32) ||| (gran.setWidth 32 &&& 0xF0#32)).setWidth 8)
  mem.writeField gdt (entry + 5) 1 access

/-- `gdt_init` up to its call of `_gdt_flush`; what it logs is left out. -/
def gdtInit (gdt gdtPtr : BitVec 64) (mem : ByteMemory 64) : ByteMemory 64 :=
  let mem := mem.writeField gdtPtr 0 2 (BitVec.ofNat 16 (8 * gdtEntriesCount - 1))
  let mem := mem.writeField gdtPtr 2 8 gdt
  let mem := gdtSetEntry gdt 0#16 0#32 0#32 0#8 0#8 mem
  let mem := gdtSetEntry gdt 1#16 0#32 0xFFFFF#32 0x9A#8 0xA0#8 mem
  let mem := gdtSetEntry gdt 2#16 0#32 0xFFFFF#32 0x92#8 0xC0#8 mem
  let mem := gdtSetEntry gdt 3#16 0#32 0xFFFFF#32 0xFA#8 0xA0#8 mem
  gdtSetEntry gdt 4#16 0#32 0xFFFFF#32 0xF2#8 0xC0#8 mem

structure SegmentRegisters where
  cs : BitVec 16
  ds : BitVec 16
  es : BitVec 16
  fs : BitVec 16
  gs : BitVec 16
  ss : BitVec 16
deriving DecidableEq

/-- `_gdt_flush`: the new table, and every segment register from it. -/
def gdtFlush (gdtPtr : BitVec 64) (mem : ByteMemory 64) (segments : SegmentRegisters) :
    Option (TableRegister × SegmentRegisters) := do
  let gdtr := TableRegister.load mem gdtPtr
  let cs ← farReturn mem gdtr segments.cs 0x8#16
  let ds ← loadDataSegment mem gdtr cs 0x10#16
  let es ← loadDataSegment mem gdtr cs 0x10#16
  let fs ← loadDataSegment mem gdtr cs 0x10#16
  let gs ← loadDataSegment mem gdtr cs 0x10#16
  let ss ← loadStackSegment mem gdtr cs 0x10#16
  some (gdtr, ⟨cs, ds, es, fs, gs, ss⟩)

end RainstormOs
