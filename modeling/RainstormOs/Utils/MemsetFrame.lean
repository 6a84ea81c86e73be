import RainstormOs.Lib.Record

/-!
# `memset` with its frame

The Makefile asks for no optimisation, so the compiled `memset` of `utils/memory.c` keeps its variables
in memory: every use of one loads it and every assignment stores it. The frame lies under the return
address. It holds the saved frame pointer, below that the two locals and below these the parameters,
the last one lowest. Apart from their order the compiler is free to choose the offsets.

As long as the block is apart from the frame this is the loop of `memset` and nothing else. A block that
holds the frame is another matter: the loop stores to its own variables.
-/

namespace RainstormOs

open ByteMemory

/-- Offsets of the variables from the lowest of them, which is `count`. -/
structure MemsetFrame where
  value : Nat
  dest : Nat
  destPtr : Nat
  i : Nat
  savedRbp : Nat
  value_ge : 8 ≤ value
  dest_ge : value + 4 ≤ dest
  destPtr_ge : dest + 8 ≤ destPtr
  i_ge : dest + 8 ≤ i
  locals : i + 8 ≤ destPtr ∨ destPtr + 8 ≤ i
  savedRbp_ge : i + 8 ≤ savedRbp ∧ destPtr + 8 ≤ savedRbp

/-- What the caller of `memset` finds: the two registers, the address it goes on at, and memory. -/
structure MemsetReturn where
  rax : BitVec 64
  rbp : BitVec 64
  rip : BitVec 64
  mem : ByteMemory 64

namespace MemsetFrame

variable (frame : MemsetFrame)

/-- Bytes from `count` to the return address. -/
def size : Nat := frame.savedRbp + 8

/-- Where the frame lies. -/
def base (rsp : BitVec 64) : BitVec 64 := rsp - BitVec.ofNat 64 frame.size

/-- The prologue, and `destPtr = dest`. -/
def enter (base rbp dest : BitVec 64) (value : BitVec 32) (count : BitVec 64)
    (mem : ByteMemory 64) : ByteMemory 64 :=
  let mem := mem.writeField base frame.savedRbp 8 rbp
  let mem := mem.writeField base frame.dest 8 dest
  let mem := mem.writeField base frame.value 4 value
  let mem := mem.writeField base 0 8 count
  mem.writeField base frame.destPtr 8 (mem.readField base frame.dest 8)

/-- `i < count`. -/
def goesOn (base : BitVec 64) (mem : ByteMemory 64) : Bool :=
  mem.readField base frame.i 8 < mem.readField base 0 8

/-- `destPtr[i] = (uint8_t)value` and `i++`. -/
def turn (base : BitVec 64) (mem : ByteMemory 64) : ByteMemory 64 :=
  let addr := mem.readField base frame.destPtr 8 + mem.readField base frame.i 8
  let mem := mem.writeByte addr ((mem.readField base frame.value 4).setWidth 8)
  mem.writeField base frame.i 8 (mem.readField base frame.i 8 + 1#64)

/-- The loop, for at most `fuel` tests. -/
def loop (base : BitVec 64) : Nat → ByteMemory 64 → Option (ByteMemory 64)
  | 0, _ => none
  | fuel + 1, mem => if frame.goesOn base mem then loop base fuel (frame.turn base mem) else some mem

/-- `memset`, entered with the stack pointer at its return address. -/
def memset (rsp rbp dest : BitVec 64) (value : BitVec 32) (count : BitVec 64) (fuel : Nat)
    (mem : ByteMemory 64) : Option MemsetReturn := do
  let base := frame.base rsp
  let mem := frame.enter base rbp dest value count mem
  let mem ← frame.loop base fuel (mem.writeField base frame.i 8 0#64)
  pure
    { rax := mem.readField base frame.dest 8
      rbp := mem.readField base frame.savedRbp 8
      rip := mem.readWord rsp 8
      mem := mem }

end MemsetFrame

end RainstormOs
