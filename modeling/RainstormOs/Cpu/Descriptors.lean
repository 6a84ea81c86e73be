import RainstormOs.Lib.Record

/-!
# Descriptor tables, as the processor reads them

In 64-bit mode the processor keeps a selector in each segment register and takes what it stands for
from the descriptor table, and an interrupt goes where the gate of its vector says. This is the
processor's side: what the bytes of a table mean, and the checks after which a selector may be loaded
or an interrupt taken. A check that fails is a fault, which has no result here.

Local descriptor tables, task gates and returns to an outer ring are left out; the kernel has none.
-/

namespace RainstormOs

/-- `GDTR` and `IDTR`; the limit is the offset of the last byte. -/
structure TableRegister where
  limit : BitVec 16
  base : BitVec 64

/-- `lgdt` and `lidt` with a pointer. -/
def TableRegister.load (mem : ByteMemory 64) (ptr : BitVec 64) : TableRegister where
  limit := mem.readField ptr 0 2
  base := mem.readField ptr 2 8

/-! ### Segments -/

structure SegmentDescriptor where
  base : BitVec 32
  limit : BitVec 20
  type : BitVec 4
  codeOrData : Bool
  dpl : BitVec 2
  present : Bool
  available : Bool
  long : Bool
  big : Bool
  granular : Bool

namespace SegmentDescriptor

/-- The eight bytes of an entry. -/
def decode (mem : ByteMemory 64) (table : BitVec 64) (index : Nat) : SegmentDescriptor :=
  let limitLow : BitVec 16 := mem.readField table (8 * index) 2
  let baseLow : BitVec 16 := mem.readField table (8 * index + 2) 2
  let baseMiddle : BitVec 8 := mem.readField table (8 * index + 4) 1
  let access : BitVec 8 := mem.readField table (8 * index + 5) 1
  let flags : BitVec 8 := mem.readField table (8 * index + 6) 1
  let baseHigh : BitVec 8 := mem.readField table (8 * index + 7) 1
  { base := baseHigh ++ baseMiddle ++ baseLow
    limit := flags.extractLsb' 0 4 ++ limitLow
    type := access.extractLsb' 0 4
    codeOrData := access.getLsbD 4
    dpl := access.extractLsb' 5 2
    present := access.getLsbD 7
    available := flags.getLsbD 4
    long := flags.getLsbD 5
    big := flags.getLsbD 6
    granular := flags.getLsbD 7 }

def isCode (d : SegmentDescriptor) : Bool := d.codeOrData && d.type.getLsbD 3

def isConforming (d : SegmentDescriptor) : Bool := d.type.getLsbD 2

def isWritableData (d : SegmentDescriptor) : Bool :=
  d.codeOrData && !d.type.getLsbD 3 && d.type.getLsbD 1

/-- Data, or code that may be read. -/
def isReadable (d : SegmentDescriptor) : Bool :=
  d.codeOrData && (!d.type.getLsbD 3 || d.type.getLsbD 1)

/-- 64-bit code; with both bits set the segment is reserved. -/
def isLongCode (d : SegmentDescriptor) : Bool := d.isCode && d.long && !d.big

end SegmentDescriptor

/-- The requested privilege level; in `cs` it is the current one. -/
def rpl (selector : BitVec 16) : BitVec 2 := selector.extractLsb' 0 2

def isNull (selector : BitVec 16) : Bool := selector.toNat / 4 = 0

/-- The descriptor of a selector, inside the table. -/
def fetchDescriptor (mem : ByteMemory 64) (gdtr : TableRegister) (selector : BitVec 16) :
    Option SegmentDescriptor :=
  if selector.getLsbD 2 ∨ gdtr.limit.toNat < 8 * (selector.toNat / 8) + 7 then
    none
  else
    some (.decode mem gdtr.base (selector.toNat / 8))

/-- `cs` of a far return in the same ring. -/
def farReturn (mem : ByteMemory 64) (gdtr : TableRegister) (cs selector : BitVec 16) :
    Option (BitVec 16) := do
  let d ← fetchDescriptor mem gdtr selector
  let dplFits := if d.isConforming then d.dpl ≤ rpl selector else d.dpl = rpl selector
  if ¬ isNull selector ∧ d.isCode ∧ rpl selector = rpl cs ∧ dplFits ∧ d.present
      ∧ ¬ (d.long ∧ d.big) then
    some selector
  else
    none

/-- `mov ss, ax`. -/
def loadStackSegment (mem : ByteMemory 64) (gdtr : TableRegister) (cs selector : BitVec 16) :
    Option (BitVec 16) := do
  let d ← fetchDescriptor mem gdtr selector
  if ¬ isNull selector ∧ rpl selector = rpl cs ∧ d.isWritableData ∧ d.dpl = rpl cs ∧ d.present then
    some selector
  else
    none

/-- `mov ds, ax` and the other data segment registers, which take a null selector too. -/
def loadDataSegment (mem : ByteMemory 64) (gdtr : TableRegister) (cs selector : BitVec 16) :
    Option (BitVec 16) :=
  if isNull selector then
    some selector
  else do
    let d ← fetchDescriptor mem gdtr selector
    let ringFits := d.isCode ∧ d.isConforming ∨ rpl selector ≤ d.dpl ∧ rpl cs ≤ d.dpl
    if d.isReadable ∧ ringFits ∧ d.present then some selector else none

/-! ### Interrupts -/

structure Gate where
  offset : BitVec 64
  selector : BitVec 16
  ist : BitVec 3
  type : BitVec 4
  dpl : BitVec 2
  present : Bool

/-- The sixteen bytes of an entry. -/
def Gate.decode (mem : ByteMemory 64) (table : BitVec 64) (index : Nat) : Gate :=
  let offsetLow : BitVec 16 := mem.readField table (16 * index) 2
  let selector : BitVec 16 := mem.readField table (16 * index + 2) 2
  let ist : BitVec 8 := mem.readField table (16 * index + 4) 1
  let flags : BitVec 8 := mem.readField table (16 * index + 5) 1
  let offsetMiddle : BitVec 16 := mem.readField table (16 * index + 6) 2
  let offsetHigh : BitVec 32 := mem.readField table (16 * index + 8) 4
  { offset := offsetHigh ++ offsetMiddle ++ offsetLow
    selector := selector
    ist := ist.extractLsb' 0 3
    type := flags.extractLsb' 0 4
    dpl := flags.extractLsb' 5 2
    present := flags.getLsbD 7 }

/-- Where an interrupt goes: the code it enters, whether it changes to another stack, and whether it
is entered with interrupts off. -/
structure InterruptEntry where
  rip : BitVec 64
  cs : BitVec 16
  switchesStack : Bool
  masksInterrupts : Bool
deriving DecidableEq

/-- An interrupt or exception of the processor, taken while `cs` is loaded. -/
def takeInterrupt (mem : ByteMemory 64) (gdtr idtr : TableRegister) (cs : BitVec 16)
    (vector : BitVec 8) : Option InterruptEntry :=
  if idtr.limit.toNat < 16 * vector.toNat + 15 then
    none
  else do
    let gate := Gate.decode mem idtr.base vector.toNat
    let d ← fetchDescriptor mem gdtr gate.selector
    if (gate.type = 0xE#4 ∨ gate.type = 0xF#4) ∧ gate.present ∧ ¬ isNull gate.selector
        ∧ d.isLongCode ∧ d.dpl ≤ rpl cs ∧ d.present then
      let cpl := if d.isConforming then rpl cs else d.dpl
      some
        { rip := gate.offset
          cs := gate.selector.extractLsb' 2 14 ++ cpl
          switchesStack := gate.ist ≠ 0#3 ∨ cpl < rpl cs
          masksInterrupts := gate.type = 0xE#4 }
    else
      none

end RainstormOs
