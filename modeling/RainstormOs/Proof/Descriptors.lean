import RainstormOs.Cpu.Gdt
import RainstormOs.Cpu.Idt
import RainstormOs.Lib.BitField

/-!
# The descriptor tables

The code writes the members of its packed structures, and the processor reads the same bytes as
descriptors. What it reads at an index is what the code set there last, whatever else was set in
between. So after `gdt_init` and `idt_init` every segment register can be loaded, and every interrupt
of the kernel enters its own stub.
-/

namespace RainstormOs

open BitField

/-! ### One segment -/

/-- What the arguments of `gdt_set_entry` say. -/
def segmentOf (base limit : BitVec 32) (access gran : BitVec 8) : SegmentDescriptor where
  base := base
  limit := limit.setWidth 20
  type := access.extractLsb' 0 4
  codeOrData := access.getLsbD 4
  dpl := access.extractLsb' 5 2
  present := access.getLsbD 7
  available := gran.getLsbD 4
  long := gran.getLsbD 5
  big := gran.getLsbD 6
  granular := gran.getLsbD 7

theorem base_split (base : BitVec 32) :
    ((base >>> 24) &&& 0xFF#32).setWidth 8 ++ ((base >>> 16) &&& 0xFF#32).setWidth 8
      ++ (base &&& 0xFFFF#32).setWidth 16 = base := by
  rw [setWidth_and (by decide), setWidth_and (by decide), setWidth_and (by decide)]
  apply BitVec.eq_of_getLsbD_eq
  intro i hi
  simp only [BitVec.getLsbD_append, BitVec.getLsbD_setWidth, BitVec.getLsbD_ushiftRight]
  grind

/-- The byte the limit shares with the flags. -/
theorem granularity_split (limit : BitVec 32) (gran : BitVec 8) :
    (((limit >>> 16) &&& 0x0F#32) ||| (gran.setWidth 32 &&& 0xF0#32)).setWidth 8
      = gran.extractLsb' 4 4 ++ limit.extractLsb' 16 4 := by
  have hlow : ∀ i < 8, (0x0F#32).getLsbD i = decide (i < 4) := by decide
  have hhigh : ∀ i < 8, (0xF0#32).getLsbD i = decide (4 ≤ i) := by decide
  apply BitVec.eq_of_getLsbD_eq
  intro i hi
  simp only [BitVec.getLsbD_append, BitVec.getLsbD_extractLsb', BitVec.getLsbD_setWidth,
    BitVec.getLsbD_or, BitVec.getLsbD_and, BitVec.getLsbD_ushiftRight]
  grind

theorem limit_split (limit : BitVec 32) (gran : BitVec 4) :
    (gran ++ limit.extractLsb' 16 4).extractLsb' 0 4 ++ (limit &&& 0xFFFF#32).setWidth 16
      = limit.setWidth 20 := by
  rw [setWidth_and (by decide)]
  apply BitVec.eq_of_getLsbD_eq
  intro i hi
  simp only [BitVec.getLsbD_append, BitVec.getLsbD_extractLsb', BitVec.getLsbD_setWidth]
  grind

theorem getLsbD_gran (limit : BitVec 4) (gran : BitVec 8) {i : Nat} (hlow : 4 ≤ i) (hi : i < 8) :
    (gran.extractLsb' 4 4 ++ limit).getLsbD i = gran.getLsbD i := by
  rw [BitVec.getLsbD_append, BitVec.getLsbD_extractLsb', if_neg (by omega)]
  have hsum : 4 + (i - 4) = i := by omega
  have hin : i - 4 < 4 := by omega
  simp [hsum, hin]

theorem decode_gdtSetEntry_self (gdt : BitVec 64) (num : BitVec 16) (base limit : BitVec 32)
    (access gran : BitVec 8) (mem : ByteMemory 64) :
    SegmentDescriptor.decode (gdtSetEntry gdt num base limit access gran mem) gdt num.toNat
      = segmentOf base limit access gran := by
  have hnum := num.isLt
  rw [SegmentDescriptor.decode, gdtSetEntry]
  simp (disch := omega) only [ByteMemory.readField_writeField_self,
    ByteMemory.readField_writeField_of_ne]
  rw [granularity_split, base_split, limit_split, segmentOf]
  rw [getLsbD_gran _ _ (by decide) (by decide), getLsbD_gran _ _ (by decide) (by decide),
    getLsbD_gran _ _ (by decide) (by decide), getLsbD_gran _ _ (by decide) (by decide)]

theorem decode_gdtSetEntry_of_ne {num : BitVec 16} {index : Nat} (hindex : index < 2 ^ 16)
    (hne : index ≠ num.toNat) (gdt : BitVec 64) (base limit : BitVec 32) (access gran : BitVec 8)
    (mem : ByteMemory 64) :
    SegmentDescriptor.decode (gdtSetEntry gdt num base limit access gran mem) gdt index
      = SegmentDescriptor.decode mem gdt index := by
  have hnum := num.isLt
  rw [SegmentDescriptor.decode, SegmentDescriptor.decode, gdtSetEntry]
  simp (disch := omega) only [ByteMemory.readField_writeField_of_ne]

/-! ### One gate -/

/-- What the arguments of `idt_set_gate` say, with the stack the entry had. -/
def gateOf (addr : BitVec 64) (flags : BitVec 8) (ist : BitVec 3) : Gate where
  offset := addr
  selector := 0x08#16
  ist := ist
  type := flags.extractLsb' 0 4
  dpl := flags.extractLsb' 5 2
  present := flags.getLsbD 7

theorem offset_split (addr : BitVec 64) :
    ((addr >>> 32) &&& 0xFFFFFFFF#64).setWidth 32 ++ ((addr >>> 16) &&& 0xFFFF#64).setWidth 16
      ++ (addr &&& 0xFFFF#64).setWidth 16 = addr := by
  rw [setWidth_and (by decide), setWidth_and (by decide), setWidth_and (by decide)]
  apply BitVec.eq_of_getLsbD_eq
  intro i hi
  simp only [BitVec.getLsbD_append, BitVec.getLsbD_setWidth, BitVec.getLsbD_ushiftRight]
  grind

theorem decode_idtSetGate_self (idt : BitVec 64) (num : BitVec 8) (addr : BitVec 64)
    (flags : BitVec 8) (mem : ByteMemory 64) :
    Gate.decode (idtSetGate idt num addr flags mem) idt num.toNat
      = gateOf addr flags (Gate.decode mem idt num.toNat).ist := by
  have hnum := num.isLt
  rw [Gate.decode, Gate.decode, idtSetGate]
  simp (disch := omega) only [ByteMemory.readField_writeField_self,
    ByteMemory.readField_writeField_of_ne]
  rw [offset_split, gateOf]

theorem decode_idtSetGate_of_ne {num : BitVec 8} {index : Nat} (hindex : index < 2 ^ 8)
    (hne : index ≠ num.toNat) (idt addr : BitVec 64) (flags : BitVec 8) (mem : ByteMemory 64) :
    Gate.decode (idtSetGate idt num addr flags mem) idt index = Gate.decode mem idt index := by
  have hnum := num.isLt
  rw [Gate.decode, Gate.decode, idtSetGate]
  simp (disch := omega) only [ByteMemory.readField_writeField_of_ne]

/-! ### The tables -/

/-- A call of `gdt_set_entry`. -/
structure EntryCall where
  num : BitVec 16
  base : BitVec 32
  limit : BitVec 32
  access : BitVec 8
  gran : BitVec 8

def EntryCall.exec (gdt : BitVec 64) (mem : ByteMemory 64) (call : EntryCall) : ByteMemory 64 :=
  gdtSetEntry gdt call.num call.base call.limit call.access call.gran mem

def EntryCall.segment (call : EntryCall) : SegmentDescriptor :=
  segmentOf call.base call.limit call.access call.gran

/-- **Segments.** After any calls of `gdt_set_entry` the processor reads at each index what was set
there last: the base, the low twenty bits of the limit, the access byte and the high half of `gran`. -/
theorem decode_gdtSetEntries (gdt : BitVec 64) (calls : List EntryCall) (mem : ByteMemory 64)
    {index : Nat} (hindex : index < 2 ^ 16) :
    SegmentDescriptor.decode (calls.foldl (EntryCall.exec gdt) mem) gdt index
      = match calls.reverse.find? (fun call => call.num.toNat = index) with
        | some call => call.segment
        | none => SegmentDescriptor.decode mem gdt index := by
  induction calls using List.reverseRecOn with
  | nil => rfl
  | append_singleton calls call ih =>
      rw [List.foldl_append, List.foldl_cons, List.foldl_nil, List.reverse_append,
        List.reverse_singleton, List.singleton_append, List.find?_cons, EntryCall.exec]
      by_cases hnum : call.num.toNat = index
      · rw [decide_eq_true hnum]
        subst hnum
        exact decode_gdtSetEntry_self gdt _ _ _ _ _ _
      · rw [decide_eq_false hnum, decode_gdtSetEntry_of_ne hindex (Ne.symm hnum), ih]

/-- A user code segment over a kernel one, and a limit of more than twenty bits. -/
theorem decode_gdtSetEntries_twice :
    let mem := [⟨1#16, 0#32, 0xFFFFF#32, 0x9A#8, 0xA0#8⟩,
      ⟨1#16, 0x12345678#32, 0x7654321#32, 0xFA#8, 0xA0#8⟩].foldl (EntryCall.exec 0x1000#64) fun _ => 0#8
    (SegmentDescriptor.decode mem 0x1000#64 1).base = 0x12345678#32
      ∧ (SegmentDescriptor.decode mem 0x1000#64 1).limit = 0x54321#20
      ∧ (SegmentDescriptor.decode mem 0x1000#64 1).dpl = 3#2 := by
  intro mem
  have h := decode_gdtSetEntries 0x1000#64 [⟨1#16, 0#32, 0xFFFFF#32, 0x9A#8, 0xA0#8⟩,
    ⟨1#16, 0x12345678#32, 0x7654321#32, 0xFA#8, 0xA0#8⟩] (fun _ => 0#8) (by decide : 1 < 2 ^ 16)
  rw [h]
  decide

/-- `isr_init` gives each vector of a list the gate of its stub. -/
theorem decode_isrGates {idt : BitVec 64} {isrAddr : BitVec 8 → BitVec 64} {flags : BitVec 8}
    {nums : List Nat} (hnums : ∀ num ∈ nums, num < 2 ^ 8) (vector : BitVec 8) (mem : ByteMemory 64) :
    Gate.decode
        (nums.foldl (fun mem num =>
          idtSetGate idt (BitVec.ofNat 8 num) (isrAddr (BitVec.ofNat 8 num)) flags mem) mem)
        idt vector.toNat
      = if vector.toNat ∈ nums then
          gateOf (isrAddr vector) flags (Gate.decode mem idt vector.toNat).ist
        else Gate.decode mem idt vector.toNat := by
  induction nums generalizing mem with
  | nil => rfl
  | cons num nums ih =>
      obtain ⟨hnum, hnums⟩ := List.forall_mem_cons.mp hnums
      have hvalue : (BitVec.ofNat 8 num).toNat = num := by
        rw [BitVec.toNat_ofNat, Nat.mod_eq_of_lt hnum]
      rw [List.foldl_cons, ih hnums]
      by_cases heq : vector.toNat = num
      · have hvector : BitVec.ofNat 8 num = vector := by
          rw [← heq, BitVec.ofNat_toNat, BitVec.setWidth_eq]
        have hmem : vector.toNat ∈ num :: nums := by
          rw [heq]
          exact List.mem_cons_self
        rw [hvector, decode_idtSetGate_self, if_pos hmem]
        split <;> rfl
      · rw [decode_idtSetGate_of_ne vector.isLt (by rw [hvalue]; exact heq)]
        refine if_congr ?_ rfl rfl
        rw [List.mem_cons]
        exact (or_iff_right heq).symm

/-- A table that lies apart is not touched by `idt_set_gate`. -/
theorem idtSetGate_of_apart {base idt : BitVec 64} {size k : Nat}
    (hapart : ByteMemory.Apart base size idt (16 * 256)) (hk : k < size) (num : BitVec 8)
    (addr : BitVec 64) (flags : BitVec 8) (mem : ByteMemory 64) :
    idtSetGate idt num addr flags mem (base + BitVec.ofNat 64 k) = mem (base + BitVec.ofNat 64 k) := by
  have hnum := num.isLt
  rw [idtSetGate]
  simp (disch := omega) only [ByteMemory.writeField_of_apart hapart hk]

theorem isrGates_of_apart {base idt : BitVec 64} {isrAddr : BitVec 8 → BitVec 64} {size k : Nat}
    (hapart : ByteMemory.Apart base size idt (16 * 256)) (hk : k < size) (mem : ByteMemory 64) :
    isrInit idt isrAddr mem (base + BitVec.ofNat 64 k) = mem (base + BitVec.ofNat 64 k) := by
  rw [isrInit]
  generalize List.range 256 = nums
  induction nums generalizing mem with
  | nil => rfl
  | cons num nums ih => rw [List.foldl_cons, ih, idtSetGate_of_apart hapart hk]

theorem gdtSetEntry_of_apart {base gdt : BitVec 64} {size k : Nat}
    (hapart : ByteMemory.Apart base size gdt (8 * gdtEntriesCount)) (hk : k < size) {num : BitVec 16}
    (hnum : num.toNat < gdtEntriesCount) (segBase limit : BitVec 32) (access gran : BitVec 8)
    (mem : ByteMemory 64) :
    gdtSetEntry gdt num segBase limit access gran mem (base + BitVec.ofNat 64 k)
      = mem (base + BitVec.ofNat 64 k) := by
  rw [gdtSetEntry]
  simp (disch := omega) only [ByteMemory.writeField_of_apart hapart hk]

/-! ### After boot -/

/-- The tables and the pointers to them lie apart, as variables do. -/
structure TablesPlaced (gdt gdtPtr idt idtPtr : BitVec 64) : Prop where
  gdtPtr_gdt : ByteMemory.Apart gdtPtr 10 gdt (8 * gdtEntriesCount)
  gdt_idt : ByteMemory.Apart gdt (8 * gdtEntriesCount) idt (16 * 256)
  gdt_idtPtr : ByteMemory.Apart gdt (8 * gdtEntriesCount) idtPtr 10
  idtPtr_idt : ByteMemory.Apart idtPtr 10 idt (16 * 256)

/-- The segments of the kernel and of user programs. -/
def kernelCode : SegmentDescriptor := segmentOf 0#32 0xFFFFF#32 0x9A#8 0xA0#8

def kernelData : SegmentDescriptor := segmentOf 0#32 0xFFFFF#32 0x92#8 0xC0#8

section Boot

variable {gdt gdtPtr idt idtPtr : BitVec 64} {isrAddr : BitVec 8 → BitVec 64} {mem : ByteMemory 64}

theorem decode_gdtInit_code : SegmentDescriptor.decode (gdtInit gdt gdtPtr mem) gdt 1 = kernelCode := by
  rw [gdtInit, decode_gdtSetEntry_of_ne (by decide) (by decide),
    decode_gdtSetEntry_of_ne (by decide) (by decide), decode_gdtSetEntry_of_ne (by decide) (by decide)]
  exact decode_gdtSetEntry_self gdt 1#16 _ _ _ _ _

theorem decode_gdtInit_data : SegmentDescriptor.decode (gdtInit gdt gdtPtr mem) gdt 2 = kernelData := by
  rw [gdtInit, decode_gdtSetEntry_of_ne (by decide) (by decide),
    decode_gdtSetEntry_of_ne (by decide) (by decide)]
  exact decode_gdtSetEntry_self gdt 2#16 _ _ _ _ _

theorem load_gdtInit (h : ByteMemory.Apart gdtPtr 10 gdt (8 * gdtEntriesCount)) :
    TableRegister.load (gdtInit gdt gdtPtr mem) gdtPtr = ⟨39#16, gdt⟩ := by
  have hkept : ∀ k < 10, gdtInit gdt gdtPtr mem (gdtPtr + BitVec.ofNat 64 k)
      = ((mem.writeField gdtPtr 0 2 39#16).writeField gdtPtr 2 8 gdt) (gdtPtr + BitVec.ofNat 64 k) := by
    intro k hk
    rw [gdtInit, gdtSetEntry_of_apart h hk (by decide), gdtSetEntry_of_apart h hk (by decide),
      gdtSetEntry_of_apart h hk (by decide), gdtSetEntry_of_apart h hk (by decide),
      gdtSetEntry_of_apart h hk (by decide)]
    rfl
  rw [TableRegister.load, ByteMemory.readField_congr (by decide) hkept,
    ByteMemory.readField_congr (by decide) hkept, ByteMemory.readField_writeField_self (by decide),
    ByteMemory.readField_writeField_of_ne (by decide) (by decide) (by decide),
    ByteMemory.readField_writeField_self (by decide)]

theorem load_idtInit (h : ByteMemory.Apart idtPtr 10 idt (16 * 256)) :
    TableRegister.load (idtInit idt idtPtr isrAddr mem) idtPtr = ⟨4095#16, idt⟩ := by
  have hkept : ∀ k < 10, idtInit idt idtPtr isrAddr mem (idtPtr + BitVec.ofNat 64 k)
      = ((mem.writeField idtPtr 0 2 4095#16).writeField idtPtr 2 8 idt)
          (idtPtr + BitVec.ofNat 64 k) := by
    intro k hk
    rw [idtInit, isrGates_of_apart h hk, ByteMemory.fill_of_apart h hk]
  rw [TableRegister.load, ByteMemory.readField_congr (by decide) hkept,
    ByteMemory.readField_congr (by decide) hkept, ByteMemory.readField_writeField_self (by decide),
    ByteMemory.readField_writeField_of_ne (by decide) (by decide) (by decide),
    ByteMemory.readField_writeField_self (by decide)]

theorem decode_idtInit (vector : BitVec 8) :
    Gate.decode (idtInit idt idtPtr isrAddr mem) idt vector.toNat
      = gateOf (isrAddr vector) 0x8E#8 0#3 := by
  have hvector := vector.isLt
  have hnums : ∀ num ∈ List.range 256, num < 2 ^ 8 := fun num hnum => List.mem_range.mp hnum
  rw [idtInit, isrInit, decode_isrGates hnums, if_pos (List.mem_range.mpr hvector), Gate.decode]
  -- the stack field is the one `memset` cleared
  simp (disch := omega) only [ByteMemory.readField_fill]
  rfl

theorem SegmentDescriptor.decode_congr {later : ByteMemory 64} {index count : Nat}
    (hindex : index < count)
    (h : ∀ k < 8 * count, later (gdt + BitVec.ofNat 64 k) = mem (gdt + BitVec.ofNat 64 k)) :
    decode later gdt index = decode mem gdt index := by
  rw [decode, decode]
  simp (disch := omega) only [ByteMemory.readField_congr _ h]

theorem Gate.decode_congr {later : ByteMemory 64} {index count : Nat} (hindex : index < count)
    (h : ∀ k < 16 * count, later (idt + BitVec.ofNat 64 k) = mem (idt + BitVec.ofNat 64 k)) :
    decode later idt index = decode mem idt index := by
  rw [decode, decode]
  simp (disch := omega) only [ByteMemory.readField_congr _ h]

/-- `_gdt_flush` of the kernel's table, in ring 0. -/
theorem gdtFlush_gdtInit (h : ByteMemory.Apart gdtPtr 10 gdt (8 * gdtEntriesCount))
    {segments : SegmentRegisters} (hring : rpl segments.cs = 0#2) :
    gdtFlush gdtPtr (gdtInit gdt gdtPtr mem) segments
      = some (⟨39#16, gdt⟩, ⟨0x8#16, 0x10#16, 0x10#16, 0x10#16, 0x10#16, 0x10#16⟩) := by
  have hcode : fetchDescriptor (gdtInit gdt gdtPtr mem) ⟨39#16, gdt⟩ 0x8#16 = some kernelCode :=
    congrArg some decode_gdtInit_code
  have hdata : fetchDescriptor (gdtInit gdt gdtPtr mem) ⟨39#16, gdt⟩ 0x10#16 = some kernelData :=
    congrArg some decode_gdtInit_data
  have hcs : farReturn (gdtInit gdt gdtPtr mem) ⟨39#16, gdt⟩ segments.cs 0x8#16 = some 0x8#16 := by
    rw [farReturn, hcode, hring]
    rfl
  have hds : loadDataSegment (gdtInit gdt gdtPtr mem) ⟨39#16, gdt⟩ 0x8#16 0x10#16
      = some 0x10#16 := by
    rw [loadDataSegment, hdata]
    rfl
  have hss : loadStackSegment (gdtInit gdt gdtPtr mem) ⟨39#16, gdt⟩ 0x8#16 0x10#16
      = some 0x10#16 := by
    rw [loadStackSegment, hdata]
    rfl
  simp only [gdtFlush, load_gdtInit h, hcs, hds, hss, Option.bind_eq_bind, Option.bind_some]

/-- **Every interrupt enters its stub.** `gdt_init` and `idt_init`, whatever the memory held before:
the segment registers are reloaded without a fault, and as long as nobody writes to the tables, every
vector taken in the kernel goes to its own stub, in ring 0, on the same stack and with interrupts
off. -/
theorem interrupts_enter_stubs (h : TablesPlaced gdt gdtPtr idt idtPtr)
    {segments : SegmentRegisters} (hring : rpl segments.cs = 0#2) :
    let booted := idtInit idt idtPtr isrAddr (gdtInit gdt gdtPtr mem)
    ∃ gdtr, gdtFlush gdtPtr (gdtInit gdt gdtPtr mem) segments
        = some (gdtr, ⟨0x8#16, 0x10#16, 0x10#16, 0x10#16, 0x10#16, 0x10#16⟩)
      ∧ ∀ later : ByteMemory 64,
        (∀ k < 8 * gdtEntriesCount,
          later (gdt + BitVec.ofNat 64 k) = booted (gdt + BitVec.ofNat 64 k)) →
        (∀ k < 16 * 256, later (idt + BitVec.ofNat 64 k) = booted (idt + BitVec.ofNat 64 k)) →
        ∀ vector, takeInterrupt later gdtr (TableRegister.load booted idtPtr) 0x8#16 vector
          = some ⟨isrAddr vector, 0x8#16, false, true⟩ := by
  intro booted
  refine ⟨⟨39#16, gdt⟩, gdtFlush_gdtInit h.gdtPtr_gdt hring, fun later hgdt hidt vector => ?_⟩
  have hkept : ∀ k < 8 * gdtEntriesCount, booted (gdt + BitVec.ofNat 64 k)
      = gdtInit gdt gdtPtr mem (gdt + BitVec.ofNat 64 k) := by
    intro k hk
    change idtInit idt idtPtr isrAddr (gdtInit gdt gdtPtr mem) _ = _
    rw [idtInit, isrGates_of_apart h.gdt_idt hk, ByteMemory.fill_of_apart h.gdt_idt hk,
      ByteMemory.writeField_of_apart h.gdt_idtPtr hk (by decide),
      ByteMemory.writeField_of_apart h.gdt_idtPtr hk (by decide)]
  have hcode : fetchDescriptor later ⟨39#16, gdt⟩ 0x8#16 = some kernelCode := by
    refine congrArg some ?_
    change SegmentDescriptor.decode later gdt 1 = _
    rw [SegmentDescriptor.decode_congr (by decide) hgdt, SegmentDescriptor.decode_congr (by decide) hkept,
      decode_gdtInit_code]
  have hgate : Gate.decode later idt vector.toNat = gateOf (isrAddr vector) 0x8E#8 0#3 := by
    rw [Gate.decode_congr vector.isLt hidt]
    exact decode_idtInit vector
  have hlimit : ¬ (4095#16).toNat < 16 * vector.toNat + 15 := by
    have hvector := vector.isLt
    change ¬ 4095 < _
    omega
  change takeInterrupt later ⟨39#16, gdt⟩ (TableRegister.load
    (idtInit idt idtPtr isrAddr (gdtInit gdt gdtPtr mem)) idtPtr) 0x8#16 vector = _
  rw [load_idtInit h.idtPtr_idt, takeInterrupt, if_neg hlimit, hgate]
  have hcs : (0x08#16).extractLsb' 2 14 ++ kernelCode.dpl = 0x8#16 := by decide
  refine (congrArg (fun d => Option.bind d _) hcode).trans ((if_pos ?_).trans ?_)
  · change ((0x8E#8).extractLsb' 0 4 = 0xE#4 ∨ (0x8E#8).extractLsb' 0 4 = 0xF#4)
      ∧ (0x8E#8).getLsbD 7 = true ∧ ¬ isNull 0x8#16 = true ∧ kernelCode.isLongCode = true
      ∧ kernelCode.dpl ≤ rpl 0x8#16 ∧ kernelCode.present = true
    decide
  · rw [← hcs]
    rfl

end Boot

/-- A page fault, over a memory full of ones and with stubs sixteen bytes apart. -/
theorem interrupts_enter_stubs_pageFault :
    let stub : BitVec 8 → BitVec 64 := fun vector => 0xFFFFFFFF80010000#64 + vector.setWidth 64 * 16#64
    let booted := idtInit 0x4000#64 0x3000#64 stub (gdtInit 0x1000#64 0x2000#64 fun _ => 0xFF#8)
    ∃ gdtr, gdtFlush 0x2000#64 (gdtInit 0x1000#64 0x2000#64 fun _ => 0xFF#8)
          ⟨0x28#16, 0x30#16, 0x30#16, 0x30#16, 0x30#16, 0x30#16⟩
        = some (gdtr, ⟨0x8#16, 0x10#16, 0x10#16, 0x10#16, 0x10#16, 0x10#16⟩)
      ∧ takeInterrupt booted gdtr (TableRegister.load booted 0x3000#64) 0x8#16 14#8
          = some ⟨0xFFFFFFFF800100E0#64, 0x8#16, false, true⟩ := by
  intro stub booted
  have hplaced : TablesPlaced 0x1000#64 0x2000#64 0x4000#64 0x3000#64 :=
    ⟨(ByteMemory.apart_of_le (by decide) (by decide)).symm,
      ByteMemory.apart_of_le (by decide) (by decide), ByteMemory.apart_of_le (by decide) (by decide),
      ByteMemory.apart_of_le (by decide) (by decide)⟩
  have hring : rpl (SegmentRegisters.mk 0x28#16 0x30#16 0x30#16 0x30#16 0x30#16 0x30#16).cs = 0#2 := by
    decide
  obtain ⟨gdtr, hflush, hinterrupts⟩ := interrupts_enter_stubs hplaced hring
  exact ⟨gdtr, hflush, hinterrupts booted (fun _ _ => rfl) (fun _ _ => rfl) 14#8⟩

end RainstormOs
