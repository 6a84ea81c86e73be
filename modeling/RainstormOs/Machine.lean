import RainstormOs.Lib.Prog
import RainstormOs.Lib.ByteMemory

/-!
# The machine the kernel runs on

The kernel reaches memory through the higher-half direct map, so every load and store of the model
takes the virtual address the C code forms with `HHDM_PHYS_TO_VIRT`. The handler below undoes the
offset and accesses physical memory at the result. That this is what the processor's own translation
gives is not assumed away: it is a theorem about the page tables, stated over the same commands.

Static variables live in the kernel image and not in the memory the allocator manages, so they are a
record of their own.
-/

namespace RainstormOs

abbrev PhysAddr := BitVec 64

abbrev VirtAddr := BitVec 64

/-! ### `memory/mm.h` -/

def pageSize : BitVec 64 := 0x1000#64

def pageMask : BitVec 64 := pageSize - 1#64

def pageAlignUp (addr : BitVec 64) : BitVec 64 := (addr + pageMask) &&& ~~~pageMask

def pageCount (size : BitVec 64) : BitVec 64 := pageAlignUp size / pageSize

/-- The test `IS_PAGE_ALIGNED`. -/
def IsPageAligned (addr : BitVec 64) : Prop := addr &&& pageMask = 0#64

instance (addr : BitVec 64) : Decidable (IsPageAligned addr) :=
  inferInstanceAs (Decidable (_ = _))

/-- The static variables of `pmm.c` and `paging.c`. `kernelPml4Entries` has 256 entries, at the
indices below 256. -/
structure Globals where
  bitmapStart : VirtAddr
  bitmapSize : BitVec 64
  totalFrames : BitVec 64
  hhdmOffset : BitVec 64
  kernelPml4Entries : Nat → BitVec 64

def Globals.hhdmPhysToVirt (globals : Globals) (phys : PhysAddr) : VirtAddr :=
  phys + globals.hhdmOffset

def Globals.hhdmVirtToPhys (globals : Globals) (virt : VirtAddr) : PhysAddr :=
  virt - globals.hhdmOffset

structure Machine where
  mem : ByteMemory 64
  globals : Globals
  cr3 : PhysAddr
  nxe : Bool

inductive KlogLevel where
  | debug
  | info
  | warn
  | error
deriving DecidableEq

/-- What the kernel asks of the machine: memory accesses, its static variables, the log, and the
privileged instructions of `paging.asm`. -/
inductive Cmd where
  | load8 (addr : VirtAddr)
  | store8 (addr : VirtAddr) (byte : BitVec 8)
  | load64 (addr : VirtAddr)
  | store64 (addr : VirtAddr) (word : BitVec 64)
  | globals
  | setGlobals (globals : Globals)
  | klogf (level : KlogLevel) (string : String) (args : List (BitVec 64))
  | kpanic (string : String)
  | invlpg (addr : VirtAddr)
  | readCr3
  | writeCr3 (pml4 : PhysAddr)
  | enableNxe

abbrev Cmd.Reply : Cmd → Type
  | .load8 _ => BitVec 8
  | .load64 _ => BitVec 64
  | .globals => Globals
  | .readCr3 => PhysAddr
  | .kpanic _ => Empty
  | _ => Unit

/-- One command. A panic masks interrupts and halts for good, so nothing follows it. -/
def exec : (command : Cmd) → Machine → Option (command.Reply × Machine)
  | .load8 addr, s => some (s.mem (s.globals.hhdmVirtToPhys addr), s)
  | .store8 addr byte, s =>
      some ((), { s with mem := s.mem.writeByte (s.globals.hhdmVirtToPhys addr) byte })
  | .load64 addr, s => some (s.mem.readWord (s.globals.hhdmVirtToPhys addr) 8, s)
  | .store64 addr word, s =>
      some ((), { s with mem := s.mem.writeWord (s.globals.hhdmVirtToPhys addr) 8 word })
  | .globals, s => some (s.globals, s)
  | .setGlobals globals, s => some ((), { s with globals := globals })
  | .klogf _ _ _, s => some ((), s)
  | .kpanic _, _ => none
  | .invlpg _, s => some ((), s)
  | .readCr3, s => some (s.cr3, s)
  | .writeCr3 pml4, s => some ((), { s with cr3 := pml4 })
  | .enableNxe, s => some ((), { s with nxe := true })

/-- Kernel code returning an `α`. -/
abbrev Kernel (α : Type) := Prog Cmd Cmd.Reply α

def load8 (addr : VirtAddr) : Kernel (BitVec 8) := Prog.issue (Cmd.load8 addr)

def store8 (addr : VirtAddr) (byte : BitVec 8) : Kernel Unit := Prog.issue (Cmd.store8 addr byte)

def load64 (addr : VirtAddr) : Kernel (BitVec 64) := Prog.issue (Cmd.load64 addr)

def store64 (addr : VirtAddr) (word : BitVec 64) : Kernel Unit := Prog.issue (Cmd.store64 addr word)

def getGlobals : Kernel Globals := Prog.issue Cmd.globals

def setGlobals (globals : Globals) : Kernel Unit := Prog.issue (Cmd.setGlobals globals)

def klogf (level : KlogLevel) (string : String) (args : List (BitVec 64)) : Kernel Unit :=
  Prog.issue (Cmd.klogf level string args)

def kpanic {α : Type} (string : String) : Kernel α := .call (.kpanic string) Empty.elim

def invlpg (addr : VirtAddr) : Kernel Unit := Prog.issue (Cmd.invlpg addr)

def readCr3 : Kernel PhysAddr := Prog.issue Cmd.readCr3

def writeCr3 (pml4 : PhysAddr) : Kernel Unit := Prog.issue (Cmd.writeCr3 pml4)

def enableNxe : Kernel Unit := Prog.issue Cmd.enableNxe

/-- Running kernel code on the machine; `none` is a panic. -/
abbrev Kernel.run {α : Type} (prog : Kernel α) (s : Machine) : Option (α × Machine) :=
  Prog.run exec prog s

theorem Kernel.run_bind {α β : Type} (prog : Kernel α) (next : α → Kernel β) (s : Machine) :
    Kernel.run (prog >>= next) s = (prog.run s).bind fun out => (next out.1).run out.2 :=
  Prog.run_bind

theorem exec_ne_none {c : Cmd} (hc : ∀ string, c ≠ .kpanic string) (s : Machine) :
    exec c s ≠ none := by
  cases c with
  | kpanic string => exact absurd rfl (hc string)
  | _ => simp [exec]

theorem Kernel.returns {α : Type} {prog : Kernel α} {s : Machine} {post : α → Machine → Prop}
    (h : Prog.Wp exec (fun _ c => ∀ string, c ≠ .kpanic string) prog s post) :
    ∃ value t, prog.run s = some (value, t) ∧ post value t :=
  h.returns fun mid _ hc => exec_ne_none hc mid

theorem Kernel.run_eq {α : Type} {prog : Kernel α} {s t : Machine} {value : α}
    (h : Prog.Wp exec (fun _ c => ∀ string, c ≠ .kpanic string) prog s
      fun result after => result = value ∧ after = t) : prog.run s = some (value, t) := by
  obtain ⟨result, after, hrun, rfl, rfl⟩ := Kernel.returns h
  exact hrun

/-! ### What one command needs and does

The rules the proofs run the code with, one for each command. -/

section Rules

variable {guar : Machine → Cmd → Prop} {s : Machine}

@[simp]
theorem wp_load8 {addr : VirtAddr} {post : BitVec 8 → Machine → Prop} :
    Prog.Wp exec guar (load8 addr) s post ↔
      guar s (.load8 addr) ∧ post (s.mem (s.globals.hhdmVirtToPhys addr)) s :=
  Prog.wp_issue rfl

@[simp]
theorem wp_store8 {addr : VirtAddr} {byte : BitVec 8} {post : Unit → Machine → Prop} :
    Prog.Wp exec guar (store8 addr byte) s post ↔
      guar s (.store8 addr byte)
        ∧ post () { s with mem := s.mem.writeByte (s.globals.hhdmVirtToPhys addr) byte } :=
  Prog.wp_issue rfl

@[simp]
theorem wp_load64 {addr : VirtAddr} {post : BitVec 64 → Machine → Prop} :
    Prog.Wp exec guar (load64 addr) s post ↔
      guar s (.load64 addr)
        ∧ post (s.mem.readWord (s.globals.hhdmVirtToPhys addr) 8) s :=
  Prog.wp_issue rfl

@[simp]
theorem wp_store64 {addr : VirtAddr} {word : BitVec 64} {post : Unit → Machine → Prop} :
    Prog.Wp exec guar (store64 addr word) s post ↔
      guar s (.store64 addr word)
        ∧ post () { s with mem := s.mem.writeWord (s.globals.hhdmVirtToPhys addr) 8 word } :=
  Prog.wp_issue rfl

@[simp]
theorem wp_getGlobals {post : Globals → Machine → Prop} :
    Prog.Wp exec guar getGlobals s post ↔ guar s .globals ∧ post s.globals s :=
  Prog.wp_issue rfl

@[simp]
theorem wp_setGlobals {globals : Globals} {post : Unit → Machine → Prop} :
    Prog.Wp exec guar (setGlobals globals) s post ↔
      guar s (.setGlobals globals) ∧ post () { s with globals := globals } :=
  Prog.wp_issue rfl

@[simp]
theorem wp_klogf {level : KlogLevel} {string : String} {args : List (BitVec 64)}
    {post : Unit → Machine → Prop} :
    Prog.Wp exec guar (klogf level string args) s post ↔
      guar s (.klogf level string args) ∧ post () s :=
  Prog.wp_issue rfl

@[simp]
theorem wp_kpanic {α : Type} {string : String} {post : α → Machine → Prop} :
    Prog.Wp exec guar (kpanic string) s post ↔ guar s (.kpanic string) := by
  simp [kpanic, Prog.Wp, exec]

@[simp]
theorem wp_invlpg {addr : VirtAddr} {post : Unit → Machine → Prop} :
    Prog.Wp exec guar (invlpg addr) s post ↔ guar s (.invlpg addr) ∧ post () s :=
  Prog.wp_issue rfl

@[simp]
theorem wp_readCr3 {post : PhysAddr → Machine → Prop} :
    Prog.Wp exec guar readCr3 s post ↔ guar s .readCr3 ∧ post s.cr3 s :=
  Prog.wp_issue rfl

@[simp]
theorem wp_writeCr3 {pml4 : PhysAddr} {post : Unit → Machine → Prop} :
    Prog.Wp exec guar (writeCr3 pml4) s post ↔
      guar s (.writeCr3 pml4) ∧ post () { s with cr3 := pml4 } :=
  Prog.wp_issue rfl

@[simp]
theorem wp_enableNxe {post : Unit → Machine → Prop} :
    Prog.Wp exec guar enableNxe s post ↔ guar s .enableNxe ∧ post () { s with nxe := true } :=
  Prog.wp_issue rfl

end Rules

@[simp]
theorem hhdmVirtToPhys_physToVirt (globals : Globals) (phys : PhysAddr) :
    globals.hhdmVirtToPhys (globals.hhdmPhysToVirt phys) = phys := by
  simp [Globals.hhdmVirtToPhys, Globals.hhdmPhysToVirt]

/-- Pointer arithmetic on a direct-map address moves the physical address by the same amount. -/
@[simp]
theorem hhdmVirtToPhys_physToVirt_add (globals : Globals) (phys : PhysAddr) (offset : BitVec 64) :
    globals.hhdmVirtToPhys (globals.hhdmPhysToVirt phys + offset) = phys + offset := by
  rw [Globals.hhdmVirtToPhys, Globals.hhdmPhysToVirt, BitVec.add_assoc,
    BitVec.add_comm globals.hhdmOffset, ← BitVec.add_assoc, BitVec.add_sub_cancel]

end RainstormOs
