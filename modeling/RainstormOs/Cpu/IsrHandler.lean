import RainstormOs.Cpu.Isr
import RainstormOs.Utils.Klog

/-!
# `cpu/isr.c`

The stubs hand every interrupt to `isr_handler`, with the frame they built. It is passed on to the
handler registered for its vector. Without one an interrupt is reported and forgotten, and an
exception is fatal.
-/

namespace RainstormOs

open Klog Printf

def exceptions : List String :=
  ["Divide by zero error", "Debug", "Non-maskable Interrupt", "Breakpoint", "Overflow",
    "Bound Range Exceeded", "Invalid Opcode", "Device Not Available", "Double Fault",
    "Coprocessor Segment Overrun", "Invalid TSS", "Segment Not Present", "Stack-Segment Fault",
    "General Protection Fault", "Page Fault", "", "x87 Floating-Point Exception", "Alignment Check",
    "Machine Check", "SIMD Floating-Point Exception", "Virtualization Exception",
    "Control Protection Exception ", "", "", "", "", "", "", "Hypervisor Injection Exception",
    "VMM Communication Exception", "Security Exception", ""]

/-- The static table of `isr.c`, the log, and the calls the handlers have received. -/
structure IsrState (Fn : Type) where
  handlers : BitVec 8 → Option Fn
  calls : List (Fn × Registers)
  log : Klog.State

/-- What `isr_handler` finds: the string constants, with the pointers in `exceptions`, what a handler
leaves of the frame it is given, the register `cr2`, and the frame pointer in `klogf`. -/
structure IsrEnv (Fn : Type) where
  strings : Strings
  exceptionPtr : BitVec 64 → BitVec 64
  handle : Fn → Registers → Registers
  cr2 : BitVec 64
  rbp : BitVec 64

/-- How `isr_handler` ends. -/
inductive IsrOutcome (Fn : Type) where
  | returns (regs : Registers) (s : IsrState Fn)
  | halts (s : IsrState Fn)

variable {Fn : Type}

def isrRegisterHandler (isr : BitVec 8) (handler : Option Fn) (s : IsrState Fn) : IsrState Fn :=
  { s with handlers := Function.update s.handlers isr handler }

/-- The lines `isr_handler` prints about an exception. -/
def exceptionDump (env : IsrEnv Fn) (regs : Registers) (s : Klog.State) : Option Klog.State := do
  let s ← s.kprintf env.strings (cstr "\n--- EXCEPTION: %s (vector=0x%llx) ---\n")
    [env.exceptionPtr regs.interruptNum, regs.interruptNum]
  let s ← s.kprintf env.strings (cstr "RIP=0x%016llx  RSP=0x%016llx  RBP=0x%016llx\n")
    [regs.rip, regs.rsp, regs.rbp]
  let s ← s.kprintf env.strings
    (cstr "RAX=0x%016llx  RBX=0x%016llx  RCX=0x%016llx  RDX=0x%016llx\n")
    [regs.rax, regs.rbx, regs.rcx, regs.rdx]
  let s ← s.kprintf env.strings (cstr "RSI=0x%016llx  RDI=0x%016llx\n") [regs.rsi, regs.rdi]
  let s ← s.kprintf env.strings
    (cstr "R8 =0x%016llx  R9 =0x%016llx  R10=0x%016llx  R11=0x%016llx\n")
    [regs.r8, regs.r9, regs.r10, regs.r11]
  let s ← s.kprintf env.strings
    (cstr "R12=0x%016llx  R13=0x%016llx  R14=0x%016llx  R15=0x%016llx\n")
    [regs.r12, regs.r13, regs.r14, regs.r15]
  let s ← s.kprintf env.strings (cstr "CS =0x%04llx  SS =0x%04llx  RFLAGS=0x%016llx\n")
    [regs.cs, regs.ss, regs.rflags]
  s.kprintf env.strings (cstr "CR2=0x%016llx  ERR=0x%016llx\n") [env.cr2, regs.errorCode]

/-- The end of a call of `klogf` is the end of the handler. -/
def IsrState.logged (s : IsrState Fn) (regs : Registers) : Outcome → IsrOutcome Fn
  | .returns log => .returns regs { s with log := log }
  | .halts log => .halts { s with log := log }

def isrHandler (env : IsrEnv Fn) (regs : Registers) (s : IsrState Fn) : Option (IsrOutcome Fn) :=
  let intNum : BitVec 8 := regs.interruptNum.setWidth 8
  match s.handlers intNum with
  | some handler =>
      let s := { s with calls := s.calls ++ [(handler, regs)] }
      let regs := env.handle handler regs
      (Klog.klogf env.strings .debug (cstr "interrupt received %llu") [regs.interruptNum] env.rbp
        s.log).map (s.logged regs)
  | none =>
      if intNum ≥ 0x20#8 then
        (Klog.klogf env.strings .warn (cstr "Unhandled Interrupt: %d") [intNum.setWidth 64] env.rbp
          s.log).map (s.logged regs)
      else do
        let log ← exceptionDump env regs s.log
        (Klog.klogf env.strings .panic (cstr "unhandled exception") [] env.rbp log).map (s.logged regs)

end RainstormOs
