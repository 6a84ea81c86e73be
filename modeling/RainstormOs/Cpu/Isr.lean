import RainstormOs.Lib.ByteMemory

/-!
# Interrupt entry and exit

The stubs of `isr.asm`, one for each vector, as `gen_isr.py` expands them: they complete the stack so
that it has the layout of `Registers` in `isr.h`, call `isr_handler` with a pointer to it, and undo
all of it before `iretq`. The processor's own part, which comes before the stub, is `deliver`.

Segment checks, the instruction pointer inside the stub and the flags of the interrupted code while
the stub runs are left out: nothing in the stub reads them, and `iretq` takes them from the stack.
-/

namespace RainstormOs

/-! ### `isr.h` -/

/-- `struct Registers`, packed, in the order of its declaration. -/
structure Registers where
  r15 : BitVec 64
  r14 : BitVec 64
  r13 : BitVec 64
  r12 : BitVec 64
  r11 : BitVec 64
  r10 : BitVec 64
  r9 : BitVec 64
  r8 : BitVec 64
  rbp : BitVec 64
  rdi : BitVec 64
  rsi : BitVec 64
  rdx : BitVec 64
  rcx : BitVec 64
  rbx : BitVec 64
  rax : BitVec 64
  interruptNum : BitVec 64
  errorCode : BitVec 64
  rip : BitVec 64
  cs : BitVec 64
  rflags : BitVec 64
  rsp : BitVec 64
  ss : BitVec 64
deriving DecidableEq

/-- `*regs`, a member every eight bytes. -/
def Registers.read (mem : ByteMemory 64) (regs : BitVec 64) : Registers :=
  let member := fun i : Nat => mem.readWord (regs + BitVec.ofNat 64 (8 * i)) 8
  ⟨member 0, member 1, member 2, member 3, member 4, member 5, member 6, member 7, member 8,
    member 9, member 10, member 11, member 12, member 13, member 14, member 15, member 16,
    member 17, member 18, member 19, member 20, member 21⟩

/-! ### The processor -/

/-- The general registers, all but the stack pointer. -/
inductive Reg where
  | rax | rbx | rcx | rdx | rsi | rdi | rbp
  | r8 | r9 | r10 | r11 | r12 | r13 | r14 | r15
deriving DecidableEq

/-- What an interrupt must not disturb. -/
structure Context where
  general : Reg → BitVec 64
  rip : BitVec 64
  cs : BitVec 64
  rflags : BitVec 64
  rsp : BitVec 64
  ss : BitVec 64

/-- The processor in a stub, with memory as its stack pointer sees it. -/
structure Cpu where
  general : Reg → BitVec 64
  rsp : BitVec 64
  mem : ByteMemory 64

def Cpu.push (s : Cpu) (word : BitVec 64) : Cpu :=
  { s with rsp := s.rsp - 8#64, mem := s.mem.writeWord (s.rsp - 8#64) 8 word }

def Cpu.word (s : Cpu) (offset : BitVec 64) : BitVec 64 := s.mem.readWord (s.rsp + offset) 8

/-- The exceptions for which the processor pushes an error code. -/
def pushesErrorCode (vector : BitVec 8) : Bool :=
  [8#8, 10#8, 11#8, 12#8, 13#8, 14#8, 17#8, 21#8, 29#8, 30#8].contains vector

/-- An interrupt is delivered on the given stack, which is aligned to 16 bytes first. -/
def deliver (vector : BitVec 8) (errorCode stack : BitVec 64) (context : Context)
    (mem : ByteMemory 64) : Cpu :=
  let s : Cpu := ⟨context.general, stack &&& ~~~0xF#64, mem⟩
  let s := s.push context.ss
  let s := s.push context.rsp
  let s := s.push context.rflags
  let s := s.push context.cs
  let s := s.push context.rip
  if pushesErrorCode vector then s.push errorCode else s

inductive Instr where
  | push (reg : Reg)
  | pushImm (word : BitVec 64)
  | pop (reg : Reg)
  | movRsp (reg : Reg)
  | callIsrHandler
  | addRsp (imm : BitVec 64)
  | iretq

/-- One instruction: the next state of the stub, or the context `iretq` goes to. The call of
`isr_handler` stands for everything up to its return, return address included. -/
def Instr.exec (isrHandler : Cpu → Cpu) : Instr → Cpu → Cpu ⊕ Context
  | .push reg, s => .inl (s.push (s.general reg))
  | .pushImm word, s => .inl (s.push word)
  | .pop reg, s =>
      .inl { s with general := Function.update s.general reg (s.word 0#64), rsp := s.rsp + 8#64 }
  | .movRsp reg, s => .inl { s with general := Function.update s.general reg s.rsp }
  | .callIsrHandler, s => .inl (isrHandler s)
  | .addRsp imm, s => .inl { s with rsp := s.rsp + imm }
  | .iretq, s => .inr ⟨s.general, s.word 0#64, s.word 8#64, s.word 16#64, s.word 24#64, s.word 32#64⟩

/-- The context a sequence of instructions returns to. -/
def runInstrs (isrHandler : Cpu → Cpu) : List Instr → Cpu → Option Context
  | [], _ => none
  | instr :: rest, s =>
      match instr.exec isrHandler s with
      | .inl s => runInstrs isrHandler rest s
      | .inr context => some context

/-- The state in which a sequence of instructions calls `isr_handler`. -/
def atCall (isrHandler : Cpu → Cpu) : List Instr → Cpu → Option Cpu
  | [], _ => none
  | .callIsrHandler :: _, s => some s
  | instr :: rest, s =>
      match instr.exec isrHandler s with
      | .inl s => atCall isrHandler rest s
      | .inr _ => none

/-! ### `isr.asm` and `gen_isr.py` -/

def isrCommon : List Instr :=
  [.push .rax, .push .rbx, .push .rcx, .push .rdx, .push .rsi, .push .rdi, .push .rbp,
    .push .r8, .push .r9, .push .r10, .push .r11, .push .r12, .push .r13, .push .r14, .push .r15,
    .movRsp .rdi, .callIsrHandler,
    .pop .r15, .pop .r14, .pop .r13, .pop .r12, .pop .r11, .pop .r10, .pop .r9, .pop .r8,
    .pop .rbp, .pop .rdi, .pop .rsi, .pop .rdx, .pop .rcx, .pop .rbx, .pop .rax,
    .addRsp 16#64, .iretq]

/-- The macro `ISR_NO_ERROR`: a dummy error code, the vector, and the common part. -/
def isrNoError (vector : BitVec 8) : List Instr :=
  .pushImm 0#64 :: .pushImm (vector.setWidth 64) :: isrCommon

/-- The macro `ISR_ERROR`, for vectors whose error code is on the stack already. -/
def isrError (vector : BitVec 8) : List Instr :=
  .pushImm (vector.setWidth 64) :: isrCommon

/-- `with_error` of `gen_isr.py`. -/
def withError : List (BitVec 8) := [8#8, 10#8, 11#8, 12#8, 13#8, 14#8, 17#8, 21#8]

/-- `_isr<vector>`, as the generator expands it. -/
def isr (vector : BitVec 8) : List Instr :=
  if withError.contains vector then isrError vector else isrNoError vector

end RainstormOs
