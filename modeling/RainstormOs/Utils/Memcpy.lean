import RainstormOs.Cpu.Isr

/-!
# `utils/memory.asm`

`memcpy`: the quadwords of the block with one string move, the bytes that are left with another. Both
advance the same pointers, and the block's address waits on the stack to be returned.

The arithmetic flags are left out, as nothing in the routine reads them. The direction flag is not:
it decides which way the string moves go.
-/

namespace RainstormOs

def Cpu.set (s : Cpu) (reg : Reg) (word : BitVec 64) : Cpu :=
  { s with general := Function.update s.general reg word }

@[simp]
theorem Cpu.set_general_self (s : Cpu) (reg : Reg) (word : BitVec 64) :
    (s.set reg word).general reg = word := by
  simp [Cpu.set]

theorem Cpu.set_general_of_ne {s : Cpu} {reg other : Reg} {word : BitVec 64} (hne : other ≠ reg) :
    (s.set reg word).general other = s.general other := by
  simp [Cpu.set, hne]

/-- One element of `width` bytes from `[rsi]` to `[rdi]`. -/
def Cpu.movs (df : Bool) (width : Nat) (s : Cpu) : Cpu :=
  let step := if df then -BitVec.ofNat 64 width else BitVec.ofNat 64 width
  let moved := { s with
    mem := s.mem.writeWord (s.general .rdi) width (s.mem.readWord (s.general .rsi) width) }
  (moved.set .rsi (s.general .rsi + step)).set .rdi (s.general .rdi + step)

/-- The repeat prefix: `rcx` counts the elements down. -/
def Cpu.rep (body : Cpu → Cpu) : Nat → Cpu → Cpu
  | 0, s => s
  | n + 1, s => rep body n ((body s).set .rcx ((body s).general .rcx - 1#64))

inductive MemcpyInstr where
  | push (reg : Reg)
  | mov (reg source : Reg)
  | shr (reg : Reg) (imm : Nat)
  | and (reg : Reg) (imm : BitVec 64)
  | repMovsq
  | repMovsb
  | pop (reg : Reg)
  | ret

/-- One instruction: the next state of the routine, or the address `ret` goes to with the state
there. -/
def MemcpyInstr.exec (df : Bool) : MemcpyInstr → Cpu → Cpu ⊕ (BitVec 64 × Cpu)
  | .push reg, s => .inl (s.push (s.general reg))
  | .mov reg source, s => .inl (s.set reg (s.general source))
  | .shr reg imm, s => .inl (s.set reg (s.general reg >>> imm))
  | .and reg imm, s => .inl (s.set reg (s.general reg &&& imm))
  | .repMovsq, s => .inl (s.rep (Cpu.movs df 8) (s.general .rcx).toNat)
  | .repMovsb, s => .inl (s.rep (Cpu.movs df 1) (s.general .rcx).toNat)
  | .pop reg, s => .inl { s.set reg (s.word 0#64) with rsp := s.rsp + 8#64 }
  | .ret, s => .inr (s.word 0#64, { s with rsp := s.rsp + 8#64 })

/-- Where a routine returns to and in which state. -/
def runRoutine (df : Bool) : List MemcpyInstr → Cpu → Option (BitVec 64 × Cpu)
  | [], _ => none
  | instr :: rest, s =>
      match instr.exec df s with
      | .inl s => runRoutine df rest s
      | .inr result => some result

def memcpy : List MemcpyInstr :=
  [.push .rdi,
    .mov .rcx .rdx, .shr .rcx 3, .repMovsq,
    .mov .rcx .rdx, .and .rcx 7#64, .repMovsb,
    .pop .rax, .ret]

end RainstormOs
