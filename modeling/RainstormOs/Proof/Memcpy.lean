import RainstormOs.Utils.Memcpy
import RainstormOs.Proof.Memory

/-!
# `memcpy` and `memmove`

The two string moves of `memcpy` are one copy with two element sizes: each leaves the pointers behind
the bytes it has moved, and the second starts where the first stopped. Between `push rdi` and
`pop rax` the routine uses one word below the caller's stack pointer. A caller hands over blocks of
its own, so neither meets that word, and the rest of memory is what `memmove` leaves.
-/

namespace RainstormOs

/-- A block that does not meet the free word below the stack pointer. -/
def OffStack (rsp addr count : BitVec 64) : Prop :=
  ∀ i, i < count.toNat → 8 ≤ (addr + BitVec.ofNat 64 i - (rsp - 8#64)).toNat

/-- The string moves that began in `start` have moved `k` bytes. -/
structure Copying (start : Cpu) (dest src : BitVec 64) (k : Nat) (c : Cpu) : Prop where
  mem : c.mem = start.mem.copy dest src 0 k
  rsi : c.general .rsi = src + BitVec.ofNat 64 k
  rdi : c.general .rdi = dest + BitVec.ofNat 64 k
  rsp : c.rsp = start.rsp
  other : ∀ reg, reg ≠ .rcx → reg ≠ .rsi → reg ≠ .rdi → c.general reg = start.general reg

section StringMoves

variable {start c : Cpu} {dest src count : BitVec 64} {k n width : Nat}

theorem Copying.setRcx (h : Copying start dest src k c) (word : BitVec 64) :
    Copying start dest src k (c.set .rcx word) where
  mem := h.mem
  rsi := h.rsi
  rdi := h.rdi
  rsp := h.rsp
  other reg hrcx hrsi hrdi := by
    rw [Cpu.set_general_of_ne hrcx, h.other reg hrcx hrsi hrdi]

/-- The word about to be moved is the original one. -/
theorem Copying.readWord (h : Copying start dest src k c)
    (hsrc : src.toNat + count.toNat ≤ 2 ^ 64)
    (hapart : dest.toNat ≤ src.toNat ∨ src.toNat + count.toNat ≤ dest.toNat)
    (hk : k + width ≤ count.toNat) :
    c.mem.readWord (c.general .rsi) width
      = start.mem.readWord (src + BitVec.ofNat 64 k) width := by
  rw [h.mem, h.rsi]
  apply ByteMemory.readWord_congr
  intro i hi
  rw [BitVec.add_assoc, ← BitVec.ofNat_add]
  apply ByteMemory.copy_of_not_mem
  have hunread := forward_unread hsrc hapart (show k + i < count.toNat by omega)
  omega

theorem Copying.movs (h : Copying start dest src k c) (hsrc : src.toNat + count.toNat ≤ 2 ^ 64)
    (hapart : dest.toNat ≤ src.toNat ∨ src.toNat + count.toNat ≤ dest.toNat)
    (hk : k + width ≤ count.toNat) : Copying start dest src (k + width) (c.movs false width) := by
  have hcount := count.isLt
  constructor
  · change c.mem.writeWord (c.general .rdi) width (c.mem.readWord (c.general .rsi) width) = _
    rw [h.readWord hsrc hapart hk, h.mem, h.rdi]
    exact ByteMemory.writeWord_copy (by omega) fun i => by omega
  · change c.general .rsi + BitVec.ofNat 64 width = _
    rw [h.rsi, BitVec.add_assoc, ← BitVec.ofNat_add]
  · change c.general .rdi + BitVec.ofNat 64 width = _
    rw [h.rdi, BitVec.add_assoc, ← BitVec.ofNat_add]
  · exact h.rsp
  · intro reg hrcx hrsi hrdi
    rw [Cpu.movs, Cpu.set_general_of_ne hrdi, Cpu.set_general_of_ne hrsi]
    exact h.other reg hrcx hrsi hrdi

theorem Copying.rep (h : Copying start dest src k c) (hsrc : src.toNat + count.toNat ≤ 2 ^ 64)
    (hapart : dest.toNat ≤ src.toNat ∨ src.toNat + count.toNat ≤ dest.toNat)
    (hk : k + n * width ≤ count.toNat) :
    Copying start dest src (k + n * width) (c.rep (Cpu.movs false width) n) := by
  induction n generalizing k c with
  | zero => rwa [Nat.zero_mul]
  | succ n ih =>
      rw [Nat.succ_mul] at hk ⊢
      have hstep := (h.movs hsrc hapart (show k + width ≤ count.toNat by omega)).setRcx
        ((c.movs false width).general .rcx - 1#64)
      have hrest := ih hstep (by omega)
      rwa [show k + width + n * width = k + (n * width + width) by omega] at hrest

end StringMoves

/-- The state after the second string move. -/
def Cpu.memcpyMoved (df : Bool) (c : Cpu) : Cpu :=
  let pushed := c.push (c.general .rdi)
  let words := (pushed.set .rcx (pushed.general .rdx >>> 3)).rep (Cpu.movs df 8)
    (pushed.general .rdx >>> 3).toNat
  (words.set .rcx (words.general .rdx &&& 7#64)).rep (Cpu.movs df 1)
    (words.general .rdx &&& 7#64).toNat

theorem runRoutine_memcpy (df : Bool) (c : Cpu) :
    runRoutine df memcpy c = some ((c.memcpyMoved df).word 8#64,
      { (c.memcpyMoved df).set .rax ((c.memcpyMoved df).word 0#64) with
        rsp := (c.memcpyMoved df).rsp + 8#64 + 8#64 }) := by
  simp [memcpy, runRoutine, MemcpyInstr.exec, Cpu.memcpyMoved, Cpu.set, Cpu.word]

/-- Both string moves together move the whole block. -/
theorem copying_memcpyMoved {c : Cpu} {dest src count : BitVec 64} (hrdi : c.general .rdi = dest)
    (hrsi : c.general .rsi = src) (hrdx : c.general .rdx = count)
    (hsrc : src.toNat + count.toNat ≤ 2 ^ 64)
    (hapart : dest.toNat ≤ src.toNat ∨ src.toNat + count.toNat ≤ dest.toNat) :
    Copying (c.push dest) dest src count.toNat (c.memcpyMoved false) := by
  have hshr : (count >>> 3).toNat = count.toNat / 8 := by
    rw [BitVec.toNat_ushiftRight, Nat.shiftRight_eq_div_pow]
  have hand : (count &&& 7#64).toNat = count.toNat % 8 := by
    rw [BitVec.toNat_and]
    exact Nat.and_two_pow_sub_one_eq_mod count.toNat 3
  have hsplit := Nat.div_add_mod count.toNat 8
  have hstart : Copying (c.push dest) dest src 0 (c.push dest) :=
    ⟨(ByteMemory.copy_empty _ _ _ 0).symm, hrsi.trans (BitVec.add_zero src).symm,
      hrdi.trans (BitVec.add_zero dest).symm, rfl, fun _ _ _ _ => rfl⟩
  have hwords : Copying (c.push dest) dest src (0 + count.toNat / 8 * 8) _ :=
    (hstart.setRcx (count >>> 3)).rep hsrc hapart (by omega)
  have hbytes : Copying (c.push dest) dest src (0 + count.toNat / 8 * 8 + count.toNat % 8 * 1) _ :=
    (hwords.setRcx (count &&& 7#64)).rep hsrc hapart (by omega)
  have hmoved : c.memcpyMoved false
      = ((((c.push dest).set .rcx (count >>> 3)).rep (Cpu.movs false 8)
          (count.toNat / 8)).set .rcx (count &&& 7#64)).rep (Cpu.movs false 1)
          (count.toNat % 8) := by
    have hcount : (c.push dest).general .rdx = count := hrdx
    have hkept := hwords.other .rdx (by decide) (by decide) (by decide)
    rw [hcount] at hkept
    simp only [Cpu.memcpyMoved, hrdi, hcount, hshr, hkept, hand]
  rw [hmoved]
  rwa [show 0 + count.toNat / 8 * 8 + count.toNat % 8 * 1 = count.toNat by omega] at hbytes

/-- What the routine leaves in memory: the copy, and the word it pushed. -/
theorem copy_push {c : Cpu} {dest src count : BitVec 64} (hdest : OffStack c.rsp dest count)
    (hsrc : OffStack c.rsp src count) :
    (c.push dest).mem.copy dest src 0 count.toNat
      = (c.mem.copy dest src 0 count.toNat).writeWord (c.rsp - 8#64) 8 dest :=
  ByteMemory.copy_writeWord (fun i _ hi => hsrc i hi) fun i _ hi => hdest i hi

/-- **memcpy is memmove.** On blocks that neither overlap nor wrap and are the caller's, `memcpy`
leaves the memory `memmove` leaves, up to the free word below the stack pointer, and returns the
destination. -/
theorem memcpy_agrees_memmove (s : Machine) (c : Cpu) (hmem : c.mem = s.virtMem)
    (dest src count : BitVec 64) (hrdi : c.general .rdi = dest) (hrsi : c.general .rsi = src)
    (hrdx : c.general .rdx = count)
    (hdest : dest.toNat + count.toNat ≤ 2 ^ 64) (hsrc : src.toNat + count.toNat ≤ 2 ^ 64)
    (hdisjoint : dest.toNat + count.toNat ≤ src.toNat ∨ src.toNat + count.toNat ≤ dest.toNat)
    (hstackDest : OffStack c.rsp dest count) (hstackSrc : OffStack c.rsp src count) :
    ∃ t rip c', (memmove dest src count).run s = some (dest, t)
      ∧ runRoutine false memcpy c = some (rip, c')
      ∧ c'.mem = t.virtMem.writeWord (c.rsp - 8#64) 8 dest
      ∧ c'.general .rax = dest
      ∧ rip = t.virtMem.readWord c.rsp 8 ∧ c'.rsp = c.rsp + 8#64
      ∧ ∀ reg, reg ∉ [Reg.rax, .rcx, .rsi, .rdi] → c'.general reg = c.general reg := by
  have hmoved := copying_memcpyMoved hrdi hrsi hrdx hsrc (hdisjoint.imp_left (by omega))
  have hrsp : (c.memcpyMoved false).rsp = c.rsp - 8#64 := hmoved.rsp
  have hcopy : (c.memcpyMoved false).mem
      = (s.copy dest src 0 count.toNat).virtMem.writeWord (c.rsp - 8#64) 8 dest := by
    rw [hmoved.mem, copy_push hstackDest hstackSrc, hmem, virtMem_copy]
  have hback : c.rsp - 8#64 + 8#64 = c.rsp := BitVec.sub_add_cancel c.rsp 8#64
  refine ⟨_, _, _, run_memmove s hsrc hdest, runRoutine_memcpy false c, hcopy, ?_, ?_, ?_, ?_⟩
  · change ((c.memcpyMoved false).set .rax _).general .rax = dest
    rw [Cpu.set_general_self, Cpu.word, hcopy, hrsp, BitVec.add_zero]
    exact ByteMemory.readWord_writeWord_self (show 8 ≤ 2 ^ 64 by decide) _ _ dest
  · rw [Cpu.word, hcopy, hrsp, hback]
    apply ByteMemory.readWord_writeWord_of_disjoint
    intro i hi
    bv_omega
  · change (c.memcpyMoved false).rsp + 8#64 + 8#64 = c.rsp + 8#64
    rw [hrsp, hback]
  · intro reg hreg
    simp only [List.mem_cons, List.not_mem_nil, or_false, not_or] at hreg
    obtain ⟨hrax, hrcx, hrsi', hrdi'⟩ := hreg
    change ((c.memcpyMoved false).set .rax _).general reg = c.general reg
    rw [Cpu.set_general_of_ne hrax]
    exact hmoved.other reg hrcx hrsi' hrdi'

/-- A call with eleven bytes to copy: one quadword and three bytes. -/
def copyElevenCpu : Cpu :=
  { general := fun reg => if reg = .rdi then 0x103#64 else if reg = .rsi then 0x200#64 else 11#64,
    rsp := 0x1000#64, mem := rampMachine.virtMem }

theorem memcpy_agrees_memmove_copyElevenCpu :
    ∃ t rip c', (memmove 0x103#64 0x200#64 11#64).run rampMachine = some (0x103#64, t)
      ∧ runRoutine false memcpy copyElevenCpu = some (rip, c')
      ∧ c'.mem = t.virtMem.writeWord 0xFF8#64 8 0x103#64 ∧ c'.general .rax = 0x103#64 := by
  have hoff : ∀ addr, addr = 0x103#64 ∨ addr = 0x200#64 → OffStack 0x1000#64 addr 11#64 := by
    intro addr haddr i hi
    change i < 11 at hi
    rcases haddr with rfl | rfl <;> bv_omega
  obtain ⟨t, rip, c', hmove, hcpy, hmem, hrax, -⟩ := memcpy_agrees_memmove rampMachine copyElevenCpu
    rfl 0x103#64 0x200#64 11#64 rfl rfl rfl (by decide) (by decide) (by decide)
    (hoff _ (Or.inl rfl)) (hoff _ (Or.inr rfl))
  exact ⟨t, rip, c', hmove, hcpy, hmem, hrax⟩

end RainstormOs
