import RainstormOs.Cpu.Isr
import RainstormOs.Lib.BitField
import RainstormOs.Lib.WordStack

/-!
# Interrupts are transparent, for most vectors

Whatever is on the stack when the common part of the stubs begins is passed to `isr_handler` as the
end of its frame and taken back by `iretq`. It is the interrupted context exactly if processor and
stub together pushed one error code. The generator's list and the processor's disagree about two
vectors: for those both push one, the frame is off by a word, and `iretq` returns to the error code.
-/

namespace RainstormOs

/-- The frame `isr_handler` should see. -/
def Context.registers (context : Context) (interruptNum errorCode : BitVec 64) : Registers where
  r15 := context.general .r15
  r14 := context.general .r14
  r13 := context.general .r13
  r12 := context.general .r12
  r11 := context.general .r11
  r10 := context.general .r10
  r9 := context.general .r9
  r8 := context.general .r8
  rbp := context.general .rbp
  rdi := context.general .rdi
  rsi := context.general .rsi
  rdx := context.general .rdx
  rcx := context.general .rcx
  rbx := context.general .rbx
  rax := context.general .rax
  interruptNum := interruptNum
  errorCode := errorCode
  rip := context.rip
  cs := context.cs
  rflags := context.rflags
  rsp := context.rsp
  ss := context.ss

/-- The handler returns with the stack pointer and the 22 words of the frame as they were. The other
registers and the rest of memory are its own. -/
structure KeepsFrame (s t : Cpu) : Prop where
  rsp : t.rsp = s.rsp
  frame : ∀ k, k < 8 * 22 → t.mem (s.rsp + BitVec.ofNat 64 k) = s.mem (s.rsp + BitVec.ofNat 64 k)

theorem KeepsFrame.refl (s : Cpu) : KeepsFrame s s := ⟨rfl, fun _ _ => rfl⟩

/-- One interrupt, from its delivery to the return from it. -/
def Transparent (isrHandler : Cpu → Cpu) (vector : BitVec 8) (errorCode stack : BitVec 64)
    (context : Context) (mem : ByteMemory 64) : Prop :=
  ∃ s, atCall isrHandler (isr vector) (deliver vector errorCode stack context mem) = some s
    ∧ s.general .rdi = s.rsp
    ∧ Registers.read s.mem s.rsp = context.registers (vector.setWidth 64)
        (if pushesErrorCode vector then errorCode else 0#64)
    ∧ s.rsp &&& 0xF#64 = 0#64
    ∧ (KeepsFrame s (isrHandler s) →
        runInstrs isrHandler (isr vector) (deliver vector errorCode stack context mem)
          = some context)

/-! ### The stack -/

/-- The top of the stack, lowest address first. -/
def Cpu.Holds (s : Cpu) (words : List (BitVec 64)) : Prop :=
  ByteMemory.HoldsWords (n := 8) s.mem s.rsp words

section

variable {isrHandler : Cpu → Cpu} {s t : Cpu} {words rest : List (BitVec 64)}

theorem Cpu.Holds.push (h : s.Holds words) (hroom : words.length < 2 ^ 60) (word : BitVec 64) :
    (s.push word).Holds (word :: words) := by
  have hbound : 8 * (words.length + 1) ≤ 2 ^ 64 := by omega
  exact ByteMemory.HoldsWords.push (n := 8) h hbound word

theorem Cpu.Holds.word_eq (h : s.Holds words) {i : Nat} (hi : i < words.length) :
    s.word (BitVec.ofNat 64 (8 * i)) = words.get ⟨i, hi⟩ :=
  ByteMemory.HoldsWords.readWord_eq (n := 8) h hi

theorem KeepsFrame.holds (h : KeepsFrame s t) (hwords : s.Holds (words ++ rest))
    (hlength : words.length ≤ 22) : t.Holds words := by
  rw [Cpu.Holds, h.rsp]
  apply (ByteMemory.HoldsWords.of_append (n := 8) hwords).congr
  intro k hk
  exact h.frame k (by omega)

/-- A sequence of pushes, and a sequence of pops. -/
def Cpu.pushRegs (s : Cpu) (regs : List Reg) : Cpu :=
  regs.foldl (fun s reg => s.push (s.general reg)) s

def Cpu.popRegs (s : Cpu) (regs : List Reg) : Cpu :=
  regs.foldl (fun s reg =>
    { s with general := Function.update s.general reg (s.word 0#64), rsp := s.rsp + 8#64 }) s

theorem runInstrs_push (regs : List Reg) (instrs : List Instr) (s : Cpu) :
    runInstrs isrHandler (regs.map .push ++ instrs) s
      = runInstrs isrHandler instrs (s.pushRegs regs) := by
  induction regs generalizing s with
  | nil => rfl
  | cons reg regs ih => exact ih (s.push (s.general reg))

theorem atCall_push (regs : List Reg) (instrs : List Instr) (s : Cpu) :
    atCall isrHandler (regs.map .push ++ instrs) s
      = atCall isrHandler instrs (s.pushRegs regs) := by
  induction regs generalizing s with
  | nil => rfl
  | cons reg regs ih => exact ih (s.push (s.general reg))

theorem runInstrs_pop (regs : List Reg) (instrs : List Instr) (s : Cpu) :
    runInstrs isrHandler (regs.map .pop ++ instrs) s
      = runInstrs isrHandler instrs (s.popRegs regs) := by
  induction regs generalizing s with
  | nil => rfl
  | cons reg regs ih => exact ih _

theorem Cpu.pushRegs_rsp (s : Cpu) (regs : List Reg) :
    (s.pushRegs regs).rsp = s.rsp - BitVec.ofNat 64 (8 * regs.length) := by
  induction regs generalizing s with
  | nil => exact (BitVec.sub_zero s.rsp).symm
  | cons reg regs ih =>
      have hstep : (s.pushRegs (reg :: regs)).rsp
          = s.rsp - 8#64 - BitVec.ofNat 64 (8 * regs.length) := ih (s.push (s.general reg))
      rw [hstep, List.length_cons, Nat.mul_succ, BitVec.ofNat_add]
      grind

theorem Cpu.Holds.pushRegs (h : s.Holds words) (regs : List Reg)
    (hroom : regs.length + words.length < 2 ^ 60) :
    (s.pushRegs regs).Holds (regs.reverse.map s.general ++ words) := by
  induction regs generalizing s words with
  | nil => exact h
  | cons reg regs ih =>
      rw [List.length_cons] at hroom
      have hrest := ih (h.push (by omega) (s.general reg)) (by rw [List.length_cons]; omega)
      rw [List.reverse_cons, List.map_append, List.append_assoc]
      exact hrest

/-- Popping takes back what the registers are said to hold. -/
theorem Cpu.Holds.popRegs {value : Reg → BitVec 64} (regs : List Reg)
    (h : s.Holds (regs.map value ++ words)) :
    (s.popRegs regs).Holds words
      ∧ ∀ reg, (s.popRegs regs).general reg = if reg ∈ regs then value reg else s.general reg := by
  induction regs generalizing s with
  | nil => exact ⟨h, fun reg => (if_neg (by simp)).symm⟩
  | cons reg regs ih =>
      have hword : s.word 0#64 = value reg := h.word_eq (i := 0) (Nat.zero_lt_succ _)
      obtain ⟨hrest, hgeneral⟩ := ih (s := { s with
        general := Function.update s.general reg (s.word 0#64), rsp := s.rsp + 8#64 }) h.2
      refine ⟨hrest, fun reg' => (hgeneral reg').trans ?_⟩
      by_cases hmem : reg' ∈ regs
      · rw [if_pos hmem, if_pos (List.mem_cons_of_mem reg hmem)]
      · rw [if_neg hmem, hword]
        by_cases heq : reg' = reg
        · rw [heq, if_pos List.mem_cons_self]
          exact Function.update_self reg _ _
        · rw [if_neg fun hcons => hmem (List.mem_of_ne_of_mem heq hcons)]
          exact Function.update_of_ne heq _ _

/-! ### The common part -/

def savedRegs : List Reg :=
  [.rax, .rbx, .rcx, .rdx, .rsi, .rdi, .rbp, .r8, .r9, .r10, .r11, .r12, .r13, .r14, .r15]

theorem isrCommon_eq : isrCommon = savedRegs.map .push ++ ([.movRsp .rdi, .callIsrHandler]
    ++ (savedRegs.reverse.map .pop ++ [.addRsp 16#64, .iretq])) := rfl

theorem mem_savedRegs (reg : Reg) : reg ∈ savedRegs := by
  cases reg <;> decide

def Cpu.atHandler (s : Cpu) : Cpu :=
  let saved := s.pushRegs savedRegs
  { saved with general := Function.update saved.general .rdi saved.rsp }

theorem atCall_isrCommon (isrHandler : Cpu → Cpu) (s : Cpu) :
    atCall isrHandler isrCommon s = some s.atHandler := by
  rw [isrCommon_eq, atCall_push]
  rfl

theorem Cpu.atHandler_rdi (s : Cpu) : s.atHandler.general .rdi = s.atHandler.rsp := by
  simp only [Cpu.atHandler, Function.update_self]

theorem Cpu.atHandler_rsp (s : Cpu) : s.atHandler.rsp = s.rsp - 120#64 :=
  s.pushRegs_rsp savedRegs

theorem Cpu.Holds.atHandler (h : s.Holds words) (hroom : words.length < 100) :
    s.atHandler.Holds (savedRegs.reverse.map s.general ++ words) := by
  have hlength : savedRegs.length = 15 := rfl
  exact h.pushRegs savedRegs (by omega)

/-- What is on the stack when the common part begins, for a context to return to. -/
def Context.pushed (context : Context) (interruptNum errorCode : BitVec 64) : List (BitVec 64) :=
  [interruptNum, errorCode, context.rip, context.cs, context.rflags, context.rsp, context.ss]

variable {context : Context} {interruptNum errorCode : BitVec 64}

theorem Cpu.Holds.frame (h : s.Holds (context.pushed interruptNum errorCode ++ rest))
    (hroom : rest.length < 50) :
    s.atHandler.Holds
      ((savedRegs.reverse.map s.general ++ context.pushed interruptNum errorCode) ++ rest) := by
  have hlength : (context.pushed interruptNum errorCode ++ rest).length < 100 := by
    rw [List.length_append]
    change 7 + rest.length < 100
    omega
  rw [List.append_assoc]
  exact h.atHandler hlength

/-- The handler is shown the context. -/
theorem read_atHandler (hgeneral : s.general = context.general)
    (h : s.Holds (context.pushed interruptNum errorCode ++ rest)) (hroom : rest.length < 50) :
    Registers.read s.atHandler.mem s.atHandler.rsp = context.registers interruptNum errorCode := by
  have hword : ∀ i (hi : i < 22), s.atHandler.word (BitVec.ofNat 64 (8 * i))
      = (savedRegs.reverse.map s.general ++ context.pushed interruptNum errorCode).get ⟨i, hi⟩ :=
    fun i hi => (ByteMemory.HoldsWords.of_append (n := 8) (h.frame hroom)).readWord_eq hi
  rw [Context.registers, ← hgeneral]
  simp only [Registers.read, Registers.mk.injEq]
  exact ⟨hword 0 (by decide), hword 1 (by decide), hword 2 (by decide), hword 3 (by decide),
    hword 4 (by decide), hword 5 (by decide), hword 6 (by decide), hword 7 (by decide),
    hword 8 (by decide), hword 9 (by decide), hword 10 (by decide), hword 11 (by decide),
    hword 12 (by decide), hword 13 (by decide), hword 14 (by decide), hword 15 (by decide),
    hword 16 (by decide), hword 17 (by decide), hword 18 (by decide), hword 19 (by decide),
    hword 20 (by decide), hword 21 (by decide)⟩

/-- And if it leaves its frame alone, `iretq` goes back to it. -/
theorem runInstrs_isrCommon (hgeneral : s.general = context.general)
    (h : s.Holds (context.pushed interruptNum errorCode ++ rest)) (hroom : rest.length < 50)
    (hkeeps : KeepsFrame s.atHandler (isrHandler s.atHandler)) :
    runInstrs isrHandler isrCommon s = some context := by
  have hback := hkeeps.holds (h.frame hroom) (Nat.le_refl 22)
  -- The pops undo the pushes, whatever the handler did to the registers.
  obtain ⟨hwords, hpopped⟩ := hback.popRegs savedRegs.reverse
  rw [isrCommon_eq, runInstrs_push]
  change runInstrs isrHandler (savedRegs.reverse.map .pop ++ [.addRsp 16#64, .iretq])
    (isrHandler s.atHandler) = _
  rw [runInstrs_pop]
  generalize (isrHandler s.atHandler).popRegs savedRegs.reverse = popped at hwords hpopped
  have hsame : popped.general = context.general := by
    funext reg
    rw [hpopped reg, if_pos (List.mem_reverse.mpr (mem_savedRegs reg)), hgeneral]
  have hword : ∀ i (hi : i < 7), popped.word (BitVec.ofNat 64 (8 * i))
      = (context.pushed interruptNum errorCode).get ⟨i, hi⟩ := fun i hi => hwords.word_eq hi
  -- `add rsp, 16` skips the number and the error code.
  have hskip : ∀ offset : BitVec 64, ({ popped with rsp := popped.rsp + 16#64 } : Cpu).word offset
      = popped.word (16#64 + offset) := by
    intro offset
    rw [Cpu.word, Cpu.word, BitVec.add_assoc]
  change some (Context.mk popped.general _ _ _ _ _) = some context
  rw [hskip, hskip, hskip, hskip, hskip, hsame]
  have hrip : popped.word (16#64 + 0#64) = context.rip := hword 2 (by decide)
  have hcs : popped.word (16#64 + 8#64) = context.cs := hword 3 (by decide)
  have hrflags : popped.word (16#64 + 16#64) = context.rflags := hword 4 (by decide)
  have hrsp : popped.word (16#64 + 24#64) = context.rsp := hword 5 (by decide)
  have hss : popped.word (16#64 + 32#64) = context.ss := hword 6 (by decide)
  rw [hrip, hcs, hrflags, hrsp, hss]

/-! ### Delivery -/

theorem holds_deliver (vector : BitVec 8) (errorCode stack : BitVec 64) (context : Context)
    (mem : ByteMemory 64) :
    (deliver vector errorCode stack context mem).Holds
      ((if pushesErrorCode vector then [errorCode] else [])
        ++ [context.rip, context.cs, context.rflags, context.rsp, context.ss]) := by
  have hbase : (⟨context.general, stack &&& ~~~0xF#64, mem⟩ : Cpu).Holds [] := trivial
  have hss := hbase.push (by simp) context.ss
  have hrsp := hss.push (by simp) context.rsp
  have hrflags := hrsp.push (by simp) context.rflags
  have hcs := hrflags.push (by simp) context.cs
  have hrip := hcs.push (by simp) context.rip
  rw [deliver]
  split
  · exact hrip.push (by simp) errorCode
  · exact hrip

theorem deliver_general (vector : BitVec 8) (errorCode stack : BitVec 64) (context : Context)
    (mem : ByteMemory 64) : (deliver vector errorCode stack context mem).general = context.general := by
  rw [deliver]
  split <;> rfl

theorem and_low_eq_zero_iff (addr : BitVec 64) : addr &&& 0xF#64 = 0#64 ↔ addr.toNat % 16 = 0 := by
  have hmask : BitField.IsMask (0xF#64) 0 4 := by decide
  rw [← BitVec.toNat_inj, BitField.toNat_and_of_isMask hmask]
  simp

theorem toNat_deliver_rsp (vector : BitVec 8) (errorCode stack : BitVec 64) (context : Context)
    (mem : ByteMemory 64) :
    (deliver vector errorCode stack context mem).rsp.toNat % 16
      = if pushesErrorCode vector then 0 else 8 := by
  have hmask : BitField.IsMask (~~~0xF#64 : BitVec 64) 4 64 := by decide
  have hbase : (stack &&& ~~~0xF#64).toNat % 16 = 0 := by
    rw [BitField.toNat_and_of_isMask hmask]
    omega
  rw [deliver]
  generalize stack &&& ~~~0xF#64 = base at hbase
  split
  · change (base - 8#64 - 8#64 - 8#64 - 8#64 - 8#64 - 8#64).toNat % 16 = 0
    simp only [BitVec.toNat_sub, BitVec.toNat_ofNat]
    omega
  · change (base - 8#64 - 8#64 - 8#64 - 8#64 - 8#64).toNat % 16 = 8
    simp only [BitVec.toNat_sub, BitVec.toNat_ofNat]
    omega

/-! ### The stubs -/

def Cpu.stub (s : Cpu) (vector : BitVec 8) : Cpu :=
  if withError.contains vector then s.push (vector.setWidth 64)
  else (s.push 0#64).push (vector.setWidth 64)

theorem runInstrs_isr (vector : BitVec 8) (s : Cpu) :
    runInstrs isrHandler (isr vector) s = runInstrs isrHandler isrCommon (s.stub vector) := by
  rw [isr, Cpu.stub]
  split <;> rfl

theorem atCall_isr (vector : BitVec 8) (s : Cpu) :
    atCall isrHandler (isr vector) s = some (s.stub vector).atHandler := by
  rw [isr, Cpu.stub]
  split
  · exact atCall_isrCommon isrHandler (s.push (vector.setWidth 64))
  · exact atCall_isrCommon isrHandler ((s.push 0#64).push (vector.setWidth 64))

theorem Cpu.stub_general (s : Cpu) (vector : BitVec 8) : (s.stub vector).general = s.general := by
  rw [Cpu.stub]
  split <;> rfl

/-- The call is made on an aligned stack exactly if the stub makes up for what was delivered. -/
theorem aligned_atHandler_iff (vector : BitVec 8) (errorCode stack : BitVec 64) (context : Context)
    (mem : ByteMemory 64) :
    ((deliver vector errorCode stack context mem).stub vector).atHandler.rsp &&& 0xF#64 = 0#64
      ↔ withError.contains vector = pushesErrorCode vector := by
  have hrsp := toNat_deliver_rsp vector errorCode stack context mem
  rw [and_low_eq_zero_iff, Cpu.atHandler_rsp, Cpu.stub]
  generalize deliver vector errorCode stack context mem = s at hrsp
  have hone : (s.push (vector.setWidth 64)).rsp = s.rsp - 8#64 := rfl
  have htwo : ((s.push 0#64).push (vector.setWidth 64)).rsp = s.rsp - 8#64 - 8#64 := rfl
  split
  · next hmem =>
      rw [hone]
      simp only [BitVec.toNat_sub, BitVec.toNat_ofNat]
      split at hrsp <;> simp_all <;> omega
  · next hmem =>
      rw [htwo]
      simp only [BitVec.toNat_sub, BitVec.toNat_ofNat]
      split at hrsp <;> simp_all <;> omega

/-- The generator's list against the processor's. -/
theorem withError_eq_pushesErrorCode_iff (vector : BitVec 8) :
    withError.contains vector = pushesErrorCode vector ↔ vector ≠ 29#8 ∧ vector ≠ 30#8 := by
  constructor
  · intro hagree
    constructor
    · intro heq
      rw [heq] at hagree
      exact absurd hagree (by decide)
    · intro heq
      rw [heq] at hagree
      exact absurd hagree (by decide)
  · intro ⟨hne, hne'⟩
    simp [withError, pushesErrorCode, hne, hne']

/-- Where the lists agree, the stack the common part begins with is the context's. -/
theorem holds_stub {vector : BitVec 8} (hagree : withError.contains vector = pushesErrorCode vector)
    (errorCode stack : BitVec 64) (context : Context) (mem : ByteMemory 64) :
    ((deliver vector errorCode stack context mem).stub vector).Holds
      (context.pushed (vector.setWidth 64) (if pushesErrorCode vector then errorCode else 0#64)
        ++ []) := by
  have hdelivered := holds_deliver vector errorCode stack context mem
  rw [Cpu.stub]
  by_cases herror : pushesErrorCode vector = true
  · rw [if_pos herror] at hdelivered
    rw [if_pos herror, if_pos (hagree.trans herror)]
    exact hdelivered.push (by simp) (vector.setWidth 64)
  · rw [if_neg herror] at hdelivered
    rw [if_neg herror, if_neg fun hmem => herror (hagree.symm.trans hmem)]
    exact (hdelivered.push (by simp) 0#64).push (by simp) (vector.setWidth 64)

/-- Where they do not, it is that of another context, which runs on at the error code. -/
theorem holds_stub_shifted {vector : BitVec 8} (hmem : ¬ withError.contains vector = true)
    (herror : pushesErrorCode vector = true) (errorCode stack : BitVec 64) (context : Context)
    (mem : ByteMemory 64) :
    ((deliver vector errorCode stack context mem).stub vector).Holds
      (Context.pushed ⟨context.general, errorCode, context.rip, context.cs, context.rflags,
        context.rsp⟩ (vector.setWidth 64) 0#64 ++ [context.ss]) := by
  have hdelivered := holds_deliver vector errorCode stack context mem
  rw [if_pos herror] at hdelivered
  rw [Cpu.stub, if_neg hmem]
  exact (hdelivered.push (by simp) 0#64).push (by simp) (vector.setWidth 64)

/-- An interrupt is transparent for all vectors but two: the VMM communication and the security
exception, whose error code the generator does not know of. -/
theorem isr_transparent_iff (isrHandler : Cpu → Cpu) (vector : BitVec 8)
    (errorCode stack : BitVec 64) (context : Context) (mem : ByteMemory 64) :
    Transparent isrHandler vector errorCode stack context mem
      ↔ vector ≠ 29#8 ∧ vector ≠ 30#8 := by
  have haligned := aligned_atHandler_iff vector errorCode stack context mem
  rw [← withError_eq_pushesErrorCode_iff]
  constructor
  · intro ⟨s, hcall, _, _, hrsp, _⟩
    rw [atCall_isr] at hcall
    cases hcall
    exact haligned.mp hrsp
  · intro hagree
    have hgeneral : ((deliver vector errorCode stack context mem).stub vector).general
        = context.general := by
      rw [Cpu.stub_general, deliver_general]
    have hwords := holds_stub hagree errorCode stack context mem
    refine ⟨_, atCall_isr vector _, Cpu.atHandler_rdi _, ?_, haligned.mpr hagree, ?_⟩
    · exact read_atHandler hgeneral hwords (Nat.zero_lt_succ _)
    · intro hkeeps
      rw [runInstrs_isr]
      exact runInstrs_isrCommon hgeneral hwords (Nat.zero_lt_succ _) hkeeps

/-- For those two a handler that returns is returned from to the error code: every word `iretq` takes
is the one below. -/
theorem runInstrs_isr_shifted {vector : BitVec 8} (hmem : ¬ withError.contains vector = true)
    (herror : pushesErrorCode vector = true) (errorCode stack : BitVec 64) (context : Context)
    (mem : ByteMemory 64)
    (hkeeps : KeepsFrame ((deliver vector errorCode stack context mem).stub vector).atHandler
      (isrHandler ((deliver vector errorCode stack context mem).stub vector).atHandler)) :
    runInstrs isrHandler (isr vector) (deliver vector errorCode stack context mem)
      = some ⟨context.general, errorCode, context.rip, context.cs, context.rflags,
        context.rsp⟩ := by
  have hwords := holds_stub_shifted hmem herror errorCode stack context mem
  rw [runInstrs_isr]
  apply runInstrs_isrCommon _ hwords _ hkeeps
  · rw [Cpu.stub_general, deliver_general]
  · exact Nat.lt_of_sub_eq_succ rfl

end

/-- Ring 0 code on a stack that is not aligned, with a mark in every register. -/
def interruptedKernel : Context where
  general := fun reg => if reg = .rax then 0x11#64 else 0x22#64
  rip := 0xffffffff80001000#64
  cs := 0x8#64
  rflags := 0x202#64
  rsp := 0xffff800000004ff8#64
  ss := 0x10#64

/-- A VMM communication exception with error code 0x72 (a `cpuid` was intercepted), and a handler
that does nothing. -/
theorem isr29_returns_to_error_code :
    ¬ Transparent id 29#8 0x72#64 0xffff800000004ff8#64 interruptedKernel (fun _ => 0#8)
    ∧ (runInstrs id (isr 29#8)
        (deliver 29#8 0x72#64 0xffff800000004ff8#64 interruptedKernel fun _ => 0#8)).map Context.rip
      = some 0x72#64 := by
  have hmem : ¬ withError.contains 29#8 = true := by decide
  have herror : pushesErrorCode 29#8 = true := by decide
  constructor
  · intro ⟨s, hcall, _, _, hrsp, _⟩
    rw [atCall_isr] at hcall
    cases hcall
    exact hmem (((aligned_atHandler_iff 29#8 0x72#64 _ _ _).mp hrsp).trans herror)
  · rw [runInstrs_isr_shifted hmem herror 0x72#64 _ interruptedKernel _ (KeepsFrame.refl _)]
    rfl

end RainstormOs
