import RainstormOs.Drivers.Serial
import Mathlib.Data.BitVec

/-!
# The divisor latch

`serial_configure_baud_rate` opens the latch and writes both bytes of the divisor to the data port,
the high one first. On a 16550 both land in the low half of the latch, the second over the first, and
the high half keeps what firmware or an earlier configuration left there. So the divisor arrives
exactly when its high byte was in place already, as it is for the small divisor used at boot on a
device that has just been reset.
-/

namespace RainstormOs

/-! ### Ports -/

section Ports

variable (com : BitVec 16)

theorem port_sub_base (offset : BitVec 16) : com + offset - com = offset := by
  rw [BitVec.add_comm, BitVec.add_sub_cancel]

@[simp]
theorem serialDataPort_sub : serialDataPort com - com = 0#16 := BitVec.sub_self com

@[simp]
theorem serialFifoCommandPort_sub : serialFifoCommandPort com - com = 2#16 := port_sub_base com 2#16

@[simp]
theorem serialLineCommandPort_sub : serialLineCommandPort com - com = 3#16 := port_sub_base com 3#16

@[simp]
theorem serialModemCommandPort_sub : serialModemCommandPort com - com = 4#16 :=
  port_sub_base com 4#16

@[simp]
theorem run_outb (port : BitVec 16) (val : BitVec 8) (s : SerialState) :
    Prog.run (serialExec com) (outb port val) s
      = some ((), { s with uart := s.uart.write (port - com) val }) := rfl

@[simp]
theorem run_inb (port : BitVec 16) (s : SerialState) :
    Prog.run (serialExec com) (inb port) s = some (s.uart.read (port - com), s) := rfl

@[simp]
theorem run_getStatics (s : SerialState) :
    Prog.run (serialExec com) getStatics s = some (s.statics, s) := rfl

@[simp]
theorem run_setStatics (statics : SerialStatics) (s : SerialState) :
    Prog.run (serialExec com) (setStatics statics) s
      = some ((), { s with statics := statics }) := rfl

end Ports

/-! ### Registers -/

section Registers

variable (u : Uart) (val : BitVec 8)

@[simp]
theorem Uart.write_line : u.write 3#16 val = { u with lcr := val } := rfl

@[simp]
theorem Uart.write_fifo : u.write 2#16 val = { u with fcr := val } := rfl

@[simp]
theorem Uart.write_modem : u.write 4#16 val = { u with mcr := val } := rfl

theorem Uart.write_data_of_dlab {u : Uart} (h : u.dlab = true) (val : BitVec 8) :
    u.write 0#16 val = { u with dll := val } := if_pos h

theorem Uart.write_data {u : Uart} (h : u.dlab = false) (val : BitVec 8) :
    u.write 0#16 val = u.transmit val := if_neg (by rw [h]; decide)

theorem Uart.transmit_of_loopback {u : Uart} (h : u.loopback = true) (val : BitVec 8) :
    u.transmit val = { u with rbr := val } := if_pos h

theorem Uart.read_data {u : Uart} (h : u.dlab = false) : u.read 0#16 = u.rbr :=
  if_neg (by rw [h]; decide)

end Registers

/-- Both bytes of the divisor go to the low half of the latch. -/
theorem run_serialConfigureBaudRate (com divisor : BitVec 16) (s : SerialState) :
    Prog.run (serialExec com) (serialConfigureBaudRate com divisor) s
      = some ((), { s with
          uart := { s.uart with lcr := serialLineEnableDlab, dll := divisor.setWidth 8 } }) := by
  have hbit : serialLineEnableDlab.getLsbD 7 = true := by decide
  have hwrite : ∀ (low val : BitVec 8),
      { s.uart with lcr := serialLineEnableDlab, dll := low }.write 0#16 val
        = { s.uart with lcr := serialLineEnableDlab, dll := val } :=
    fun _ => Uart.write_data_of_dlab hbit
  have hbyte : divisor.setWidth 8 &&& 0xFF#8 = divisor.setWidth 8 := BitVec.and_allOnes
  simp only [serialConfigureBaudRate, Prog.run_bind, run_outb, Option.bind_some,
    serialLineCommandPort_sub, serialDataPort_sub, Uart.write_line, hbyte, hwrite]

/-- The latch holds both halves of a divisor exactly if each half holds its byte. -/
theorem divisorLatch_eq_iff {u : Uart} {divisor : BitVec 16} :
    u.divisorLatch = divisor ↔ u.dlm = (divisor >>> 8).setWidth 8 ∧ u.dll = divisor.setWidth 8 := by
  have hlatch := u.divisorLatch.isLt
  have hval : u.divisorLatch.toNat = u.dlm.toNat * 256 + u.dll.toNat := by
    rw [Uart.divisorLatch, BitVec.toNat_append, Nat.shiftLeft_eq, Nat.mul_comm]
    rw [← Nat.two_pow_add_eq_or_of_lt u.dll.isLt, Nat.mul_comm]
  have hlow := u.dll.isLt
  have hdivisor := divisor.isLt
  simp only [← BitVec.toNat_inj, BitVec.toNat_setWidth, BitVec.toNat_ushiftRight,
    Nat.shiftRight_eq_div_pow]
  omega

/-- **The divisor reaches the UART** exactly when its high byte is in the latch already. -/
theorem serialConfigureBaudRate_latch_iff (com divisor : BitVec 16) (s : SerialState) :
    ∃ t, Prog.run (serialExec com)
        (do
          serialConfigureBaudRate com divisor
          outb (serialLineCommandPort com) 0x03#8) s = some ((), t)
      ∧ ((t.uart.divisorLatch = divisor ∧ t.uart.dlab = false) ↔
        s.uart.dlm = (divisor >>> 8).setWidth 8) := by
  refine ⟨{ s with uart := { s.uart with lcr := 0x03#8, dll := divisor.setWidth 8 } }, ?_, ?_⟩
  · rw [Prog.run_bind, run_serialConfigureBaudRate, Option.bind_some, run_outb,
      serialLineCommandPort_sub, Uart.write_line]
  · rw [divisorLatch_eq_iff]
    have hclosed : (0x03#8).getLsbD 7 = false := by decide
    exact ⟨fun h => h.1.1, fun h => ⟨⟨h, rfl⟩, hclosed⟩⟩

/-- A device after reset, latch and registers zero. -/
def resetUart : Uart :=
  { dll := 0#8, dlm := 0#8, ier := 0#8, iir := 0x01#8, fcr := 0#8, lcr := 0#8, mcr := 0#8,
    lsr := 0x60#8, msr := 0#8, scr := 0#8, rbr := 0#8, sent := [] }

/-- The divisor for 300 bits per second, on COM1 after reset: the latch ends at `0x0080`, which is
900 bits per second. -/
theorem serialConfigureBaudRate_loses_high_byte :
    ∃ t, Prog.run (serialExec 0x3F8#16)
        (do
          serialConfigureBaudRate 0x3F8#16 0x180#16
          outb (serialLineCommandPort 0x3F8#16) 0x03#8) ⟨⟨false, 0#16⟩, resetUart⟩ = some ((), t)
      ∧ t.uart.divisorLatch = 0x0080#16
      ∧ ¬ (t.uart.divisorLatch = 0x180#16 ∧ t.uart.dlab = false) := by
  refine ⟨_, rfl, ?_, ?_⟩
  · decide
  · decide

/-- `serial_init` on a working UART: the loopback test succeeds, and the high byte of the latch is
the one it found. -/
theorem run_serialInitPort (com : BitVec 16) (s : SerialState)
    (hfresh : s.statics.isInitialied = false) :
    Prog.run (serialExec com) (serialInitPort com) s
      = some (some 0xAE#8,
        { statics := ⟨true, com⟩,
          uart := { s.uart with
            dll := 3#8, lcr := 0x03#8, fcr := 0xC7#8, mcr := 0x7#8, rbr := 0xAE#8 } }) := by
  have hclosed : (0x03#8).getLsbD 7 = false := by decide
  have hloop : (0x16#8).getLsbD 4 = true := by decide
  have hsend : ∀ low fifo : BitVec 8,
      { s.uart with dll := low, fcr := fifo, lcr := 0x03#8, mcr := 0x16#8 }.write 0#16 0xAE#8
        = { s.uart with
            dll := low, fcr := fifo, lcr := 0x03#8, mcr := 0x16#8, rbr := 0xAE#8 } := by
    intro low fifo
    rw [Uart.write_data, Uart.transmit_of_loopback]
    · exact hloop
    · exact hclosed
  have hecho : ∀ low fifo modem byte : BitVec 8,
      { s.uart with
        dll := low, fcr := fifo, lcr := 0x03#8, mcr := modem, rbr := byte }.read 0#16 = byte := by
    intro low fifo modem byte
    rw [Uart.read_data]
    exact hclosed
  simp only [serialInitPort, Prog.run_bind, run_getStatics, Option.bind_some, hfresh,
    Bool.false_eq_true, if_false, run_serialConfigureBaudRate, run_outb, run_inb,
    serialLineCommandPort_sub, serialDataPort_sub, serialModemCommandPort_sub,
    serialFifoCommandPort_sub, Uart.write_line, Uart.write_fifo, Uart.write_modem, hsend, hecho,
    ne_eq, not_true_eq_false, run_setStatics]
  rfl

end RainstormOs
