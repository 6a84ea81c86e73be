import RainstormOs.Lib.Prog

/-!
# `drivers/serial/serial.c`

The driver writes to I/O ports, and what a write means is decided by the device behind them, a 16550
UART. Its eight registers are addressed from the base port; the first two change their meaning with
the top bit of the line-control register, the divisor latch access bit.
-/

namespace RainstormOs

/-! ### The device -/

/-- The registers of a 16550. The latch bytes survive everything but a write to them; `rbr` is the
byte a read of the data register gives and `sent` what has gone out on the line. -/
structure Uart where
  dll : BitVec 8
  dlm : BitVec 8
  ier : BitVec 8
  iir : BitVec 8
  fcr : BitVec 8
  lcr : BitVec 8
  mcr : BitVec 8
  lsr : BitVec 8
  msr : BitVec 8
  scr : BitVec 8
  rbr : BitVec 8
  sent : List (BitVec 8)

namespace Uart

def dlab (u : Uart) : Bool := u.lcr.getLsbD 7

def loopback (u : Uart) : Bool := u.mcr.getLsbD 4

def divisorLatch (u : Uart) : BitVec 16 := u.dlm ++ u.dll

/-- A byte given to the transmitter; in loopback it arrives at the receiver. -/
def transmit (u : Uart) (val : BitVec 8) : Uart :=
  if u.loopback then { u with rbr := val } else { u with sent := u.sent ++ [val] }

/-- A write at an offset from the base port. The status registers are read only. -/
def write (u : Uart) (offset : BitVec 16) (val : BitVec 8) : Uart :=
  match offset.toNat with
  | 0 => if u.dlab then { u with dll := val } else u.transmit val
  | 1 => if u.dlab then { u with dlm := val } else { u with ier := val }
  | 2 => { u with fcr := val }
  | 3 => { u with lcr := val }
  | 4 => { u with mcr := val }
  | 7 => { u with scr := val }
  | _ => u

/-- A read at an offset; no device answers beyond the eight ports. -/
def read (u : Uart) (offset : BitVec 16) : BitVec 8 :=
  match offset.toNat with
  | 0 => if u.dlab then u.dll else u.rbr
  | 1 => if u.dlab then u.dlm else u.ier
  | 2 => u.iir
  | 3 => u.lcr
  | 4 => u.mcr
  | 5 => u.lsr
  | 6 => u.msr
  | 7 => u.scr
  | _ => 0xFF#8

end Uart

/-- The static variables of `serial.c`. -/
structure SerialStatics where
  isInitialied : Bool
  currentCom : BitVec 16

structure SerialState where
  statics : SerialStatics
  uart : Uart

inductive SerialCmd where
  | outb (port : BitVec 16) (val : BitVec 8)
  | inb (port : BitVec 16)
  | statics
  | setStatics (statics : SerialStatics)

abbrev SerialCmd.Reply : SerialCmd → Type
  | .inb _ => BitVec 8
  | .statics => SerialStatics
  | _ => Unit

/-- One command, with a UART at the ports from `base` on. -/
def serialExec (base : BitVec 16) : (command : SerialCmd) → SerialState →
    Option (command.Reply × SerialState)
  | .outb port val, s => some ((), { s with uart := s.uart.write (port - base) val })
  | .inb port, s => some (s.uart.read (port - base), s)
  | .statics, s => some (s.statics, s)
  | .setStatics statics, s => some ((), { s with statics := statics })

abbrev SerialProg (α : Type) := Prog SerialCmd SerialCmd.Reply α

def outb (port : BitVec 16) (val : BitVec 8) : SerialProg Unit :=
  Prog.issue (SerialCmd.outb port val)

def inb (port : BitVec 16) : SerialProg (BitVec 8) := Prog.issue (SerialCmd.inb port)

def getStatics : SerialProg SerialStatics := Prog.issue SerialCmd.statics

def setStatics (statics : SerialStatics) : SerialProg Unit :=
  Prog.issue (SerialCmd.setStatics statics)

/-! ### `serial.h` -/

def serialDataPort (base : BitVec 16) : BitVec 16 := base

def serialFifoCommandPort (base : BitVec 16) : BitVec 16 := base + 2#16

def serialLineCommandPort (base : BitVec 16) : BitVec 16 := base + 3#16

def serialModemCommandPort (base : BitVec 16) : BitVec 16 := base + 4#16

def serialLineStatusPort (base : BitVec 16) : BitVec 16 := base + 5#16

def serialLineEnableDlab : BitVec 8 := 0x80#8

/-! ### `serial.c` -/

def serialConfigureBaudRate (com divisor : BitVec 16) : SerialProg Unit := do
  outb (serialLineCommandPort com) serialLineEnableDlab
  outb (serialDataPort com) ((divisor >>> 8).setWidth 8 &&& 0xFF#8)
  outb (serialDataPort com) (divisor.setWidth 8 &&& 0xFF#8)

/-- `serial_init` up to its registration as a sink: the byte the loopback test reads, which
`serialInit` goes on from, or nothing if the driver is in use already. -/
def serialInitPort (com : BitVec 16) : SerialProg (Option (BitVec 8)) := do
  let statics ← getStatics
  if statics.isInitialied then
    pure none
  else
    serialConfigureBaudRate com 3#16
    outb (serialLineCommandPort com) 0x03#8
    outb (serialFifoCommandPort com) 0xC7#8
    outb (serialModemCommandPort com) 0x03#8
    outb (serialModemCommandPort com) 0x16#8
    outb (serialDataPort com) 0xAE#8
    let echo ← inb (serialDataPort com)
    if echo ≠ 0xAE#8 then
      pure (some echo)
    else
      outb (serialModemCommandPort com) 0x7#8
      setStatics ⟨true, com⟩
      pure (some echo)

def isTransmitEmpty (com : BitVec 16) : SerialProg (BitVec 8) := do
  let status ← inb (serialLineStatusPort com)
  pure (status &&& 0x20#8)

/-- `while (is_transmit_empty(current_com)==0);`, for so many polls: whether it has ended. -/
def awaitTransmitEmpty (com : BitVec 16) : Nat → SerialProg Bool
  | 0 => pure false
  | polls + 1 => do
      let empty ← isTransmitEmpty com
      if empty = 0#8 then awaitTransmitEmpty com polls else pure true

/-- `serial_write`, with a bound on its polling: whether it has returned. -/
def serialWrite (polls : Nat) (ch : BitVec 8) : SerialProg Bool := do
  let statics ← getStatics
  if statics.isInitialied = false then
    pure true
  else
    let ended ← awaitTransmitEmpty statics.currentCom polls
    if ended then
      outb (serialDataPort statics.currentCom) ch
      pure true
    else
      pure false

def serialSinkWrite (polls : Nat) (ch : BitVec 8) : SerialProg Bool := do
  let statics ← getStatics
  if statics.isInitialied = false then
    pure true
  else
    serialWrite polls ch

/-! ### A transmitter that takes time -/

/-- The driver over a UART whose transmitter is occupied for a while by each byte: `busy` is the
number of times its line status will still be read as occupied, `times` what the bytes after this
one will take. -/
structure SerialLine where
  statics : SerialStatics
  uart : Uart
  busy : Nat
  times : Nat → Nat

namespace SerialLine

def lineStatus (l : SerialLine) : BitVec 8 :=
  if l.busy = 0 then l.uart.lsr ||| 0x20#8 else l.uart.lsr &&& 0xDF#8

def read (l : SerialLine) (offset : BitVec 16) : BitVec 8 × SerialLine :=
  if offset = 5#16 then
    (l.lineStatus, { l with busy := l.busy - 1 })
  else
    (l.uart.read offset, l)

/-- A byte that finds the transmitter occupied is lost; bit 2 of the FIFO register empties it. -/
def write (l : SerialLine) (offset : BitVec 16) (val : BitVec 8) : SerialLine :=
  if offset = 0#16 ∧ l.uart.dlab = false then
    if l.busy = 0 then
      { l with
        uart := l.uart.write offset val
        busy := l.times 0
        times := fun n => l.times (n + 1) }
    else
      l
  else if offset = 2#16 ∧ val.getLsbD 2 = true then
    { l with uart := l.uart.write offset val, busy := 0 }
  else
    { l with uart := l.uart.write offset val }

end SerialLine

def lineExec (base : BitVec 16) : (command : SerialCmd) → SerialLine →
    Option (command.Reply × SerialLine)
  | .outb port val, l => some ((), l.write (port - base) val)
  | .inb port, l => some (l.read (port - base))
  | .statics, l => some (l.statics, l)
  | .setStatics statics, l => some ((), { l with statics := statics })

end RainstormOs
