import RainstormOs.Lib.Prog

/-!
# `utils/sink.c`

The registry of output callbacks. A sink is a slot of a static array and its id the slot's index, an
`int`; printf's default sink, klog's debug sink and the serial driver pass ids around, failure codes
among them.

The accesses to the array are commands, with the index as the code forms it. Outside the array an
index reaches the variables next to it, whatever they hold.
-/

namespace RainstormOs

/-- What the registry asks of the machine. `Fn` is the type of the callbacks; a slot without one is a
null pointer. -/
inductive SinkCmd (Fn : Type) where
  | load (index : Int)
  | store (index : Int) (callback : Option Fn)
  | currIdx
  | setCurrIdx (index : Int)
  | invoke (callback : Fn) (ch : BitVec 8)

abbrev SinkCmd.Reply {Fn : Type} : SinkCmd Fn → Type
  | .load _ => Option Fn
  | .currIdx => Int
  | _ => Unit

/-- The static variables of `sink.c`, and the calls its callbacks have received. -/
structure SinkState (Fn : Type) where
  sinks : Int → Option Fn
  currIdx : Int
  calls : List (Fn × BitVec 8)

def sinkExec {Fn : Type} : (command : SinkCmd Fn) → SinkState Fn →
    Option (command.Reply × SinkState Fn)
  | .load index, s => some (s.sinks index, s)
  | .store index callback, s =>
      some ((), { s with sinks := Function.update s.sinks index callback })
  | .currIdx, s => some (s.currIdx, s)
  | .setCurrIdx index, s => some ((), { s with currIdx := index })
  | .invoke callback ch, s => some ((), { s with calls := s.calls ++ [(callback, ch)] })

abbrev SinkProg (Fn α : Type) := Prog (SinkCmd Fn) SinkCmd.Reply α

section

variable {Fn : Type}

def loadSink (index : Int) : SinkProg Fn (Option Fn) := Prog.issue (SinkCmd.load index)

def storeSink (index : Int) (callback : Option Fn) : SinkProg Fn Unit :=
  Prog.issue (SinkCmd.store index callback)

def getCurrIdx : SinkProg Fn Int := Prog.issue SinkCmd.currIdx

def setCurrIdx (index : Int) : SinkProg Fn Unit := Prog.issue (SinkCmd.setCurrIdx index)

def invoke (callback : Fn) (ch : BitVec 8) : SinkProg Fn Unit :=
  Prog.issue (SinkCmd.invoke callback ch)

def sinkMax : Int := 256

/-- `memset(&sinks[0], 0, SINK_MAX)`: the size is in bytes, so it clears 32 of the 256 pointers. -/
def sinkClear : SinkProg Fn Unit :=
  Prog.forAcc (fun i () => storeSink i none) 32 0 ()

def sinkRegister (writeCallback : Option Fn) : SinkProg Fn Int := do
  let currIdx ← getCurrIdx
  if currIdx < 0 then
    sinkClear
  let currIdx ← getCurrIdx
  if currIdx + 1 ≥ sinkMax then
    pure (-1)
  else
    let slot ← loadSink (currIdx + 1)
    if slot.isSome then
      pure (-1)
    else
      storeSink (currIdx + 1) writeCallback
      setCurrIdx (currIdx + 1)
      pure (currIdx + 1)

def sinkRemove (id : Int) : SinkProg Fn Unit := do
  if id ≥ sinkMax then
    pure ()
  else
    storeSink id none

/-- The C code reads the slot a second time to call it. -/
def sinkWrite (id : Int) (ch : BitVec 8) : SinkProg Fn Unit := do
  if id ≥ sinkMax then
    pure ()
  else
    match ← loadSink id with
    | none => pure ()
    | some callback => invoke callback ch

end

/-! ### The console before memory is set up -/

inductive ConsoleSink where
  | serialSinkWrite
  | debugSinkWrite
deriving DecidableEq

/-- `serial_init` for the first time: `echo` is what the loopback test reads from the port, the byte
it wrote if there is a port. -/
def serialInit (echo : BitVec 8) : SinkProg ConsoleSink Int := do
  if echo ≠ 0xAE#8 then
    pure (-1)
  else
    sinkRegister (some .serialSinkWrite)

/-- What `klog_set_level` leaves in `debug_sink`. -/
def klogSetLevel (debugSink : Int) : SinkProg ConsoleSink Int := do
  if debugSink < 0 then
    sinkRegister (some .debugSinkWrite)
  else
    pure debugSink

/-- `kprintf` of a text without conversions: one `_putchar` for each character, to the default
sink. -/
def kprintf (defaultSink : Int) (text : List (BitVec 8)) : SinkProg ConsoleSink Unit :=
  Prog.forList (sinkWrite defaultSink) text

/-- The first lines of `kmain`. What `serial_init` returns becomes the default sink, unchecked. -/
def kmainConsole (echo : BitVec 8) (text : List (BitVec 8)) : SinkProg ConsoleSink Unit := do
  let serialSinkId ← serialInit echo
  let _ ← klogSetLevel (-1)
  kprintf serialSinkId text

end RainstormOs
